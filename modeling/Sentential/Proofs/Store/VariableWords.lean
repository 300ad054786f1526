import Sentential.Proofs.Store.History

/-!
# Variables that are handed over as words

Variables are unsigned words, literals signed ones, and the way from the one to the other reads the
same 32 bits with a sign. Below the middle of the range a variable stays what it is. From the middle
on the word is read as the negative of what it lacks to the whole range (`Literal.signed_of_le`), so
it is taken for another variable with the opposite sign, and a store that has that variable answers
with the node of its negation (`Store.Reached.variables_as_words`).
-/

namespace Sentential

namespace Literal

variable {word : UInt32} {value : Int}

/-- The literal is the variable itself or, without the sign, its negation. -/
structure Spells (l : Literal) (var : Nat) (sign : Bool) : Prop where
  var : l.var = var
  isPositive : l.isPositive = sign
  isNegative : l.isNegative = !sign

theorem spells (l : Literal) : l.Spells l.value.natAbs (decide (0 < l.value)) := by
  have hnonzero := l.nonzero
  refine ⟨rfl, rfl, ?_⟩
  rw [isNegative, ← decide_not, decide_eq_decide]
  omega

/-- A literal has one variable and one sign. -/
theorem Spells.unique {l : Literal} {var var' : Nat} {sign sign' : Bool} (h : l.Spells var sign)
    (h' : l.Spells var' sign') : var = var' ∧ sign = sign' :=
  ⟨h.var.symm.trans h'.var, h.isPositive.symm.trans h'.isPositive⟩

/-! ## Words with a sign -/

theorem signed_eq (word : UInt32) : signed word
    = if word.toNat < Decimal.pow2 31 then (word.toNat : Int) else word.toNat - Decimal.pow2 32 := by
  have hhalf : Decimal.pow2 31 = 2147483648 := rfl
  have hwhole : (Decimal.pow2 32 : Int) = 4294967296 := rfl
  have hsigned : signed word = word.toBitVec.toInt := rfl
  have hnat : word.toBitVec.toNat = word.toNat := rfl
  rw [hsigned, BitVec.toInt_eq_toNat_cond, hnat, hhalf, hwhole]
  split <;> split <;> omega

theorem signed_of_lt (h : word.toNat < Decimal.pow2 31) : signed word = word.toNat := by
  rw [signed_eq, if_pos h]

theorem signed_of_le (h : Decimal.pow2 31 ≤ word.toNat) :
    signed word = -((Decimal.pow2 32 - word.toNat : Nat) : Int) := by
  have hle : word.toNat ≤ Decimal.pow2 32 := Nat.le_of_lt word.toNat_lt
  rw [signed_eq, if_neg (Nat.not_lt_of_le h)]
  omega

theorem signed_range (word : UInt32) :
    -(Decimal.pow2 31 : Int) ≤ signed word ∧ signed word < Decimal.pow2 31 := by
  have hhalf : Decimal.pow2 31 = 2147483648 := rfl
  have hwhole : Decimal.pow2 32 = 4294967296 := rfl
  have hlt := word.toNat_lt
  rw [signed_eq]
  split <;> omega

theorem signed_eq_zero (word : UInt32) : signed word = 0 ↔ word.toNat = 0 := by
  have hhalf : Decimal.pow2 31 = 2147483648 := rfl
  have hwhole : Decimal.pow2 32 = 4294967296 := rfl
  have hlt := word.toNat_lt
  rw [signed_eq]
  split <;> omega

/-- A word keeps the number of variables of a vtree with and without a sign if and only if the vtree
is addressable. -/
theorem addressable_iff_signed {v : Vtree} (h : word.toNat = v.numVars) :
    v.Addressable ↔ signed word = v.numVars := by
  rw [← h]
  show v.numVars < Decimal.pow2 31 ↔ _
  rw [← h]
  constructor
  · exact signed_of_lt
  · intro hsame
    by_contra hle
    -- from the middle on a word is read as a negative number
    have hvalue := signed_of_le (Nat.le_of_not_lt hle)
    have hlt := word.toNat_lt
    have hwhole : Decimal.pow2 32 = 4294967296 := rfl
    omega

/-! ## Literals of words -/

theorem ofInt_of_ne (h : value ≠ 0) :
    ∃ l, ofInt value = .ok l ∧ l.value = value ∧ l.Spells value.natAbs (decide (0 < value)) :=
  ⟨⟨value, h⟩, dif_neg h, rfl, spells ⟨value, h⟩⟩

theorem negated_of_ne (h : value ≠ -(Decimal.pow2 31 : Int)) : negated value = .ok (-value) := if_neg h

theorem negative_eq_zeroLiteral (h : signed word = 0) : negative word = .error .zeroLiteral := by
  rw [negative, h]
  rfl

theorem positive_eq_zeroLiteral (h : signed word = 0) : positive word = .error .zeroLiteral := by
  rw [positive, h]
  rfl

theorem exists_positive_of_ne (h : signed word ≠ 0) : ∃ l, positive word = .ok l ∧
    l.value = signed word ∧ l.Spells (signed word).natAbs (decide (0 < signed word)) :=
  ofInt_of_ne h

/-- The negation has the same variable and the other sign. -/
theorem exists_negative_of_ne (h : signed word ≠ 0) (hlow : signed word ≠ -(Decimal.pow2 31 : Int)) :
    ∃ l, negative word = .ok l ∧ l.Spells (signed word).natAbs (!decide (0 < signed word)) := by
  have hneg : -signed word ≠ 0 := Int.neg_ne_zero.2 h
  obtain ⟨l, hl, -, hspells⟩ := ofInt_of_ne hneg
  have hsign : decide (0 < -signed word) = !decide (0 < signed word) := by
    rw [← decide_not, decide_eq_decide]
    omega
  rw [Int.natAbs_neg, hsign] at hspells
  refine ⟨l, ?_, hspells⟩
  rw [negative, negated_of_ne hlow, ok_bind, hl]

theorem negative_lowest (h : signed word = -(Decimal.pow2 31 : Int)) :
    negative word = .error .overflow := by
  rw [negative, h]
  rfl

end Literal

namespace Store

variable {W : Type} [Weight W] {s : Store W} {word : UInt32}

/-- The node is that of the literal, and there is no other. -/
structure IsLiteralNode (s : Store W) (l : Literal) (id : NodeId) : Prop where
  entry : s.entry id = .ok ⟨⟨.literal l, none⟩, false⟩
  unique : ∀ id', s.kind id' = .ok (.literal l) → id' = id

/-- A word is refused or keeps its variable: the literals made of it are the variable and its
negation, and the store has a node for it if the variable is one of the vtree. -/
structure KeepsVariable (s : Store W) (word : UInt32) : Prop where
  positive : ∀ l, Literal.positive word = .ok l → l.Spells word.toNat true
  negative : ∀ l, Literal.negative word = .ok l → l.Spells word.toNat false
  known : 1 ≤ word.toNat → word.toNat ≤ s.varCount →
    ∃ id l, s.var word = .ok id ∧ l.Spells word.toNat true ∧ s.IsLiteralNode l id
  unknown : ¬ (1 ≤ word.toNat ∧ word.toNat ≤ s.varCount) → ∃ e, s.var word = .error e

/-- A word is taken for a variable, with that sign where the variable itself is asked for. Only the
lowest number has no negation. -/
structure TakenFor (s : Store W) (word : UInt32) (var : Nat) (sign : Bool) : Prop where
  positive : ∃ l, Literal.positive word = .ok l ∧ l.Spells var sign
  negative : var ≠ Decimal.pow2 31 → ∃ l, Literal.negative word = .ok l ∧ l.Spells var !sign
  lowest : var = Decimal.pow2 31 → Literal.negative word = .error .overflow
  known : var ≤ s.varCount → ∃ id l, s.var word = .ok id ∧ l.Spells var sign ∧ s.IsLiteralNode l id
  unknown : s.varCount < var → s.var word = .error (.literalRange (Literal.signed word) s.varCount)

/-- The store has one node for each of its literals. -/
theorem Sound.isLiteralNode (hs : s.Sound) {l : Literal} {id : NodeId} (h : s.literal? l.value = some id) :
    s.IsLiteralNode l id where
  entry := hs.base.entry_literal h
  unique _ hkind := Option.some_inj.1 ((hs.literal?_of_kind hkind).symm.trans h)

theorem var_refused (h : Literal.signed word = 0 ∨ s.varCount < (Literal.signed word).natAbs) :
    s.var word = .error (.literalRange (Literal.signed word) s.varCount) := by
  have hnone : s.literal? (Literal.signed word) = none := if_pos h
  unfold var literal
  rw [hnone]

/-- A word that is not zero is taken for the variable and the sign that its signed reading has. -/
theorem Sound.takenFor (hs : s.Sound) (hne : Literal.signed word ≠ 0) :
    s.TakenFor word (Literal.signed word).natAbs (decide (0 < Literal.signed word)) := by
  have hrange := Literal.signed_range word
  obtain ⟨l, hl, hvalue, hspells⟩ := Literal.exists_positive_of_ne hne
  constructor
  case positive => exact ⟨l, hl, hspells⟩
  case negative => exact fun hvar => Literal.exists_negative_of_ne hne (by omega)
  case lowest => exact fun hvar => Literal.negative_lowest (by omega)
  case known =>
    intro hle
    obtain ⟨id, hid⟩ := exists_literal?.2 ⟨hne, hle⟩
    refine ⟨id, l, ?_, hspells, hs.isLiteralNode (hvalue ▸ hid)⟩
    unfold var literal
    rw [hid]
  case unknown => exact fun hlt => var_refused (Or.inr hlt)

theorem Sound.takenFor_of_lt (hs : s.Sound) (hpos : 0 < word.toNat)
    (h : word.toNat < Decimal.pow2 31) : s.TakenFor word word.toNat true := by
  have hne : Literal.signed word ≠ 0 := fun hzero =>
    Nat.ne_of_gt hpos ((Literal.signed_eq_zero word).1 hzero)
  have htaken := hs.takenFor hne
  have hsign : decide (0 < (word.toNat : Int)) = true := decide_eq_true (by omega)
  rwa [Literal.signed_of_lt h, Int.natAbs_natCast, hsign] at htaken

theorem Sound.takenFor_of_le (hs : s.Sound) (h : Decimal.pow2 31 ≤ word.toNat) :
    s.TakenFor word (Decimal.pow2 32 - word.toNat) false := by
  have hpos : word.toNat ≠ 0 := Nat.ne_of_gt (Nat.lt_of_lt_of_le (by decide) h)
  have hne : Literal.signed word ≠ 0 := fun hzero => hpos ((Literal.signed_eq_zero word).1 hzero)
  have htaken := hs.takenFor hne
  have hsign : decide (0 < -((Decimal.pow2 32 - word.toNat : Nat) : Int)) = false :=
    decide_eq_false (by omega)
  rwa [Literal.signed_of_le h, Int.natAbs_neg, Int.natAbs_natCast, hsign] at htaken

/-! ## Which words keep their variable -/

/-- Zero is no variable, and it is refused everywhere. -/
theorem keepsVariable_of_zero (h : word.toNat = 0) : s.KeepsVariable word := by
  have hsigned := (Literal.signed_eq_zero word).2 h
  constructor
  case positive =>
    intro l hl
    exact absurd (hl.symm.trans (Literal.positive_eq_zeroLiteral hsigned)) (by simp)
  case negative =>
    intro l hl
    exact absurd (hl.symm.trans (Literal.negative_eq_zeroLiteral hsigned)) (by simp)
  case known =>
    intro hpos
    omega
  case unknown => exact fun _ => ⟨_, var_refused (Or.inl hsigned)⟩

/-- A word that is taken for itself keeps its variable. -/
theorem TakenFor.keepsVariable (h : s.TakenFor word word.toNat true)
    (hlt : word.toNat < Decimal.pow2 31) (hpos : 0 < word.toNat) : s.KeepsVariable word := by
  constructor
  case positive =>
    intro l hl
    obtain ⟨l', hl', hspells⟩ := h.positive
    obtain rfl := Except.ok.inj (hl.symm.trans hl')
    exact hspells
  case negative =>
    intro l hl
    obtain ⟨l', hl', hspells⟩ := h.negative (Nat.ne_of_lt hlt)
    obtain rfl := Except.ok.inj (hl.symm.trans hl')
    exact hspells
  case known => exact fun _ => h.known
  case unknown => exact fun hnot => ⟨_, h.unknown (by omega)⟩

/-- A word that is taken for a negated variable does not. -/
theorem TakenFor.not_keepsVariable {var : Nat} (h : s.TakenFor word var false) :
    ¬ s.KeepsVariable word := by
  intro hkeeps
  obtain ⟨l, hl, hspells⟩ := h.positive
  exact absurd (hspells.unique (hkeeps.positive l hl)).2 (by simp)

/-- Zero is refused. The other words below the middle of the range are taken for their variables. The
words from the middle on are taken for the negations of other variables, so exactly the words below
it keep their variables. -/
theorem Reached.variables_as_words (h : s.Reached) (word : UInt32) :
    (word.toNat = 0 → Literal.positive word = .error .zeroLiteral ∧
      Literal.negative word = .error .zeroLiteral ∧
      s.var word = .error (.literalRange 0 s.varCount)) ∧
    (0 < word.toNat → word.toNat < Decimal.pow2 31 → s.TakenFor word word.toNat true) ∧
    (Decimal.pow2 31 ≤ word.toNat → s.TakenFor word (Decimal.pow2 32 - word.toNat) false) ∧
    (s.KeepsVariable word ↔ word.toNat < Decimal.pow2 31) := by
  have hs : s.Sound := h.sound
  refine ⟨fun hzero => ?_, hs.takenFor_of_lt, hs.takenFor_of_le, fun hkeeps => ?_, fun hlt => ?_⟩
  · have hsigned := (Literal.signed_eq_zero word).2 hzero
    have hvar := var_refused (s := s) (Or.inl hsigned)
    rw [hsigned] at hvar
    exact ⟨Literal.positive_eq_zeroLiteral hsigned, Literal.negative_eq_zeroLiteral hsigned, hvar⟩
  · by_contra hnot
    exact (hs.takenFor_of_le (Nat.le_of_not_lt hnot)).not_keepsVariable hkeeps
  · rcases Nat.eq_zero_or_pos word.toNat with hzero | hpos
    · exact keepsVariable_of_zero hzero
    · exact (hs.takenFor_of_lt hpos hlt).keepsVariable hlt hpos

/-- The first variable, and the word at the end of the range, which is taken for its negation. -/
theorem variables_as_words_sample : sample.Reached ∧ sample.TakenFor 1 1 true ∧
    sample.KeepsVariable 1 ∧ sample.TakenFor 4294967295 1 false := by
  have hreached : sample.Reached := built_sample.reached
  obtain ⟨-, hlow, -, hiff⟩ := hreached.variables_as_words 1
  obtain ⟨-, -, hhigh, -⟩ := hreached.variables_as_words 4294967295
  exact ⟨hreached, hlow (by decide) (by decide), hiff.2 (by decide), hhigh (by decide)⟩

/-- No literal has the largest word for its variable, but it is accepted everywhere: as the negation
of the first variable, as the first variable where a negation is asked for, and as a variable of a
store over two variables. -/
theorem not_keepsVariable_last : (ofVtree .pair : Store Extreme).Reached ∧
    Literal.positive 4294967295 = .ok ⟨-1, by decide⟩ ∧
    Literal.negative 4294967295 = .ok ⟨1, by decide⟩ ∧
    (ofVtree .pair : Store Extreme).var 4294967295 = .ok ⟨4⟩ ∧
    (ofVtree .pair : Store Extreme).kind ⟨4⟩ = .ok (.literal ⟨-1, by decide⟩) ∧
    ¬ (ofVtree .pair : Store Extreme).KeepsVariable 4294967295 := by
  have hpositive : Literal.positive 4294967295 = .ok ⟨-1, by decide⟩ := rfl
  refine ⟨.start (.balanced Vtree.balanced_two), hpositive, rfl, rfl, rfl, fun hkeeps => ?_⟩
  exact absurd (hkeeps.positive _ hpositive).isPositive (by decide)

end Store
end Sentential
