import Sentential.Proofs.Store.Extension
import Sentential.Proofs.Vtree.Tables

/-!
# The nodes that every store begins with

The terminals and the literals stand at the ids below `2 n + 2`, where `n` is the number of
variables: `ofVtree` puts them there and `literal?` computes where.
-/

namespace Sentential.Store

variable {W : Type} [Weight W] {s s' : Store W} {id : NodeId}

/-- The number of terminals and literals. -/
def baseCount (s : Store W) : Nat := 2 * s.varCount + 2

theorem getElem?_literals (n i : Nat) (l : Literal) : (literals n)[i]? = some l ↔
    (i < n ∧ l.value = i + 1) ∨ (n ≤ i ∧ i < 2 * n ∧ l.value = -((i : Int) - n + 1)) := by
  obtain ⟨value, nonzero⟩ := l
  by_cases hlt : i < n
  · rw [literals, List.getElem?_append_left (by simpa using hlt), List.getElem?_map,
      List.getElem?_range hlt]
    simp only [Option.map_some, Option.some_inj, Literal.mk.injEq]
    omega
  · rw [literals, List.getElem?_append_right (by simpa using hlt), List.getElem?_map,
      List.length_map, List.length_range]
    by_cases hin : i < 2 * n
    · rw [List.getElem?_range (by omega)]
      simp only [Option.map_some, Option.some_inj, Literal.mk.injEq]
      omega
    · rw [List.getElem?_eq_none (by rw [List.length_range]; omega)]
      simp
      omega

theorem length_literals (n : Nat) : (literals n).length = 2 * n := by
  simp [literals]
  omega

/-- The entries of a store without made nodes. -/
theorem entry_ofVtree (v : Vtree) (id : NodeId) (e : Entry W) : (ofVtree v).entry id = .ok e ↔
    (id = .bottom ∧ e = ⟨⟨.bottom, none⟩, true⟩) ∨ (id = .top ∧ e = ⟨⟨.top none, none⟩, false⟩) ∨
    ∃ l, (literals v.numVars)[id.raw - 2]? = some l ∧ 2 ≤ id.raw ∧
      e = ⟨⟨.literal l, none⟩, false⟩ := by
  obtain ⟨raw⟩ := id
  rw [entry_eq_ok]
  show (List.toArray _)[raw]? = _ ↔ _
  rw [List.getElem?_toArray]
  -- two terminals, and behind them the literals
  match raw with
  | 0 => simp [NodeId.bottom, NodeId.top, eq_comm]
  | 1 => simp [NodeId.bottom, NodeId.top, eq_comm]
  | raw + 2 =>
    simp only [List.getElem?_cons_succ, List.getElem?_map, Option.map_eq_some_iff, NodeId.bottom,
      NodeId.top, NodeId.mk.injEq, Nat.add_eq_zero_iff]
    constructor
    · intro h
      obtain ⟨l, hl, he⟩ := h
      exact Or.inr (Or.inr ⟨l, hl, by omega, he.symm⟩)
    · intro h
      rcases h with ⟨h, -⟩ | ⟨h, -⟩ | ⟨l, hl, -, he⟩
      · omega
      · omega
      · exact ⟨l, hl, he.symm⟩

theorem numNodes_ofVtree (v : Vtree) : (ofVtree v : Store W).numNodes = 2 * v.numVars + 2 := by
  show (List.toArray _).size = _
  rw [List.size_toArray, List.length_cons, List.length_cons, List.length_map, length_literals]

/-- In an addressable vtree and in no other, words of 32 bits name all nodes that its store begins
with. -/
theorem addressable_iff_knows {v : Vtree} : v.Addressable ↔
    ∀ id, (ofVtree v : Store W).Knows id → id.raw < Decimal.pow2 32 := by
  have hpow : Decimal.pow2 32 = 2 * Decimal.pow2 31 := by decide
  have hknows : ∀ id, (ofVtree v : Store W).Knows id ↔ id.raw < 2 * v.numVars + 2 := by
    intro id
    rw [← numNodes_ofVtree (W := W)]
    rfl
  constructor
  · intro h id hid
    have hn : v.numVars < Decimal.pow2 31 := h
    have hlt := (hknows id).1 hid
    omega
  · intro h
    -- the last node is the negative literal of the last variable
    have hlast := h ⟨2 * v.numVars + 1⟩ ((hknows _).2 (Nat.lt_succ_self _))
    show v.numVars < Decimal.pow2 31
    simp only at hlast
    omega

/-- In an addressable vtree and in no other, words of 32 bits with a sign hold all literals. -/
theorem addressable_iff_literals {v : Vtree} : v.Addressable ↔ ∀ l ∈ literals v.numVars,
    -(Decimal.pow2 31 : Int) ≤ l.value ∧ l.value < Decimal.pow2 31 := by
  constructor
  · intro h l hl
    have hn : v.numVars < Decimal.pow2 31 := h
    obtain ⟨i, hi⟩ := List.mem_iff_getElem?.1 hl
    have hvalue := (getElem?_literals _ _ _).1 hi
    omega
  · intro h
    show v.numVars < Decimal.pow2 31
    by_contra hle
    have hpos : 0 < Decimal.pow2 31 := Decimal.pow2_pos 31
    -- the positive literal of the last variable
    obtain ⟨l, hl⟩ : ∃ l, (literals v.numVars)[v.numVars - 1]? = some l :=
      ⟨_, List.getElem?_eq_getElem (by rw [length_literals]; omega)⟩
    have hvalue := (getElem?_literals _ _ _).1 hl
    have hrange := h l (List.mem_of_getElem? hl)
    omega

/-- The id of a literal is found by computation. -/
theorem literal?_eq_some (l : Literal) : s.literal? l.value = some id ↔
    (literals s.varCount)[id.raw - 2]? = some l ∧ 2 ≤ id.raw := by
  obtain ⟨raw⟩ := id
  have hnonzero := l.nonzero
  rw [getElem?_literals, literal?]
  split
  · next h =>
    constructor
    · intro h
      exact absurd h (by simp)
    · intro h
      show none = _
      omega
  · next h =>
    rw [Option.some_inj, NodeId.mk.injEq]
    show (if 0 < l.value then _ else _) = raw ↔ (_ ∧ 2 ≤ raw)
    simp only
    split <;> omega

theorem literal_lt {l : Int} (hl : s.literal? l = some id) : id.raw < s.baseCount := by
  rw [literal?] at hl
  split at hl
  · exact absurd hl (by simp)
  · next hn =>
    have heq := Option.some_inj.1 hl
    rw [← heq]
    show (if 0 < l then _ else _) < 2 * s.varCount + 2
    split <;> omega

theorem literal?_inj {v v' : Int} (h : s.literal? v = some id) (h' : s.literal? v' = some id) :
    v = v' := by
  unfold literal? at h h'
  simp only at h h'
  split at h
  · exact absurd h (by simp)
  · split at h'
    · exact absurd h' (by simp)
    · have heq : (if 0 < v then v.natAbs + 1 else s.varCount + v.natAbs + 1)
          = if 0 < v' then v'.natAbs + 1 else s.varCount + v'.natAbs + 1 :=
        NodeId.mk.inj (Option.some_inj.1 (h.trans h'.symm))
      split at heq <;> split at heq <;> omega

theorem exists_literal? {v : Int} : (∃ id, s.literal? v = some id) ↔ v ≠ 0 ∧ v.natAbs ≤ s.varCount := by
  unfold literal?
  simp only
  split
  · simp
    omega
  · simp
    omega

theorem literal?_congr (h : s'.varCount = s.varCount) (l : Int) : s'.literal? l = s.literal? l := by
  unfold literal?
  rw [h]

/-- The id is that of a literal. -/
def IsLiteral (s : Store W) (id : NodeId) : Prop := ∃ v, s.literal? v = some id

theorem IsLiteral.lt (h : s.IsLiteral id) : id.raw < s.baseCount := by
  obtain ⟨v, hv⟩ := h
  exact literal_lt hv

/-- The terminals and the literals of the vtree stand at their ids. -/
def HasBase (s : Store W) : Prop := (ofVtree s.vtree).Extends s

namespace HasBase

variable (h : s.HasBase)
include h

theorem entry_bottom : s.entry .bottom = .ok ⟨⟨.bottom, none⟩, true⟩ :=
  h.entry ((entry_ofVtree _ _ _).2 (Or.inl ⟨rfl, rfl⟩))

theorem entry_top : s.entry .top = .ok ⟨⟨.top none, none⟩, false⟩ :=
  h.entry ((entry_ofVtree _ _ _).2 (Or.inr (Or.inl ⟨rfl, rfl⟩)))

theorem entry_literal {l : Literal} (hl : s.literal? l.value = some id) :
    s.entry id = .ok ⟨⟨.literal l, none⟩, false⟩ := by
  obtain ⟨hget, hle⟩ := (literal?_eq_some l).1 hl
  exact h.entry ((entry_ofVtree _ _ _).2 (Or.inr (Or.inr ⟨l, hget, hle, rfl⟩)))

theorem baseCount_le : s.baseCount ≤ s.numNodes := by
  have hle := h.numNodes_le
  rw [numNodes_ofVtree] at hle
  exact hle

/-- The nodes at the first ids are the terminals and the literals, and nothing else. -/
theorem cases {e : Entry W} (he : s.entry id = .ok e) (hlt : id.raw < s.baseCount) :
    (id = .bottom ∧ e = ⟨⟨.bottom, none⟩, true⟩) ∨ (id = .top ∧ e = ⟨⟨.top none, none⟩, false⟩) ∨
    ∃ l, s.literal? l.value = some id ∧ e = ⟨⟨.literal l, none⟩, false⟩ := by
  have hknown : (ofVtree s.vtree : Store W).Knows id := by
    show id.raw < (ofVtree s.vtree : Store W).numNodes
    rw [numNodes_ofVtree]
    exact hlt
  obtain ⟨e', he'⟩ := knows_iff.1 hknown
  -- the node of the empty store is still there, so it is this one
  have heq : e' = e := by
    have := h.entry he'
    rw [he] at this
    exact (Except.ok.inj this).symm
  subst heq
  rcases (entry_ofVtree _ _ _).1 he' with hb | ht | ⟨l, hl, hle, heq⟩
  · exact Or.inl hb
  · exact Or.inr (Or.inl ht)
  · exact Or.inr (Or.inr ⟨l, (literal?_eq_some l).2 ⟨hl, hle⟩, heq⟩)

end HasBase
end Sentential.Store
