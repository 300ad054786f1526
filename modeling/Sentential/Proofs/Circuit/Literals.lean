import Mathlib.Data.List.Range
import Sentential.Circuit.LiteralMap
import Sentential.Proofs.Circuit.Wiring
import Sentential.Proofs.Text.Rendered
import Sentential.Proofs.Weight.OneLine

/-!
# The literals of a circuit and of its files

A circuit is handed on as two files: the circuit file, whose header counts its lines, operands and
literals, and the literal map, which says what the literals stand for and gives the parameters their
weights. The two agree because an emission numbers its parameters one after the other
(`Emission.Numbered`): its literals are the indicators and behind them the parameters in the order of
their numbers, and exactly the parameters have weights. Emitting a node keeps this up
(`Emits.numbered`), so it holds of every circuit, `Built.sameLiterals`.
-/

namespace Sentential

open Text

/-! ## Lists of literals -/

/-- The numbers above `low` up to `high`. -/
def numbersUpTo (low high : Nat) : List Int :=
  (List.range' (low + 1) (high - low)).map fun p : Nat => (p : Int)

/-- Every number behind its negation. -/
def withNegations (ps : List Int) : List Int := ps.flatMap fun p => [-p, p]

theorem mem_numbersUpTo {low high : Nat} {p : Int} :
    p ∈ numbersUpTo low high ↔ (low : Int) < p ∧ p ≤ high := by
  rw [numbersUpTo, List.mem_map]
  simp only [List.mem_range'_1]
  constructor
  · rintro ⟨q, hq, rfl⟩
    omega
  · intro hp
    exact ⟨p.toNat, by omega, by omega⟩

theorem pairwise_numbersUpTo (low high : Nat) : (numbersUpTo low high).Pairwise (· < ·) := by
  rw [numbersUpTo, List.pairwise_map]
  exact (List.pairwise_lt_range' 1).imp Int.ofNat_lt.2

theorem length_numbersUpTo (low high : Nat) : (numbersUpTo low high).length = high - low := by
  rw [numbersUpTo, List.length_map, List.length_range']

theorem numbersUpTo_self (n : Nat) : numbersUpTo n n = [] := by
  rw [numbersUpTo, Nat.sub_self]
  rfl

theorem numbersUpTo_succ {low high : Nat} (h : low ≤ high) :
    numbersUpTo low (high + 1) = numbersUpTo low high ++ [(high : Int) + 1] := by
  have hlast : low + 1 + (high - low) = high + 1 := by omega
  rw [numbersUpTo, Nat.succ_sub h, List.range'_concat, List.map_append, Nat.one_mul, hlast]
  rfl

theorem withNegations_nodup {ps : List Int} (h : ps.Pairwise (· < ·)) (hpos : ∀ p ∈ ps, 0 < p) :
    (withNegations ps).Nodup := by
  rw [withNegations, List.nodup_flatMap]
  constructor
  · intro p hp
    have := hpos p hp
    simp
    omega
  · refine h.imp_of_mem fun {p q} hp hq hpq => ?_
    have := hpos p hp
    simp [Function.onFun]
    omega

/-- The indicators are no parameters, and every literal is one of them once. -/
theorem indicators_append_nodup (n high : Nat) : (indicators n ++ numbersUpTo n high).Nodup := by
  have hparameters : (numbersUpTo n high).Nodup := (pairwise_numbersUpTo n high).imp Int.ne_of_lt
  refine List.nodup_append.2 ⟨Store.indicators_nodup n, hparameters, fun a ha b hb hab => ?_⟩
  have := (Store.mem_indicators.1 ha).2
  have := (mem_numbersUpTo.1 hb).1
  omega

/-- A list of numbers in ascending order is known by its members. -/
theorem eq_numbersUpTo {ps : List Int} (h : ps.Pairwise (· < ·)) {low high : Nat}
    (hmem : ∀ p, p ∈ ps ↔ (low : Int) < p ∧ p ≤ high) : ps = numbersUpTo low high := by
  have hnumbers := pairwise_numbersUpTo low high
  have hperm : ps.Perm (numbersUpTo low high) := by
    rw [List.perm_ext_iff_of_nodup (h.imp Int.ne_of_lt) (hnumbers.imp Int.ne_of_lt)]
    exact fun p => (hmem p).trans mem_numbersUpTo.symm
  exact hperm.eq_of_pairwise (fun a b _ _ hab hba => by omega) h hnumbers

/-! ## Emissions -/

/-- The literal of an opcode. -/
def Opcode.literal? : Opcode → Option Int
  | .literal l => some l
  | .product _ => none
  | .sum _ => none

/-- The literals of a circuit in the order of their opcodes. -/
def Circuit.literals {V : Type} (c : Circuit V) : List Int := c.ops.toList.filterMap Opcode.literal?

namespace Emission

variable {V : Type} {e : Emission V} {n : Nat}

/-- The literals of an emission are the indicators of `n` variables and then the parameters one
after the other, and exactly the parameters have weights. -/
structure Numbered (n : Nat) (e : Emission V) : Prop where
  pos : n < e.next
  literals : e.ops.toList.filterMap Opcode.literal? = indicators n ++ numbersUpTo n (e.next - 1)
  weights : ∀ p, p ∈ e.weights.entries ↔ (n : Int) < p ∧ p < e.next

theorem numbered_ofIndicators [Arithmetic V] (n : Nat) : (ofIndicators n : Emission V).Numbered n := by
  constructor
  case pos => exact Nat.lt_succ_self n
  case literals =>
    show (List.toArray _).toList.filterMap _ = indicators n ++ numbersUpTo n (n + 1 - 1)
    rw [List.toList_toArray, List.filterMap_map, Nat.add_sub_cancel, numbersUpTo_self, List.append_nil]
    exact List.filterMap_some
  case weights =>
    intro p
    refine iff_of_false Std.TreeMap.not_mem_emptyc ?_
    show ¬((n : Int) < p ∧ p < ((n + 1 : Nat) : Int))
    omega

namespace Numbered

/-- An opcode that is no literal changes nothing. -/
theorem push (h : e.Numbered n) {op : Opcode} (hop : op.literal? = none) : (e.push op).Numbered n := by
  constructor
  case pos => exact h.pos
  case weights => exact h.weights
  case literals =>
    show (e.ops.push op).toList.filterMap _ = _
    rw [Array.toList_push, List.filterMap_append, h.literals]
    simp [hop, Emission.push]

/-- The next parameter gets the next number and a weight. -/
theorem parameter (h : e.Numbered n) (w : V) : (e.parameter w).Numbered n := by
  have hpos := h.pos
  constructor
  case pos => exact Nat.lt_succ_of_lt hpos
  case literals =>
    have hnumbers : numbersUpTo n (e.next + 1 - 1) = numbersUpTo n (e.next - 1) ++ [(e.next : Int)] := by
      rw [show e.next + 1 - 1 = e.next - 1 + 1 by omega, numbersUpTo_succ (by omega)]
      congr 2
      omega
    show (e.ops.push (.literal e.next)).toList.filterMap _
      = indicators n ++ numbersUpTo n (e.next + 1 - 1)
    rw [Array.toList_push, List.filterMap_append, h.literals, hnumbers, List.append_assoc]
    rfl
  case weights =>
    intro p
    show p ∈ e.weights.entries.insert e.next w ↔ (n : Int) < p ∧ p < ((e.next + 1 : Nat) : Int)
    rw [Std.TreeMap.mem_insert, h.weights, Std.LawfulEqCmp.compare_eq_iff_eq]
    omega

theorem element (h : e.Numbered n) (w : V) (prime sub : Nat) : (e.element w prime sub).Numbered n :=
  (h.parameter w).push rfl

theorem items (h : e.Numbered n) (xs : List (Item V)) : (e.items xs).Numbered n := by
  induction xs generalizing e with
  | nil => exact h
  | cons x xs ih => exact ih (h.element x.weight x.prime x.sub)

theorem top (h : e.Numbered n) (w₀ w₁ : V) (negative positive : Nat) :
    (e.top w₀ w₁ negative positive).Numbered n :=
  ((((h.parameter w₀).parameter w₁).push rfl).push rfl).push rfl

/-- The entries of the weights are those of the parameters in the order of their numbers. -/
theorem keys_eq (h : e.Numbered n) :
    e.weights.toList.map Prod.fst = numbersUpTo n (e.next - 1) := by
  have hkeys : e.weights.toList.map Prod.fst = e.weights.entries.keys :=
    Std.TreeMap.map_fst_toList_eq_keys
  have hpos := h.pos
  rw [hkeys]
  refine eq_numbersUpTo (Std.TreeMap.ordered_keys.imp Int.compare_eq_lt.1) fun p => ?_
  rw [Std.TreeMap.mem_keys, h.weights]
  omega

theorem parameters_eq (h : e.Numbered n) : e.weights.parameters = numbersUpTo n (e.next - 1) := by
  rw [WeightTable.parameters, h.keys_eq, List.filter_eq_self]
  intro p hp
  have := (mem_numbersUpTo.1 hp).1
  exact decide_eq_true (by omega)

/-- The numbers that have been given are those of the variables and of the parameters. -/
theorem add_length_parameters (h : e.Numbered n) : n + e.weights.parameters.length = e.next - 1 := by
  have hpos := h.pos
  rw [h.parameters_eq, length_numbersUpTo]
  omega

end Numbered
end Emission

/-! ## Compilations -/

namespace Store

variable {W : Type} [Weight W] {s : Store W} {l : Layout} {e e' : Emission W} {id : NodeId}
  {order : List NodeId} {n : Nat}

/-- The parameters of one more node continue the numbering. -/
theorem Emits.numbered (h : s.Emits l id e e') (he : e.Numbered n) : e'.Numbered n := by
  cases h with
  | literal lit hlit => exact he
  | top leaf var θ w₀ w₁ no yes negative positive => exact he.top w₀ w₁ negative positive
  | decision v es θ xs => exact (he.items xs).push rfl

theorem EmitsAll.numbered (h : s.EmitsAll l order e e') (he : e.Numbered n) : e'.Numbered n := by
  induction h with
  | nil e => exact he
  | cons hid _ ih => exact ih (hid.numbered he)

theorem Compiled.numbered (h : s.Compiled order l e) : e.Numbered s.varCount :=
  h.emits.numbered (Emission.numbered_ofIndicators _)

end Store

/-! ## The circuit file -/

namespace Circuit

/-- The literal in a line of a circuit file. -/
def lineLiteral? (line : List Char) : Option Field :=
  match fields line with
  | [['l'], literal] => some literal
  | _ => none

/-- The number of operands in a line of a circuit file, behind its sign and their number. -/
def lineOperands (line : List Char) : Nat := ((fields line).drop 2).length

theorem isField_fields (op : Opcode) : ∀ f ∈ op.fields, IsField f := by
  cases op with
  | literal l => simpa [Opcode.fields] using (by decide : IsField ['l'])
  | product ids => simpa [Opcode.fields] using (by decide : IsField ['*'])
  | sum ids => simpa [Opcode.fields] using (by decide : IsField ['+'])

theorem lineLiteral?_fields (op : Opcode) :
    lineLiteral? (renderFields op.fields) = op.literal?.map intField := by
  rw [lineLiteral?, fields_renderFields (isField_fields op)]
  cases op <;> rfl

theorem lineOperands_fields (op : Opcode) :
    lineOperands (renderFields op.fields) = op.operands.length := by
  rw [lineOperands, fields_renderFields (isField_fields op)]
  cases op with
  | literal l => rfl
  | product ids => exact List.length_map _
  | sum ids => exact List.length_map _

theorem countEdges_eq_sum (ops : List Opcode) :
    countEdges ops = (ops.map fun op => op.operands.length).sum := by
  induction ops with
  | nil => rfl
  | cons op ops ih => rw [countEdges, List.map_cons, List.sum_cons, ih]

variable {V : Type} (c : Circuit V)

/-- The lines of a circuit file: a header with three numbers, and a line for every opcode. -/
theorem lines_text : lines c.text =
    renderFields ["nnf".toList, natField c.nodeCount, natField c.edgeCount, natField c.literalCount] ::
      c.ops.toList.map fun op => renderFields op.fields := by
  rw [text, List.map_cons, List.map_map]
  refine lines_render fun line hline => ?_
  rcases List.mem_cons.1 hline with rfl | hline
  · have htag : IsField "nnf".toList := by decide
    exact notMem_renderFields (by simpa using htag)
  · obtain ⟨op, -, rfl⟩ := List.mem_map.1 hline
    exact notMem_renderFields (isField_fields op)

/-- The lines behind the header have the operands and the literals of the opcodes. -/
theorem exists_body : ∃ body, lines c.text = renderFields ["nnf".toList, natField body.length,
      natField (body.map lineOperands).sum, natField c.literalCount] :: body ∧
    body.filterMap lineLiteral? = c.literals.map intField := by
  refine ⟨c.ops.toList.map fun op => renderFields op.fields, ?_, ?_⟩
  · rw [lines_text, List.map_map, List.length_map, Array.length_toList, edgeCount, countEdges_eq_sum]
    simp only [Function.comp_def, lineOperands_fields]
    rfl
  · rw [literals, List.map_filterMap, List.filterMap_map]
    simp only [Function.comp_def, lineLiteral?_fields]

end Circuit

/-! ## The literal map -/

namespace WeightTable

/-- What a line of a literal map is about if it is a record of this kind: the part behind the
letter. -/
def subject? (kind : Char) (line : List Char) : Option (List Char) :=
  match line.splitOn '$' with
  | tag :: letter :: subject :: _ =>
    if tag = "cc".toList ∧ letter = [kind] then some subject else none
  | _ => none

/-- What the records of a kind are about, in the order of their lines. -/
def subjects (kind : Char) (text : List Char) : List (List Char) :=
  (lines text).filterMap (subject? kind)

theorem mapLine_cons (part next : List Char) (rest : List (List Char)) :
    mapLine (part :: next :: rest) = part ++ '$' :: mapLine (next :: rest) := by
  simp [mapLine, List.intercalate, List.intersperse]

theorem notMem_mapLine {c : Char} (hc : c ≠ '$') {parts : List (List Char)}
    (h : ∀ part ∈ parts, c ∉ part) : c ∉ mapLine parts := by
  induction parts with
  | nil => exact List.not_mem_nil
  | cons part rest ih =>
    obtain ⟨hpart, hrest⟩ := List.forall_mem_cons.1 h
    cases rest with
    | nil => simpa [mapLine, List.intercalate] using hpart
    | cons next rest =>
      rw [mapLine_cons, List.mem_append, List.mem_cons, not_or, not_or]
      exact ⟨hpart, hc, ih hrest⟩

/-- A record is about its third part, whatever stands behind it. -/
theorem subject?_mapLine (kind letter : Char) (hletter : letter ≠ '$') {subject : List Char}
    (hsubject : '$' ∉ subject) (rest : List (List Char)) :
    subject? kind (mapLine ("cc".toList :: [letter] :: subject :: rest))
      = if letter = kind then some subject else none := by
  have hsplit : ∃ tail, (mapLine ("cc".toList :: [letter] :: subject :: rest)).splitOn '$'
      = "cc".toList :: [letter] :: subject :: tail := by
    have hone : '$' ∉ [letter] := by simpa using hletter.symm
    rw [mapLine_cons, List.splitOn_append_cons_self_of_not_mem (by decide), mapLine_cons,
      List.splitOn_append_cons_self_of_not_mem hone]
    cases rest with
    | nil =>
      refine ⟨[], ?_⟩
      rw [show mapLine [subject] = subject by simp [mapLine, List.intercalate]]
      have hpieces : subject.splitOnP (· == '$') = [subject] :=
        List.splitOnP_eq_singleton fun c hc => by
          simpa using fun heq : c = '$' => hsubject (heq ▸ hc)
      exact congrArg (fun pieces => "cc".toList :: [letter] :: pieces) hpieces
    | cons next rest =>
      rw [mapLine_cons, List.splitOn_append_cons_self_of_not_mem hsubject]
      exact ⟨_, rfl⟩
  obtain ⟨tail, htail⟩ := hsplit
  rw [subject?, htail]
  simp

theorem notMem_intField {c : Char} (hc : c.isDigit = false) (hsign : c ≠ '-') (i : Int) :
    c ∉ intField i := by
  unfold intField
  split
  · rw [List.mem_cons, not_or]
    exact ⟨hsign, Decimal.notMem_digits hc _⟩
  · exact Decimal.notMem_digits hc _

theorem dollar_notMem_natField (n : Nat) : '$' ∉ natField n := Decimal.notMem_digits (by decide) n

theorem dollar_notMem_intField (i : Int) : '$' ∉ intField i :=
  notMem_intField (by decide) (by decide) i

theorem dollar_notMem_variableName (var : Nat) : '$' ∉ variableName var := by
  rw [variableName, List.mem_cons, not_or]
  exact ⟨by decide, dollar_notMem_natField var⟩

section

variable {W : Type} [Weight W] (t : WeightTable W) (kind : Char)

/-- A record of a literal has the literal as its third part. -/
theorem subject?_record (letter : Char) (hletter : letter ≠ '$') (l : Int) (rest : List (List Char)) :
    subject? kind (mapLine ("cc".toList :: [letter] :: intField l :: rest))
      = if letter = kind then some (intField l) else none :=
  subject?_mapLine kind letter hletter (dollar_notMem_intField l) rest

theorem filterMap_indicatorLines (n : Nat) :
    ((List.range n).flatMap indicatorLines).filterMap (subject? kind)
      = if 'I' = kind then (withNegations (numbersUpTo 0 n)).map intField else [] := by
  have hnumbers : numbersUpTo 0 n = (List.range n).map fun var : Nat => (var : Int) + 1 := by
    rw [numbersUpTo, List.range'_eq_map_range, List.map_map]
    refine List.map_congr_left fun var _ => ?_
    show ((0 + 1 + var : Nat) : Int) = var + 1
    omega
  rw [List.filterMap_flatMap, hnumbers, withNegations, List.flatMap_map, List.map_flatMap]
  split
  · next hkind =>
    refine List.flatMap_congr fun var _ => ?_
    simp only [indicatorLines, List.filterMap_cons, List.filterMap_nil,
      subject?_record kind 'I' (by decide), if_pos hkind, List.map_cons, List.map_nil]
  · next hkind =>
    rw [List.flatMap_eq_nil_iff]
    intro var _
    simp only [indicatorLines, List.filterMap_cons, List.filterMap_nil,
      subject?_record kind 'I' (by decide), if_neg hkind]

theorem filterMap_parameterLines (ps : List Int) :
    (ps.flatMap t.parameterLines).filterMap (subject? kind)
      = if 'C' = kind then (withNegations ps).map intField else [] := by
  rw [List.filterMap_flatMap, withNegations, List.map_flatMap]
  split
  · next hkind =>
    refine List.flatMap_congr fun p _ => ?_
    simp only [parameterLines, List.filterMap_cons, List.filterMap_nil,
      subject?_record kind 'C' (by decide), if_pos hkind, List.map_cons, List.map_nil]
  · next hkind =>
    rw [List.flatMap_eq_nil_iff]
    intro p _
    simp only [parameterLines, List.filterMap_cons, List.filterMap_nil,
      subject?_record kind 'C' (by decide), if_neg hkind]

theorem filterMap_variableLines (vars : List Nat) (hkind : 'V' ≠ kind) :
    (vars.map fun var => mapLine ["cc".toList, ['V'], variableName var, ['2']]).filterMap
      (subject? kind) = [] := by
  rw [List.filterMap_map, List.filterMap_eq_nil_iff]
  intro var _
  rw [Function.comp_apply, subject?_mapLine kind 'V' (by decide) (dollar_notMem_variableName var),
    if_neg hkind]

variable {t} (hweight : Weight.OneLine W)
include hweight

/-- The lines of a literal map are the lines that were put together. -/
theorem lines_mapText (n : Nat) : lines (t.mapText n) = t.mapLines n := by
  have hnat : ∀ m : Nat, '\n' ∉ natField m := Decimal.notMem_digits (by decide)
  have hint : ∀ i : Int, '\n' ∉ intField i := notMem_intField (by decide) (by decide)
  have hname : ∀ var : Nat, '\n' ∉ variableName var := by
    intro var
    rw [variableName, List.mem_cons, not_or]
    exact ⟨by decide, hnat var⟩
  have hparts : ∀ parts : List (List Char), (∀ part ∈ parts, '\n' ∉ part) → '\n' ∉ mapLine parts :=
    fun parts => notMem_mapLine (by decide)
  have hindicator : ∀ var, ∀ line ∈ indicatorLines var, '\n' ∉ line := by
    intro var
    simp only [indicatorLines, List.forall_mem_cons]
    refine ⟨hparts _ ?_, hparts _ ?_, by simp⟩ <;> simp [hint, hname]
  have hvalue : ∀ p, '\n' ∉ Weight.generalText (t.get p) := fun p => hweight _
  have hparameter : ∀ p, ∀ line ∈ t.parameterLines p, '\n' ∉ line := by
    intro p
    simp only [parameterLines, List.forall_mem_cons]
    refine ⟨hparts _ ?_, hparts _ ?_, by simp⟩ <;> simp [hint, hvalue]
  refine lines_render ?_
  simp only [mapLines, List.forall_mem_append, List.forall_mem_cons, List.forall_mem_map,
    List.forall_mem_flatMap]
  refine ⟨⟨⟨⟨⟨by decide, by decide, by decide, by decide, hparts _ ?_, hparts _ ?_, by simp⟩,
    fun var _ => hparts _ ?_⟩, by decide, by simp⟩, fun var _ => hindicator var⟩,
    fun p _ => hparameter p⟩
  all_goals simp [hnat, hname]

/-- What the records of a kind are about, for a kind that no fixed line has. -/
theorem subjects_mapText (n : Nat) (hvariable : 'V' ≠ kind)
    (hfixed : ∀ line ∈ ["c Following is the literal map:".toList, ['c'], "cc$K$ALWAYS_SUM".toList,
      "cc$S$NORMAL".toList, "cc$t$0".toList], subject? kind line = none) :
    subjects kind (t.mapText n) =
      (if 'N' = kind then [natField (n + t.parameters.length)] else []) ++
      (if 'v' = kind then [natField n] else []) ++
      (if 'I' = kind then (withNegations (numbersUpTo 0 n)).map intField else []) ++
      (if 'C' = kind then (withNegations t.parameters).map intField else []) := by
  simp only [List.forall_mem_cons] at hfixed
  obtain ⟨htitle, hblank, hsums, hnormal, htotal, -⟩ := hfixed
  have hcount := subject?_mapLine kind 'N' (by decide)
    (dollar_notMem_natField (n + t.parameters.length)) []
  have hvars := subject?_mapLine kind 'v' (by decide) (dollar_notMem_natField n) []
  rw [subjects, lines_mapText hweight, mapLines]
  simp only [List.filterMap_append, filterMap_variableLines kind _ hvariable,
    filterMap_indicatorLines, filterMap_parameterLines, List.filterMap_cons, List.filterMap_nil,
    htitle, hblank, hsums, hnormal, htotal, hcount, hvars]
  by_cases hN : 'N' = kind
  · have hv : 'v' ≠ kind := by
      rw [← hN]
      decide
    simp only [if_pos hN, if_neg hv, List.append_nil, List.append_assoc]
  · by_cases hv : 'v' = kind
    · simp only [if_neg hN, if_pos hv, List.nil_append, List.append_nil, List.append_assoc]
    · simp only [if_neg hN, if_neg hv, List.nil_append, List.append_nil]

end

end WeightTable

/-! ## Both files of a circuit -/

theorem intField_injective : Function.Injective intField := by
  have hnat : ∀ {m k : Nat}, Decimal.digits m = Decimal.digits k → m = k := by
    intro m k h
    have hread := Decimal.readDigits?_digits m
    rw [h, Decimal.readDigits?_digits] at hread
    exact (Option.some_inj.1 hread).symm
  -- no digits begin with a sign
  have hsign : ∀ m k : Nat, '-' :: Decimal.digits m ≠ Decimal.digits k := by
    intro m k h
    obtain ⟨c, cs, hcs, -, hminus⟩ := Decimal.exists_digits_cons k
    rw [hcs] at h
    exact hminus (List.cons.inj h).1.symm
  intro i j h
  unfold intField at h
  split at h <;> split at h
  · have := hnat (List.cons.inj h).2
    omega
  · exact absurd h (hsign _ _)
  · exact absurd h.symm (hsign _ _)
  · have := hnat h
    omega

theorem withNegations_fields_nodup (low high : Nat) :
    ((withNegations (numbersUpTo low high)).map intField).Nodup := by
  refine (withNegations_nodup (pairwise_numbersUpTo low high) fun p hp => ?_).map intField_injective
  have := (mem_numbersUpTo.1 hp).1
  omega

variable {W : Type} [Weight W]

/-- A circuit over `n` variables, its file and its literal map have the same literals: the
indicators of the variables and the parameters behind them, each once. -/
structure Circuit.SameLiterals (c : Circuit W) (n : Nat) : Prop where
  varCount : c.varCount = n
  opcodes : c.literals = indicators n ++ numbersUpTo n c.literalCount
  opcodes_nodup : c.literals.Nodup
  keys : c.weights.toList.map Prod.fst = numbersUpTo n c.literalCount
  /-- The numbers in the header are those of the lines behind it, of their operands, and of the
  variables and parameters. -/
  file : ∃ body, lines c.text = renderFields ["nnf".toList, natField body.length,
      natField (body.map Circuit.lineOperands).sum, natField c.literalCount] :: body ∧
    body.filterMap Circuit.lineLiteral?
      = (indicators n ++ numbersUpTo n c.literalCount).map intField
  indicatorRecords : WeightTable.subjects 'I' (c.weights.mapText c.varCount)
    = (withNegations (numbersUpTo 0 n)).map intField
  parameterRecords : WeightTable.subjects 'C' (c.weights.mapText c.varCount)
    = (withNegations (numbersUpTo n c.literalCount)).map intField
  records_nodup : (WeightTable.subjects 'I' (c.weights.mapText c.varCount)).Nodup ∧
    (WeightTable.subjects 'C' (c.weights.mapText c.varCount)).Nodup
  countRecord : WeightTable.subjects 'N' (c.weights.mapText c.varCount) = [natField c.literalCount]
  variableRecord : WeightTable.subjects 'v' (c.weights.mapText c.varCount) = [natField n]

namespace Store

variable {s : Store W} {l : Layout} {e : Emission W} {order : List NodeId} {root : NodeId}
  {c : Circuit W}

/-- The records of a map are about all numbers that have been given. -/
theorem Compiled.subjects_mapText (h : s.Compiled order l e) (hweight : Weight.OneLine W) :
    WeightTable.subjects 'I' (e.weights.mapText s.varCount)
        = (withNegations (numbersUpTo 0 s.varCount)).map intField ∧
      WeightTable.subjects 'C' (e.weights.mapText s.varCount)
        = (withNegations (numbersUpTo s.varCount (e.next - 1))).map intField ∧
      WeightTable.subjects 'N' (e.weights.mapText s.varCount) = [natField (e.next - 1)] ∧
      WeightTable.subjects 'v' (e.weights.mapText s.varCount) = [natField s.varCount] := by
  have hsubjects : ∀ kind, _ → _ → WeightTable.subjects kind (e.weights.mapText s.varCount) = _ :=
    fun kind => WeightTable.subjects_mapText (t := e.weights) kind hweight s.varCount
  rw [h.numbered.add_length_parameters, h.numbered.parameters_eq] at hsubjects
  refine ⟨?_, ?_, ?_, ?_⟩
  · simpa using hsubjects 'I' (by decide) (by decide)
  · simpa using hsubjects 'C' (by decide) (by decide)
  · simpa using hsubjects 'N' (by decide) (by decide)
  · simpa using hsubjects 'v' (by decide) (by decide)

theorem Compiled.sameLiterals_circuitOf (h : s.Compiled order l e)
    (hweight : Weight.OneLine W) (head : Option Nat) :
    (s.circuitOf e head).SameLiterals s.varCount := by
  have hliterals : (s.circuitOf e head).literals
      = Sentential.indicators s.varCount ++ numbersUpTo s.varCount (e.next - 1) :=
    h.numbered.literals
  obtain ⟨hI, hC, hN, hv⟩ := h.subjects_mapText hweight
  constructor
  case varCount => rfl
  case opcodes => exact hliterals
  case opcodes_nodup =>
    rw [hliterals]
    exact indicators_append_nodup _ _
  case keys => exact h.numbered.keys_eq
  case file => exact hliterals ▸ (s.circuitOf e head).exists_body
  case indicatorRecords => exact hI
  case parameterRecords => exact hC
  case records_nodup => exact ⟨hI ▸ withNegations_fields_nodup _ _, hC ▸ withNegations_fields_nodup _ _⟩
  case countRecord => exact hN
  case variableRecord => exact hv

/-- A circuit that is compiled, its file and its literal map have the same literals. The map is
taken apart line by line, so weights have to be shown on one line, as doubles are
(`oneLine_float`). -/
theorem Built.sameLiterals (h : s.Built) (hweight : Weight.OneLine W)
    (hcompile : s.compile root = .ok c) : c.SameLiterals s.varCount := by
  obtain ⟨b, order, l, e, -, hcompiled, rfl⟩ := h.exists_compiled hcompile
  exact hcompiled.sameLiterals_circuitOf hweight _

theorem sameLiterals_sample : ∃ c, sample.compile ⟨8⟩ = .ok c ∧ c.SameLiterals 2 := by
  have hnone : ∀ a ∈ [⟨8⟩, ⟨7⟩, ⟨3⟩, ⟨4⟩, NodeId.bottom], sample.refusal? a = none := by decide
  have hroot : sample.Knows ⟨8⟩ := by decide
  obtain ⟨c, hc⟩ := built_sample.exists_circuit hroot fun id hid =>
    hnone id (mem_of_reaches_sample hid)
  exact ⟨c, hc, built_sample.sameLiterals Extreme.oneLine hc⟩

end Store

end Sentential
