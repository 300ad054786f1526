import Sentential.Proofs.Text.Rendered

/-!
# Records and their lines

Which line of a text a record is made of, what the first records say of the first lines, and how the
fields of the records are replaced with all of them left on their lines (`rewrittenFrom`).
-/

namespace Sentential

namespace Text

/-! ## Records of the first lines -/

theorem recordsFrom_append (line : Nat) (ls ls' : List (List Char)) :
    recordsFrom line (ls ++ ls') = recordsFrom line ls ++ recordsFrom (line + ls.length) ls' := by
  induction ls generalizing line with
  | nil => rfl
  | cons l ls ih =>
    rw [List.cons_append, recordsFrom, recordsFrom, ih (line + 1), List.length_cons,
      show line + (ls.length + 1) = line + 1 + ls.length by omega]
    cases isSilent (fields l) <;> rfl

/-- A record is made of the line that it names, counted from the first one. -/
theorem line_of_mem_recordsFrom {line : Nat} {ls : List (List Char)} {r : Record}
    (h : r ∈ recordsFrom line ls) : line ≤ r.line ∧
      ∃ l, ls[r.line - line]? = some l ∧ r.fields = fields l ∧ isSilent (fields l) = false := by
  induction ls generalizing line with
  | nil => exact absurd h (by simp [recordsFrom])
  | cons l ls ih =>
    have hrest : r ∈ recordsFrom (line + 1) ls → line ≤ r.line ∧
        ∃ l', (l :: ls)[r.line - line]? = some l' ∧ r.fields = fields l' ∧
          isSilent (fields l') = false := by
      intro hr
      obtain ⟨hle, l', hl', hfields⟩ := ih hr
      refine ⟨Nat.le_of_succ_le hle, l', ?_, hfields⟩
      rw [show r.line - line = r.line - (line + 1) + 1 by omega, List.getElem?_cons_succ]
      exact hl'
    rw [recordsFrom] at h
    cases hsilent : isSilent (fields l) with
    | true =>
      simp only [hsilent, if_true] at h
      exact hrest h
    | false =>
      simp only [hsilent, Bool.false_eq_true, if_false] at h
      rcases List.mem_cons.1 h with rfl | hr
      · exact ⟨Nat.le_refl _, l, by simp, rfl, hsilent⟩
      · exact hrest hr

theorem line_of_mem_records {text : List Char} {r : Record} (h : r ∈ records text) :
    1 ≤ r.line ∧
      ∃ l, (lines text)[r.line - 1]? = some l ∧ r.fields = fields l ∧ isSilent (fields l) = false :=
  line_of_mem_recordsFrom h

/-- The records up to one of them are those of the lines up to its line. -/
theorem recordsFrom_take {line : Nat} {ls : List (List Char)} {before after : List Record}
    {r : Record} (h : recordsFrom line ls = before ++ r :: after) :
    recordsFrom line (ls.take (r.line + 1 - line)) = before ++ [r] := by
  induction ls generalizing line before with
  | nil => exact absurd h (by simp [recordsFrom])
  | cons l ls ih =>
    rw [recordsFrom] at h
    -- behind the first line the line of `r` is counted from the next number on
    have hstep : ∀ {before'}, recordsFrom (line + 1) ls = before' ++ r :: after →
        (l :: ls).take (r.line + 1 - line) = l :: ls.take (r.line + 1 - (line + 1)) := by
      intro before' hrest
      have hmem : r ∈ recordsFrom (line + 1) ls := by simp [hrest]
      have hle := (line_of_mem_recordsFrom hmem).1
      rw [show r.line + 1 - line = r.line + 1 - (line + 1) + 1 by omega, List.take_succ_cons]
    cases hsilent : isSilent (fields l) with
    | true =>
      simp only [hsilent, if_true] at h
      rw [hstep h, recordsFrom]
      simp only [hsilent, if_true]
      exact ih h
    | false =>
      simp only [hsilent, Bool.false_eq_true, if_false] at h
      cases before with
      | nil =>
        obtain ⟨rfl, -⟩ := List.cons.inj h
        simp [recordsFrom, hsilent]
      | cons a before =>
        obtain ⟨rfl, hrest⟩ := List.cons.inj h
        rw [hstep hrest, recordsFrom]
        simp only [hsilent, Bool.false_eq_true, if_false]
        rw [ih hrest]
        rfl

/-- Texts with the same lines up to one record have the same records up to it. -/
theorem exists_records_of_take {text text' : List Char} (before : List Record)
    {after : List Record} {r : Record} (h : records text = before ++ r :: after)
    (hsame : (lines text').take r.line = (lines text).take r.line) :
    ∃ after', records text' = before ++ r :: after' := by
  have htake : recordsFrom 1 ((lines text').take r.line) = before ++ [r] := by
    rw [hsame]
    exact recordsFrom_take h
  refine ⟨recordsFrom (1 + ((lines text').take r.line).length) ((lines text').drop r.line), ?_⟩
  unfold records
  rw [← List.take_append_drop r.line (lines text'), recordsFrom_append, htake]
  simp

/-! ## Other fields on the same lines -/

theorem isBlank_of_mem_splitOnP {l f : List Char} (h : f ∈ l.splitOnP isBlank) :
    ∀ c ∈ f, isBlank c = false := by
  induction l generalizing f with
  | nil => simp_all
  | cons c l ih =>
    rw [List.splitOnP_cons_eq_if_modifyHead] at h
    split at h
    · rcases List.mem_cons.1 h with rfl | h
      · simp
      · exact ih h
    · next hc =>
      cases hsplit : l.splitOnP isBlank with
      | nil => exact absurd hsplit (List.splitOnP_ne_nil _ _)
      | cons g gs =>
        rw [hsplit] at h ih
        rcases List.mem_cons.1 h with rfl | h
        · intro d hd
          rcases List.mem_cons.1 hd with rfl | hd
          · simpa using hc
          · exact ih List.mem_cons_self d hd
        · exact ih (List.mem_cons_of_mem _ h)

theorem isField_of_mem_fields {l : List Char} {f : Field} (h : f ∈ fields l) : IsField f := by
  obtain ⟨hmem, hne⟩ := List.mem_filter.1 h
  exact ⟨by simpa using hne, isBlank_of_mem_splitOnP hmem⟩

theorem isRow_of_mem_records {text : List Char} {r : Record} (h : r ∈ records text) :
    IsRow r.fields := by
  obtain ⟨-, l, -, hfields, hsays⟩ := line_of_mem_records h
  rw [hfields]
  exact ⟨fun f hf => isField_of_mem_fields hf, hsays⟩

/-- The lines with other fields on those that say something. -/
def rewrittenFrom (g : Record → List Field) (line : Nat) : List (List Char) → List (List Char)
  | [] => []
  | l :: ls =>
    let rest := rewrittenFrom g (line + 1) ls
    if isSilent (fields l) then ['c'] :: rest else renderFields (g ⟨line, fields l⟩) :: rest

theorem length_rewrittenFrom (g : Record → List Field) (line : Nat) (ls : List (List Char)) :
    (rewrittenFrom g line ls).length = ls.length := by
  induction ls generalizing line with
  | nil => rfl
  | cons l ls ih =>
    rw [rewrittenFrom]
    split <;> simp [ih]

theorem rewrittenFrom_spec {g : Record → List Field} {line : Nat} {ls : List (List Char)}
    (h : ∀ r ∈ recordsFrom line ls, IsRow (g r)) :
    (∀ l ∈ rewrittenFrom g line ls, '\n' ∉ l) ∧
      recordsFrom line (rewrittenFrom g line ls)
        = (recordsFrom line ls).map fun r => ⟨r.line, g r⟩ := by
  induction ls generalizing line with
  | nil => simp [rewrittenFrom, recordsFrom]
  | cons l ls ih =>
    rw [recordsFrom] at h
    rw [rewrittenFrom, recordsFrom.eq_def line (l :: ls)]
    cases hsilent : isSilent (fields l) with
    | true =>
      simp only [hsilent, if_true] at h ⊢
      obtain ⟨hlines, hrecords⟩ := ih h
      refine ⟨fun l' hl' => ?_, ?_⟩
      · rcases List.mem_cons.1 hl' with rfl | hl'
        · decide
        · exact hlines l' hl'
      · rw [recordsFrom, isSilent_fields, if_pos rfl]
        exact hrecords
    | false =>
      simp only [hsilent, Bool.false_eq_true, if_false] at h ⊢
      obtain ⟨hlines, hrecords⟩ := ih fun r hr => h r (List.mem_cons_of_mem _ hr)
      have hrow := h ⟨line, fields l⟩ List.mem_cons_self
      refine ⟨fun l' hl' => ?_, ?_⟩
      · rcases List.mem_cons.1 hl' with rfl | hl'
        · exact notMem_renderFields hrow.1
        · exact hlines l' hl'
      · rw [recordsFrom, fields_renderFields hrow.1, hrow.2, hrecords]
        rfl

/-- Records stand on different lines. -/
theorem pairwise_recordsFrom (line : Nat) (ls : List (List Char)) :
    (recordsFrom line ls).Pairwise fun r r' => r.line < r'.line := by
  induction ls generalizing line with
  | nil => exact .nil
  | cons l ls ih =>
    rw [recordsFrom]
    split
    · exact ih (line + 1)
    · exact .cons (fun r hr => (line_of_mem_recordsFrom hr).1) (ih (line + 1))

end Text
end Sentential
