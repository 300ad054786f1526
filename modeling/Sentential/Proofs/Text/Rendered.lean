import Mathlib.Data.List.Basic
import Sentential.Format.Reader

/-!
# Reading what was written

`Text.render` and `Text.renderFields` put lines and fields together, `Text.lines` and
`Text.fields` take them apart again. So the records of a written text are the lines of fields that
it was written from, behind the comment lines that were put in front.
-/

namespace Sentential

namespace Text

/-! ## Lines -/

/-- The lines of a rendered text are the lines that were rendered. -/
theorem lines_render {ls : List (List Char)} (h : ∀ l ∈ ls, '\n' ∉ l) : lines (render ls) = ls := by
  have hsplit : (render ls).splitOn '\n' = ls ++ [[]] := by
    induction ls with
    | nil => rfl
    | cons l ls ih =>
      have hrender : render (l :: ls) = l ++ '\n' :: render ls := by
        simp [render]
      rw [hrender, List.splitOn_append_cons_self_of_not_mem (h l List.mem_cons_self),
        ih fun x hx => h x (List.mem_cons_of_mem _ hx), List.cons_append]
  unfold lines
  simp only [hsplit]
  rw [if_pos (by simp), List.dropLast_concat]

/-! ## Fields -/

/-- The characters can make a field: there are some, and none is blank. -/
def IsField (f : Field) : Prop := f ≠ [] ∧ ∀ c ∈ f, isBlank c = false

/-- The characters of the field are asked one by one, not all characters that there are. -/
instance (f : Field) : Decidable (IsField f) :=
  decidable_of_iff (f ≠ [] ∧ f.all (fun c => !isBlank c) = true) (by simp [IsField])

theorem fields_renderFields {fs : List Field} (h : ∀ f ∈ fs, IsField f) :
    fields (renderFields fs) = fs := by
  -- runs of blanks leave empty fields, which are dropped, but here no field is empty
  have hkeep : ∀ gs : List Field, (∀ f ∈ gs, IsField f) → gs.filter (!·.isEmpty) = gs := by
    intro gs hgs
    rw [List.filter_eq_self]
    intro f hf
    have hne := (hgs f hf).1
    cases f with
    | nil => exact absurd rfl hne
    | cons c cs => rfl
  unfold fields renderFields
  induction fs with
  | nil => rfl
  | cons f fs ih =>
    have hf := h f List.mem_cons_self
    have hfs : ∀ g ∈ fs, IsField g := fun g hg => h g (List.mem_cons_of_mem _ hg)
    cases fs with
    | nil =>
      rw [show [' '].intercalate [f] = f by simp [List.intercalate]]
      rw [List.splitOnP_eq_singleton hf.2]
      exact hkeep [f] h
    | cons g gs =>
      rw [show [' '].intercalate (f :: g :: gs) = f ++ ' ' :: [' '].intercalate (g :: gs) by
        simp [List.intercalate, List.intersperse]]
      rw [List.splitOnP_append_cons_of_forall_mem hf.2 ' ' rfl, List.filter_cons, ih hfs]
      have hne := hf.1
      cases f with
      | nil => exact absurd rfl hne
      | cons c cs => rfl

theorem notMem_renderFields {fs : List Field} (h : ∀ f ∈ fs, IsField f) :
    '\n' ∉ renderFields fs := by
  unfold renderFields
  induction fs with
  | nil => exact List.not_mem_nil
  | cons f fs ih =>
    have hf : '\n' ∉ f := fun hmem => absurd ((h f List.mem_cons_self).2 _ hmem) (by decide)
    have hfs := ih fun g hg => h g (List.mem_cons_of_mem _ hg)
    cases fs with
    | nil => simpa [List.intercalate] using hf
    | cons g gs =>
      rw [show [' '].intercalate (f :: g :: gs) = f ++ ' ' :: [' '].intercalate (g :: gs) by
        simp [List.intercalate, List.intersperse]]
      simp only [List.mem_append, List.mem_cons, not_or]
      exact ⟨hf, by decide, hfs⟩

/-- A line that begins with the letter `c` says nothing. -/
theorem isSilent_fields (cs : List Char) : isSilent (fields ('c' :: cs)) = true := by
  unfold fields
  rw [List.splitOnP_cons_eq_if_modifyHead, if_neg (by decide)]
  cases hsplit : cs.splitOnP isBlank with
  | nil => exact absurd hsplit (List.splitOnP_ne_nil _ _)
  | cons f fs => rfl

/-! ## Records -/

/-- The records of lines of fields, none of which begins with the letter `c`. -/
def numbered (line : Nat) : List (List Field) → List Record
  | [] => []
  | fs :: rest => ⟨line, fs⟩ :: numbered (line + 1) rest

theorem length_numbered (line : Nat) (rows : List (List Field)) :
    (numbered line rows).length = rows.length := by
  induction rows generalizing line with
  | nil => rfl
  | cons fs rows ih => exact congrArg (· + 1) (ih (line + 1))

theorem getElem?_numbered (line : Nat) (rows : List (List Field)) (i : Nat) :
    (numbered line rows)[i]? = rows[i]?.map fun fs => ⟨line + i, fs⟩ := by
  induction rows generalizing line i with
  | nil => rfl
  | cons fs rows ih =>
    cases i with
    | zero => rfl
    | succ i =>
      show (numbered (line + 1) rows)[i]? = rows[i]?.map _
      rw [ih, show line + 1 + i = line + (i + 1) by omega]

/-- The rows of a text: every field can be one, and no row is passed over. -/
def IsRow (fs : List Field) : Prop := (∀ f ∈ fs, IsField f) ∧ isSilent fs = false

theorem recordsFrom_rows {rows : List (List Field)} (h : ∀ fs ∈ rows, IsRow fs) (line : Nat) :
    recordsFrom line (rows.map renderFields) = numbered line rows := by
  induction rows generalizing line with
  | nil => rfl
  | cons fs rows ih =>
    have hfs := h fs List.mem_cons_self
    rw [List.map_cons, recordsFrom, fields_renderFields hfs.1, hfs.2,
      ih fun x hx => h x (List.mem_cons_of_mem _ hx)]
    rfl

theorem recordsFrom_comments {comments : List (List Char)} (h : ∀ l ∈ comments, l.head? = some 'c')
    (rest : List (List Char)) (line : Nat) :
    recordsFrom line (comments ++ rest) = recordsFrom (line + comments.length) rest := by
  induction comments generalizing line with
  | nil => rfl
  | cons l comments ih =>
    have hl := h l List.mem_cons_self
    cases l with
    | nil => exact absurd hl (by simp)
    | cons c cs =>
      obtain rfl : c = 'c' := Option.some_inj.1 hl
      rw [List.cons_append, recordsFrom, isSilent_fields, if_pos rfl,
        ih fun x hx => h x (List.mem_cons_of_mem _ hx),
        List.length_cons, Nat.add_right_comm, Nat.add_assoc]

/-- The file with these comments and these rows. -/
def fileOf (comments : List (List Char)) (rows : List (List Field)) : List Char :=
  render (comments ++ rows.map renderFields)

/-- The records of a written file are its rows. -/
theorem records_fileOf {comments : List (List Char)} {rows : List (List Field)}
    (hcomments : ∀ l ∈ comments, l.head? = some 'c' ∧ '\n' ∉ l) (hrows : ∀ fs ∈ rows, IsRow fs) :
    lines (fileOf comments rows) = comments ++ rows.map renderFields ∧
      records (fileOf comments rows) = numbered (1 + comments.length) rows := by
  have hlines : lines (fileOf comments rows) = comments ++ rows.map renderFields := by
    apply lines_render
    intro l hl
    rcases List.mem_append.1 hl with hl | hl
    · exact (hcomments l hl).2
    · obtain ⟨fs, hfs, rfl⟩ := List.mem_map.1 hl
      exact notMem_renderFields (hrows fs hfs).1
  refine ⟨hlines, ?_⟩
  unfold records
  rw [hlines, recordsFrom_comments fun l hl => (hcomments l hl).1, recordsFrom_rows hrows]

/-! ## Fields of numbers -/

theorem isField_digits (n : Nat) : IsField (Decimal.digits n) := by
  refine ⟨Nat.toDigits_ne_nil, fun c hc => ?_⟩
  -- digits are far from the code points of blanks
  have hdigit := Char.isDigit_iff_toNat.1 (Nat.isDigit_of_mem_toDigits (by decide) (by decide) hc)
  rw [show '0'.toNat = 48 from rfl, show '9'.toNat = 57 from rfl] at hdigit
  unfold isBlank
  simp only [Bool.or_eq_false_iff, Bool.and_eq_false_iff, decide_eq_false_iff_not, beq_eq_false_iff_ne]
  omega

@[simp] theorem isField_natField (n : Nat) : IsField (natField n) := isField_digits n

@[simp] theorem isField_intField (i : Int) : IsField (intField i) := by
  have h := isField_digits i.natAbs
  unfold intField
  split
  · refine ⟨List.cons_ne_nil _ _, fun c hc => ?_⟩
    rcases List.mem_cons.1 hc with rfl | hc
    · rfl
    · exact h.2 c hc
  · exact h

end Text

/-! ## Reading numbers -/

namespace Decimal

theorem readDigits?_digits (n : Nat) : readDigits? (digits n) = some n := by
  unfold readDigits?
  have hne : (digits n).isEmpty = false := by
    rw [List.isEmpty_eq_false_iff]
    exact Nat.toDigits_ne_nil
  have hall : (digits n).all Char.isDigit = true := by
    rw [List.all_eq_true]
    exact fun c hc => Nat.isDigit_of_mem_toDigits (by decide) (by decide) hc
  rw [hne, hall]
  exact congrArg some Nat.ofDigitChars_ten_toDigits

/-- The digits of a number begin with no sign. -/
theorem exists_digits_cons (n : Nat) : ∃ c cs, digits n = c :: cs ∧ c ≠ '+' ∧ c ≠ '-' := by
  cases h : digits n with
  | nil => exact absurd h Nat.toDigits_ne_nil
  | cons c cs =>
    have hc : c ∈ digits n := by
      rw [h]
      exact List.mem_cons_self
    have hdigit : c.isDigit = true := Nat.isDigit_of_mem_toDigits (by decide) (by decide) hc
    refine ⟨c, cs, rfl, ?_, ?_⟩
    · intro heq
      subst heq
      exact absurd hdigit (by decide)
    · intro heq
      subst heq
      exact absurd hdigit (by decide)

theorem readNatural?_digits {limit n : Nat} (h : n < limit) :
    readNatural? limit (digits n) = some n := by
  have hread := readDigits?_digits n
  obtain ⟨c, cs, hcs, hplus, -⟩ := exists_digits_cons n
  rw [hcs] at hread ⊢
  unfold readNatural?
  split
  · next ds heq => exact absurd (List.cons.inj heq).1 hplus
  · rw [hread, Option.filter_some, if_pos (by simpa using h)]

theorem readInteger?_intField {i : Int} (hlow : -(pow2 31 : Int) ≤ i) (hhigh : i < pow2 31) :
    readInteger? (Text.intField i) = some i := by
  have hread := readDigits?_digits i.natAbs
  have hrange : ((-(pow2 31 : Int) ≤ i && i < pow2 31 : Bool)) = true := by simp [hlow, hhigh]
  unfold readInteger? Text.intField
  by_cases hneg : i < 0
  · have hsplit : splitSign ('-' :: digits i.natAbs) = (true, digits i.natAbs) := rfl
    have hvalue : -(i.natAbs : Int) = i := by omega
    rw [if_pos hneg, hsplit]
    simp only [hread, Option.bind_eq_bind, Option.bind_some, Option.pure_def, Option.map_some, if_true]
    rw [hvalue, Option.filter_some, if_pos hrange]
  · obtain ⟨c, cs, hcs, hplus, hminus⟩ := exists_digits_cons i.natAbs
    have hsplit : splitSign (digits i.natAbs) = (false, digits i.natAbs) := by
      rw [hcs]
      unfold splitSign
      split
      · next heq => exact absurd (List.cons.inj heq).1 hminus
      · next heq => exact absurd (List.cons.inj heq).1 hplus
      · rfl
    have hvalue : (i.natAbs : Int) = i := by omega
    rw [if_neg hneg, hsplit]
    simp only [hread, Option.bind_eq_bind, Option.bind_some, Option.pure_def, Option.map_some,
      Bool.false_eq_true, if_false]
    rw [hvalue, Option.filter_some, if_pos hrange]

end Decimal

namespace Format

open Text

theorem readWord?_natField {n : Nat} (h : n < Decimal.pow2 32) : readWord? (natField n) = some n :=
  Decimal.readNatural?_digits h

theorem readCount?_natField {n : Nat} (h : n < Decimal.pow2 64) : readCount? (natField n) = some n :=
  Decimal.readNatural?_digits h

theorem field_eq_ok {α : Type} {read? : Field → Option α} {name : FieldName} {r : Record} {i : Nat}
    {a : α} : field read? name r i = .ok a ↔ ∃ raw, r.fields[i]? = some raw ∧ read? raw = some a := by
  unfold field
  cases hraw : r.fields[i]? with
  | none => simp
  | some raw =>
    cases ha : read? raw with
    | none => simp [ha]
    | some a => simp [ha]

theorem expectFields_eq_ok {count : Nat} {r : Record} :
    expectFields count r = .ok () ↔ r.fields.length = count := by
  unfold expectFields
  split <;> simp_all

end Format
end Sentential
