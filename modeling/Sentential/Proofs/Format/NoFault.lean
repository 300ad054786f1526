import Sentential.Proofs.Format.Grammar

/-!
# Outcomes without a fault

A reader comes to an answer or to an error that is about the text (`NoFault`), unless an operation
that it calls faults. Fields, headers and the table of nodes never fault, so neither does a reader
of which no single record does (`noFault_readNodes`, `noFault_readText`).

The numbers of records are words, so a file cannot have more rows than there are words
(`IsFile.length_le`).
-/

namespace Sentential

open Text (Field Record)

namespace Format

/-! ## Outcomes without a fault -/

/-- The outcome is an answer or an error about the text, and not the fault of an operation. -/
def NoFault {α : Type} (x : Except FormatError α) : Prop := ∀ cause, x ≠ .error (.fault cause)

namespace NoFault

variable {α β : Type}

theorem ok (a : α) : NoFault (.ok a) := fun cause h => absurd h (by simp)

theorem defect (line : Nat) (what : Defect) : NoFault (.error (.defect line what) : Except _ α) :=
  fun cause h => absurd h (by simp)

theorem misplaced (line id : Nat) : NoFault (.error (.misplaced line id) : Except _ α) :=
  fun cause h => absurd h (by simp)

/-- Another outcome with the same error does not fault either. -/
theorem of_eq_error {x : Except FormatError α} {e : FormatError} (hx : NoFault x)
    (h : x = .error e) : NoFault (.error e : Except FormatError β) := by
  subst h
  exact fun cause he => hx cause (congrArg Except.error (Except.error.inj he))

/-- A sequence does not fault if its first step does not, nor what follows on its answer. -/
theorem bind {x : Except FormatError α} {f : α → Except FormatError β} (hx : NoFault x)
    (hf : ∀ a, x = .ok a → NoFault (f a)) : NoFault (x >>= f) := by
  cases hstep : x with
  | error e => exact hx.of_eq_error hstep
  | ok a => exact hf a hstep

/-- An operation that answers does not fault. -/
theorem liftM {x : Except Fault α} (h : ∃ a, x = .ok a) :
    NoFault (liftM x : Except FormatError α) := by
  obtain ⟨a, rfl⟩ := h
  exact ok a

end NoFault

/-! ## Fields and records -/

section

variable {α : Type}

theorem noFault_field (read? : Field → Option α) (name : FieldName) (r : Record) (i : Nat) :
    NoFault (field read? name r i) := by
  unfold field
  split
  · exact .defect _ _
  · split
    · exact .defect _ _
    · exact .ok _

theorem noFault_expectFields (count : Nat) (r : Record) : NoFault (expectFields count r) := by
  unfold expectFields
  split
  · exact .ok _
  · exact .defect _ _

theorem noFault_readHeader (tags : List Field) (text : List Char) :
    NoFault (readHeader tags text) := by
  unfold readHeader
  split
  · exact fun cause h => absurd h (by simp)
  · next r rest _ =>
    split
    · exact .defect _ _
    · refine .bind (noFault_field _ _ _ _) fun declared _ => ?_
      simp only
      split
      · exact .defect _ _
      · exact .ok _

theorem Slots.noFault_get (t : Slots α) (line id : Nat) : NoFault (t.get line id) := by
  unfold Slots.get
  split
  · exact .ok _
  · exact fun cause h => absurd h (by simp)

theorem Slots.noFault_set (t : Slots α) (line id : Nat) (a : α) : NoFault (t.set line id a) := by
  unfold Slots.set
  split
  · exact .defect _ _
  · exact .defect _ _
  · exact .ok _

theorem Slots.noFault_finish (t : Slots α) : NoFault t.finish := by
  unfold Slots.finish
  split
  · exact fun cause h => absurd h (by simp)
  · split
    · exact .ok _
    · exact fun cause h => absurd h (by simp)

/-- Every record has a first field. -/
theorem fields_ne_nil {text : List Char} {r : Record} (hr : r ∈ Text.records text) :
    r.fields ≠ [] := by
  have hrow : r.fields ∈ Text.rows text := by
    rw [← Text.map_fields_records]
    exact List.mem_map_of_mem hr
  intro hnil
  rw [hnil] at hrow
  exact absurd (List.mem_filter.1 hrow).2 (by simp [Text.isSilent])

end

/-! ## Record after record -/

section

variable {σ α : Type} {build : σ → Slots α → Record → Nat → Except FormatError α × σ}
  {p : σ → Slots α → Prop}

/-- If no record faults where the records before it lead, reading them all does not. -/
theorem noFault_readNodes (hbuild : ∀ s t r id, p s t → NoFault (build s t r id).1)
    (hp : ∀ s t r id a s' t', p s t → build s t r id = (.ok a, s') →
      t.set r.line id a = .ok t' → p s' t')
    (rs : List Record) (s : σ) (t : Slots α) (h : p s t) :
    NoFault (readNodes build rs s t).1 := by
  induction rs generalizing s t with
  | nil => exact .ok t
  | cons r rs ih =>
    cases hid : field readWord? .id r 1 with
    | error e =>
      simp only [readNodes, hid]
      exact (noFault_field readWord? .id r 1).of_eq_error hid
    | ok id =>
      rcases hb : build s t r id with ⟨e | a, s'⟩
      · simp only [readNodes, hid, hb]
        exact (hbuild s t r id h).of_eq_error (congrArg Prod.fst hb)
      · cases hset : t.set r.line id a with
        | error e =>
          simp only [readNodes, hid, hb, hset]
          exact (t.noFault_set r.line id a).of_eq_error hset
        | ok t' =>
          simp only [readNodes, hid, hb, hset]
          exact ih s' t' (hp s t r id a s' t' h hb hset)

theorem noFault_readText (hbuild : ∀ s t r id, p s t → NoFault (build s t r id).1)
    (hp : ∀ s t r id a s' t', p s t → build s t r id = (.ok a, s') →
      t.set r.line id a = .ok t' → p s' t')
    {s : σ} (hstart : ∀ n, p s (.ofCount n)) (tags : List Field) (text : List Char) :
    NoFault (readText tags build s text).1 := by
  unfold readText
  cases hread : readHeader tags text with
  | error e => exact (noFault_readHeader tags text).of_eq_error hread
  | ok header =>
    exact .bind (noFault_readNodes hbuild hp header.2 s _ (hstart header.1))
      fun t _ => t.noFault_finish

end

/-! ## Sizes -/

theorem readWord?_lt {f : Field} {i : Nat} (h : readWord? f = some i) : i < Decimal.pow2 32 := by
  unfold readWord? Decimal.readNatural? at h
  exact of_decide_eq_true (Option.filter_eq_some_iff.1 h).2

/-- A file whose rows give words as numbers has no more rows than there are words. -/
theorem IsFile.length_le {β : Type} {row : List (Nat × β) → List Field → Nat → β → Prop}
    {tags : List Field} {rows : List (List Field)} {named : List (Nat × β)}
    (h : IsFile row tags rows named)
    (hword : ∀ earlier fs i b, row earlier fs i b → i < Decimal.pow2 32) :
    named.length ≤ Decimal.pow2 32 := by
  have hperm := h.perm
  obtain ⟨tag, f, rest, -, -, -, -, hrows, -⟩ := h
  by_contra hlt
  -- the number that is too large is given by some row
  have hmem : Decimal.pow2 32 ∈ named.map Prod.fst := by
    rw [hperm.mem_iff, List.mem_range]
    exact Nat.lt_of_not_le hlt
  obtain ⟨⟨i, b⟩, hb, hi⟩ := List.mem_map.1 hmem
  obtain ⟨k, hk⟩ := List.mem_iff_getElem?.1 hb
  obtain ⟨fs, -, hrow⟩ := hrows.exists_row hk
  exact absurd (hword _ _ _ _ hrow) (by rw [show i = _ from hi]; exact Nat.lt_irrefl _)

end Format
end Sentential
