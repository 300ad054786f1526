import Sentential.Proofs.Format.Acceptance
import Sentential.Proofs.Text.Records

/-!
# Where a text is refused, and what is left then

A text is read record by record, and what its records have made is not taken back when one of them
is refused. The frame of the readers is described here without them: `makes` says what a row makes
of a state, given the numbers of the rows above it, and from it `Constructs` says what a list of
records makes, `Refuses` which record is unacceptable and what it leaves, and `StopsAt` at which
line a text is refused. `Builds.failedRead` shows that a reader whose records are built as `makes`
says refuses texts in this way, at the first unacceptable record and whatever follows it.
-/

namespace Sentential

open Format

/-! ## The line of an error -/

namespace Format

open Text

namespace FormatError

/-- The line that an error names. -/
def line? : FormatError → Option Nat
  | defect line _ => some line
  | undefined line _ => some line
  | misplaced line _ => some line
  | _ => none

/-- The errors that a record at this line can be refused with. -/
inductive About (line : Nat) : FormatError → Prop
  | defect (what : Defect) : About line (.defect line what)
  | undefined (id : Nat) : About line (.undefined line id)
  | misplaced (id : Nat) : About line (.misplaced line id)
  | fault (cause : Fault) : About line (.fault cause)

theorem About.eq_line {e : FormatError} {line L : Nat} (h : e.About line)
    (hline : e.line? = some L) : line = L := by
  cases h with
  | fault cause => exact absurd hline (by simp [line?])
  | _ => exact Option.some_inj.1 hline

end FormatError

/-- If the outcome is an error, it is about this line. -/
def Blames {α : Type} (line : Nat) (x : Except FormatError α) : Prop :=
  ∀ e, x = .error e → e.About line

namespace Blames

variable {α β : Type} {line : Nat}

theorem ok (a : α) : Blames line (.ok a) := fun _ h => absurd h (by simp)

theorem error {e : FormatError} (h : e.About line) : Blames line (.error e : Except _ α) :=
  fun _ heq => Except.error.inj heq ▸ h

theorem bind {x : Except FormatError α} {f : α → Except FormatError β} (hx : Blames line x)
    (hf : ∀ a, x = .ok a → Blames line (f a)) : Blames line (x >>= f) := by
  cases hstep : x with
  | error e =>
    intro e' h
    obtain rfl := Except.error.inj h
    exact hx e hstep
  | ok a => exact hf a hstep

theorem liftM (x : Except Fault α) : Blames line (liftM x : Except FormatError α) := by
  cases x with
  | error e => exact error (.fault e)
  | ok a => exact ok a

theorem field (read? : Field → Option α) (name : FieldName) (r : Record) (i : Nat) :
    Blames r.line (field read? name r i) := by
  unfold Format.field
  split
  · exact error (.defect _)
  · split
    · exact error (.defect _)
    · exact ok _

theorem expectFields (count : Nat) (r : Record) : Blames r.line (expectFields count r) := by
  unfold Format.expectFields
  split
  · exact ok ()
  · exact error (.defect _)

theorem get (t : Slots α) (line id : Nat) : Blames line (t.get line id) := by
  unfold Slots.get
  split
  · exact ok _
  · exact error (.undefined id)

end Blames

/-! ## The table of nodes -/

namespace Slots.Holds

variable {α : Type} {t : Slots α} {n line id : Nat} {entries : List (Nat × α)} {a : α}
  {e : FormatError} (h : t.Holds n entries)
include h

/-- A number is refused if it is not below the announced count or has been given. -/
theorem set_eq_error (hset : t.set line id a = .error e) :
    (n ≤ id ∧ e = .defect line (.idRange id n)) ∨
      (id ∈ entries.map Prod.fst ∧ e = .defect line (.duplicateId id)) := by
  unfold Slots.set at hset
  split at hset
  · next hnone =>
    have hle := Array.getElem?_eq_none_iff.1 hnone
    rw [h.size] at hle hset
    exact Or.inl ⟨hle, (Except.error.inj hset).symm⟩
  · next b hsome =>
    exact Or.inr ⟨List.mem_map_of_mem ((h.slot id b).1 hsome), (Except.error.inj hset).symm⟩
  · exact absurd hset (by simp)

theorem finish_eq_error (hfinish : t.finish = .error e) :
    (entries.length ≠ n ∧ e = .countMismatch n entries.length) ∨
      (n = 0 ∧ entries = [] ∧ e = .empty) := by
  unfold Slots.finish at hfinish
  rw [h.found, h.size, h.last] at hfinish
  split at hfinish
  · next hne => exact Or.inl ⟨hne, (Except.error.inj hfinish).symm⟩
  · next hlen =>
    split at hfinish
    · exact absurd hfinish (by simp)
    · next hnone =>
      have hnil : entries = [] := by simpa using hnone
      refine Or.inr ⟨?_, hnil, (Except.error.inj hfinish).symm⟩
      rw [hnil] at hlen
      exact (not_not.1 hlen).symm

end Slots.Holds

/-! ## Construction and refusal -/

section

variable {σ α : Type} (makes : σ → List (Nat × α) → List Field → Nat → α → σ → Prop)

/-- The records make their nodes one after the other, each with a number below `n` that none
before it has. -/
inductive Constructs (n : Nat) :
    σ → List (Nat × α) → List Record → σ → List (Nat × α) → Prop
  | nil (s : σ) (entries : List (Nat × α)) : Constructs n s entries [] s entries
  | cons {s s₁ s' : σ} {entries entries' : List (Nat × α)} {r : Record} {rs : List Record} {i : Nat}
      {a : α} : makes s entries r.fields i a s₁ → i < n → i ∉ entries.map Prod.fst →
      Constructs n s₁ (entries ++ [(i, a)]) rs s' entries' →
      Constructs n s entries (r :: rs) s' entries'

/-- The record is unacceptable behind the given ones: it makes no node, and the state is left as it
is, or its only fault is its number, and its node is there. -/
inductive Refuses (n : Nat) (s : σ) (entries : List (Nat × α)) (r : Record) :
    FormatError → σ → Prop
  | malformed {e : FormatError} : (∀ i a s', ¬ makes s entries r.fields i a s') → e.About r.line →
      Refuses n s entries r e s
  | outOfRange {i : Nat} {a : α} {s' : σ} : makes s entries r.fields i a s' → n ≤ i →
      Refuses n s entries r (.defect r.line (.idRange i n)) s'
  | duplicate {i : Nat} {a : α} {s' : σ} : makes s entries r.fields i a s' →
      i ∈ entries.map Prod.fst → Refuses n s entries r (.defect r.line (.duplicateId i)) s'

variable (tags : List Field) (s : σ) (text : List Char)

/-- The fields are a header that announces `n` nodes to a text with that many lines. -/
def IsHeader (fs : List Field) (n : Nat) : Prop :=
  ∃ tag f, fs = [tag, f] ∧ tag ∈ tags ∧ readCount? f = some n ∧ n ≤ (lines text).length

/-- The text is refused at a line: that of a first record that is no header, or that of the first
record that is unacceptable behind those before it, which have made their nodes. -/
inductive StopsAt (line : Nat) : FormatError → σ → Prop
  | header {h : Record} {rest : List Record} {e : FormatError} : records text = h :: rest →
      h.line = line → (∀ n, ¬ IsHeader tags text h.fields n) → StopsAt line e s
  | record {h r : Record} {before after : List Record} {n : Nat} {entries : List (Nat × α)}
      {s₁ s' : σ} {e : FormatError} : records text = h :: (before ++ r :: after) → r.line = line →
      IsHeader tags text h.fields n → Constructs makes n s [] before s₁ entries →
      Refuses makes n s₁ entries r e s' → StopsAt line e s'

/-- All records have made their nodes, or there are none. -/
inductive Completes : σ → Prop
  | empty : records text = [] → Completes s
  | all {h : Record} {rs : List Record} {n : Nat} {entries : List (Nat × α)} {s' : σ} :
      records text = h :: rs → IsHeader tags text h.fields n →
      Constructs makes n s [] rs s' entries → Completes s'

/-- What is known of a text that is refused with the error `e` and leaves the state `s'`. -/
structure FailedRead (read : List Char → Except FormatError α × σ) (e : FormatError) (s' : σ) :
    Prop where
  /-- An error names a line, or it is about the number of nodes; or an operation faulted. -/
  causes : (∃ line, e.line? = some line) ∨ (∃ n k, e = .countMismatch n k) ∨ e = .empty ∨
    ∃ cause, e = .fault cause
  /-- The named line is one that says something, counted from one over all lines. -/
  line : ∀ line, e.line? = some line → 1 ≤ line ∧
    ∃ l, (lines text)[line - 1]? = some l ∧ isSilent (fields l) = false
  stops : ∀ line, e.line? = some line → StopsAt makes tags s text line e s'
  completes : (∃ n k, e = .countMismatch n k) ∨ e = .empty → Completes makes tags s text s'
  /-- The lines behind the named one have no part in it, their number apart. -/
  stable : ∀ line, e.line? = some line → ∀ text', (lines text').length = (lines text).length →
    (lines text').take line = (lines text).take line → read text' = (.error e, s')

/-- A reader builds its records as `makes` says, and where it cannot it leaves the state as it
is. -/
structure Builds (build : σ → Slots α → Record → Nat → Except FormatError α × σ) : Prop where
  makes_iff : ∀ {s s' : σ} {t : Slots α} {n i : Nat} {entries : List (Nat × α)} {r : Record}
    {a : α}, t.Holds n entries → (makes s entries r.fields i a s' ↔
      field readWord? .id r 1 = .ok i ∧ build s t r i = (.ok a, s'))
  refused : ∀ {s s' : σ} {t : Slots α} {r : Record} {i : Nat} {e : FormatError},
    build s t r i = (.error e, s') → s' = s ∧ e.About r.line

end

section

variable {σ α : Type} {makes : σ → List (Nat × α) → List Field → Nat → α → σ → Prop}
  {tags : List Field} {s s' : σ} {text : List Char} {read : List Char → Except FormatError α × σ}
  {n : Nat} {entries : List (Nat × α)} {r : Record} {e : FormatError}

theorem Refuses.about (h : Refuses makes n s entries r e s') : e.About r.line := by
  cases h with
  | malformed _ habout => exact habout
  | outOfRange _ _ => exact .defect _
  | duplicate _ _ => exact .defect _

/-- A text that is refused for one of its records. -/
theorem FailedRead.of_about (habout : e.About r.line) (hmem : r ∈ records text)
    (hstops : StopsAt makes tags s text r.line e s')
    (hstable : ∀ text', (lines text').length = (lines text).length →
      (lines text').take r.line = (lines text).take r.line → read text' = (.error e, s')) :
    FailedRead makes tags s text read e s' := by
  constructor
  case causes =>
    cases habout with
    | fault cause => exact Or.inr (Or.inr (Or.inr ⟨cause, rfl⟩))
    | _ => exact Or.inl ⟨r.line, rfl⟩
  case line =>
    intro line hline
    obtain rfl := habout.eq_line hline
    obtain ⟨hpos, l, hl, -, hsays⟩ := line_of_mem_records hmem
    exact ⟨hpos, l, hl, hsays⟩
  case stops =>
    intro line hline
    obtain rfl := habout.eq_line hline
    exact hstops
  case completes =>
    rintro (⟨n, k, rfl⟩ | rfl)
    · cases habout
    · cases habout
  case stable =>
    intro line hline
    obtain rfl := habout.eq_line hline
    exact hstable

/-- A text that is refused with all of its records read. -/
theorem FailedRead.of_end (he : (∃ n k, e = .countMismatch n k) ∨ e = .empty)
    (hcompletes : Completes makes tags s text s') : FailedRead makes tags s text read e s' := by
  have hnone : ∀ line, e.line? ≠ some line := by
    rcases he with ⟨n, k, rfl⟩ | rfl
    · simp [FormatError.line?]
    · simp [FormatError.line?]
  constructor
  case causes =>
    rcases he with hcount | hempty
    · exact Or.inr (Or.inl hcount)
    · exact Or.inr (Or.inr (Or.inl hempty))
  case line => exact fun line hline => absurd hline (hnone line)
  case stops => exact fun line hline => absurd hline (hnone line)
  case completes => exact fun _ => hcompletes
  case stable => exact fun line hline => absurd hline (hnone line)

end

/-! ## Reading -/

section

variable {tags : List Field} {text text' : List Char} {e : FormatError}

/-- A header is read if it is one. -/
theorem readHeader_eq_ok_iff {n : Nat} {rs : List Record} : readHeader tags text = .ok (n, rs) ↔
    ∃ h, records text = h :: rs ∧ IsHeader tags text h.fields n := by
  rw [readHeader_eq_ok]
  constructor
  · rintro ⟨line, tag, f, hrecords, htag, hread, hle⟩
    exact ⟨_, hrecords, tag, f, rfl, htag, hread, hle⟩
  · rintro ⟨⟨line, fs⟩, hrecords, tag, f, rfl, htag, hread, hle⟩
    exact ⟨line, tag, f, hrecords, htag, hread, hle⟩

theorem readHeader_blames {h : Record} {rest : List Record} (hrecords : records text = h :: rest) :
    Blames h.line (readHeader tags text) := by
  unfold readHeader
  rw [hrecords]
  simp only
  split
  · exact .error (.defect _)
  · refine .bind (.field _ _ _ _) fun declared _ => ?_
    split
    · exact .error (.defect _)
    · exact .ok _

/-- Whether a header is refused depends on it and on the number of lines. -/
theorem readHeader_eq_error {h : Record} {rest rest' : List Record}
    (hrecords : records text = h :: rest) (hrecords' : records text' = h :: rest')
    (hlines : (lines text').length = (lines text).length)
    (herror : readHeader tags text = .error e) : readHeader tags text' = .error e := by
  unfold readHeader at herror ⊢
  rw [hrecords] at herror
  rw [hrecords', hlines]
  simp only at herror ⊢
  split at herror
  · next hform =>
    rw [if_pos hform]
    exact herror
  · next hform =>
    rw [if_neg hform]
    cases hdeclared : field readCount? .nodeCount h 1 with
    | error e' =>
      rw [hdeclared] at herror
      exact congrArg Except.error (Except.error.inj herror)
    | ok declared =>
      rw [hdeclared, ok_bind] at herror
      simp only [ok_bind] at herror ⊢
      split at herror
      · next hlt =>
        rw [if_pos hlt]
        exact congrArg Except.error (Except.error.inj herror)
      · exact absurd herror (by simp)

end

namespace Builds

variable {σ α : Type} {makes : σ → List (Nat × α) → List Field → Nat → α → σ → Prop}
  {build : σ → Slots α → Record → Nat → Except FormatError α × σ} (hbuilds : Builds makes build)
  {s s' : σ} {t t' : Slots α} {n : Nat} {entries : List (Nat × α)} {rs : List Record}
  {tags : List Field} {text : List Char} {e : FormatError}
include hbuilds

/-- Records that are read have made their nodes. -/
theorem constructs (ht : t.Holds n entries) (h : readNodes build rs s t = (.ok t', s')) :
    ∃ entries', Constructs makes n s entries rs s' entries' ∧ t'.Holds n entries' := by
  induction rs generalizing s t entries with
  | nil =>
    obtain ⟨ht', rfl⟩ := Prod.mk.inj h
    obtain rfl := Except.ok.inj ht'
    exact ⟨entries, .nil s entries, ht⟩
  | cons r rs ih =>
    obtain ⟨i, a, s₁, t₁, hid, hbuild, hset, hrest⟩ := readNodes_cons_eq_ok.1 h
    obtain ⟨entries', hconstructs, ht'⟩ := ih (ht.set hset) hrest
    obtain ⟨hlt, hnew⟩ := ht.free_iff.1 (Slots.set_eq_ok.1 hset).1
    exact ⟨entries', .cons ((hbuilds.makes_iff ht).2 ⟨hid, hbuild⟩) hlt hnew hconstructs, ht'⟩

/-- A record is refused, or its node is made and reading goes on behind it. -/
theorem refuses_or_reads (ht : t.Holds n entries) {r : Record}
    (h : readNodes build (r :: rs) s t = (.error e, s')) :
    (Refuses makes n s entries r e s' ∧
      ∀ after, readNodes build (r :: after) s t = (.error e, s')) ∨
    ∃ i a s₁ t₁, makes s entries r.fields i a s₁ ∧ t.set r.line i a = .ok t₁ ∧
      ∀ after, readNodes build (r :: after) s t = readNodes build after s₁ t₁ := by
  rw [readNodes] at h
  cases hid : field readWord? .id r 1 with
  | error e' =>
    simp only [hid] at h
    obtain ⟨he, rfl⟩ := Prod.mk.inj h
    obtain rfl := Except.error.inj he
    refine Or.inl ⟨.malformed (fun i a s₂ hmakes => ?_) (Blames.field _ _ _ _ _ hid),
      fun after => by simp [readNodes, hid]⟩
    exact absurd (hid.symm.trans ((hbuilds.makes_iff ht).1 hmakes).1) (by simp)
  | ok i =>
    rcases hbuild : build s t r i with ⟨e' | a, s₁⟩
    · simp only [hid, hbuild] at h
      obtain ⟨he, rfl⟩ := Prod.mk.inj h
      obtain rfl := Except.error.inj he
      obtain ⟨rfl, habout⟩ := hbuilds.refused hbuild
      refine Or.inl ⟨.malformed (fun j a s₂ hmakes => ?_) habout,
        fun after => by simp [readNodes, hid, hbuild]⟩
      obtain ⟨hid', hbuild'⟩ := (hbuilds.makes_iff ht).1 hmakes
      obtain rfl := Except.ok.inj (hid.symm.trans hid')
      exact absurd (hbuild.symm.trans hbuild') (by simp)
    · have hmakes := (hbuilds.makes_iff ht).2 ⟨hid, hbuild⟩
      cases hset : t.set r.line i a with
      | error e' =>
        simp only [hid, hbuild, hset] at h
        obtain ⟨he, rfl⟩ := Prod.mk.inj h
        obtain rfl := Except.error.inj he
        refine Or.inl ⟨?_, fun after => by simp [readNodes, hid, hbuild, hset]⟩
        rcases ht.set_eq_error hset with ⟨hle, rfl⟩ | ⟨hmem, rfl⟩
        · exact .outOfRange hmakes hle
        · exact .duplicate hmakes hmem
      | ok t₁ =>
        exact Or.inr ⟨i, a, s₁, t₁, hmakes, hset, fun after => by simp [readNodes, hid, hbuild, hset]⟩

/-- Reading stops at the first unacceptable record, whatever follows it. -/
theorem refuses (ht : t.Holds n entries) (h : readNodes build rs s t = (.error e, s')) :
    ∃ before r after s₁ entries₁, rs = before ++ r :: after ∧
      Constructs makes n s entries before s₁ entries₁ ∧ Refuses makes n s₁ entries₁ r e s' ∧
      ∀ after', readNodes build (before ++ r :: after') s t = (.error e, s') := by
  induction rs generalizing s t entries with
  | nil => exact absurd h (by simp [readNodes])
  | cons r rs ih =>
    rcases hbuilds.refuses_or_reads ht h with ⟨hrefuses, hstable⟩ | ⟨i, a, s₁, t₁, hmakes, hset, hreads⟩
    · exact ⟨[], r, rs, s, entries, rfl, .nil s entries, hrefuses, hstable⟩
    · obtain ⟨hlt, hnew⟩ := ht.free_iff.1 (Slots.set_eq_ok.1 hset).1
      rw [hreads] at h
      obtain ⟨before, r', after, s₂, entries₂, rfl, hconstructs, hrefuses, hstable⟩ :=
        ih (ht.set hset) h
      exact ⟨r :: before, r', after, s₂, entries₂, rfl, .cons hmakes hlt hnew hconstructs, hrefuses,
        fun after' => (hreads _).trans (hstable after')⟩

omit hbuilds in
/-- A text without an acceptable header is refused at its first record. -/
theorem failedRead_header (hheader : readHeader tags text = .error e) :
    FailedRead makes tags s text (readText tags build s) e s := by
  cases hrecords : records text with
  | nil =>
    unfold readHeader at hheader
    rw [hrecords] at hheader
    exact .of_end (Or.inr (Except.error.inj hheader).symm) (.empty hrecords)
  | cons r rest =>
    have hno : ∀ n, ¬ IsHeader tags text r.fields n := fun n hn =>
      absurd (hheader.symm.trans (readHeader_eq_ok_iff.2 ⟨r, hrecords, hn⟩)) (by simp)
    refine .of_about (readHeader_blames hrecords _ hheader) (by simp [hrecords])
      (.header hrecords rfl hno) fun text' hlines hsame => ?_
    obtain ⟨rest', hrecords'⟩ := exists_records_of_take [] hrecords hsame
    unfold readText
    rw [readHeader_eq_error hrecords hrecords' hlines hheader]

/-- A text that is refused is refused at the first unacceptable record or, with all of its records
read, for their number. -/
theorem failedRead (h : readText tags build s text = (.error e, s')) :
    FailedRead makes tags s text (readText tags build s) e s' := by
  unfold readText at h
  cases hheader : readHeader tags text with
  | error e' =>
    simp only [hheader] at h
    obtain ⟨he, rfl⟩ := Prod.mk.inj h
    obtain rfl := Except.error.inj he
    exact failedRead_header hheader
  | ok header =>
    obtain ⟨n, rs⟩ := header
    obtain ⟨r₀, hrecords, hr₀⟩ := readHeader_eq_ok_iff.1 hheader
    simp only [hheader] at h
    rcases hnodes : readNodes build rs s (.ofCount n) with ⟨e' | t, s₁⟩
    · simp only [hnodes, error_bind] at h
      obtain ⟨he, rfl⟩ := Prod.mk.inj h
      obtain rfl := Except.error.inj he
      obtain ⟨before, r, after, s₂, entries, rfl, hconstructs, hrefuses, hstable⟩ :=
        hbuilds.refuses (Slots.holds_ofCount n) hnodes
      refine .of_about hrefuses.about (by simp [hrecords])
        (.record hrecords rfl hr₀ hconstructs hrefuses) fun text' hlines hsame => ?_
      obtain ⟨after', hrecords'⟩ := exists_records_of_take (r₀ :: before) hrecords hsame
      have hheader' : readHeader tags text' = .ok (n, before ++ r :: after') := by
        obtain ⟨tag, f, hfields, htag, hread, hle⟩ := hr₀
        exact readHeader_eq_ok_iff.2 ⟨r₀, hrecords', tag, f, hfields, htag, hread, hlines ▸ hle⟩
      unfold readText
      simp only [hheader', hstable after', error_bind]
    · simp only [hnodes, ok_bind] at h
      obtain ⟨hfinish, rfl⟩ := Prod.mk.inj h
      obtain ⟨entries, hconstructs, ht⟩ := hbuilds.constructs (Slots.holds_ofCount n) hnodes
      refine .of_end ?_ (.all hrecords hr₀ hconstructs)
      rcases ht.finish_eq_error hfinish with ⟨-, he⟩ | ⟨-, -, he⟩
      · exact Or.inl ⟨n, entries.length, he⟩
      · exact Or.inr he

end Builds
end Format
end Sentential
