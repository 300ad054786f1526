import Mathlib.Logic.Equiv.Defs
import Sentential.Proofs.Format.Refusal
import Sentential.Proofs.Format.Totality

/-!
# Renumbered texts

The number that a record gives to its node serves later records of the text to refer to it.
`RenumberedText` says of two texts that they differ in these numbers only, and `readText_renumbered`
that a reader whose records are built alike under both numberings makes the same state of both
texts, with the same node or with the error about the renumbered nodes. Every text has a renumbered
one for every permutation of words (`exists_renumberedText`).
-/

namespace Sentential

open Format Text

namespace Format

/-! ## Errors -/

def Defect.renumbered (π : Nat → Nat) : Defect → Defect
  | idRange id declared => idRange (π id) declared
  | duplicateId id => duplicateId (π id)
  | what => what

/-- The error about the renumbered nodes. -/
def FormatError.renumbered (π : Nat → Nat) : FormatError → FormatError
  | defect line what => defect line (what.renumbered π)
  | undefined line id => undefined line (π id)
  | misplaced line id => misplaced line (π id)
  | e => e

/-- It is about the same line. -/
theorem FormatError.line?_renumbered (π : Nat → Nat) (e : FormatError) :
    (e.renumbered π).line? = e.line? := by
  cases e <;> rfl

/-! ## Texts -/

/-- The places of numbers of nodes in a record: that of its own number, and in a decision, whose
elements take `width` fields each behind the first four, those of its primes and subs. -/
def IsIdPlace (width : Nat) (r : Record) (j : Nat) : Prop :=
  j = 1 ∨ (tag r = ['D'] ∧ 4 ≤ j ∧ (j - 4) % width < 2)

instance (width : Nat) (r : Record) (j : Nat) : Decidable (IsIdPlace width r j) :=
  inferInstanceAs (Decidable (_ ∨ _))

/-- The one field is the number of the other one's renumbered node. A field that is no number is
left alone. -/
structure RenumberedField (π : Nat → Nat) (f f' : Field) : Prop where
  number : readWord? f' = (readWord? f).map π
  kept : readWord? f = none → f' = f

structure RenumberedRecord (π : Nat → Nat) (width : Nat) (r r' : Record) : Prop where
  line : r'.line = r.line
  length : r'.fields.length = r.fields.length
  numbers : ∀ j f f', IsIdPlace width r j → r.fields[j]? = some f → r'.fields[j]? = some f' →
    RenumberedField π f f'
  others : ∀ j, ¬ IsIdPlace width r j → r'.fields[j]? = r.fields[j]?

/-- The texts have the same header, and their other records, on the same lines, differ in the
numbers of nodes only. -/
structure RenumberedText (π : Nat → Nat) (width : Nat) (text text' : List Char) : Prop where
  lines : (lines text').length = (lines text).length
  header : (records text').head? = (records text).head?
  rows : List.Forall₂ (RenumberedRecord π width) (records text).tail (records text').tail

/-- The permutation concerns announced numbers only, and the texts differ by it. -/
structure Renumbers (tags : List Field) (width : Nat) (π : Equiv.Perm Nat)
    (text text' : List Char) : Prop where
  announced : ∀ n rs, readHeader tags text = .ok (n, rs) → ∀ i, n ≤ i → π i = i
  texts : RenumberedText π width text text'

/-! ## Outcomes -/

section

variable {π : Nat → Nat} {α β : Type} {x x' : Except FormatError α}
  {f f' : α → Except FormatError β}

/-- What is done with outcomes that agree up to the numbers, and agrees itself, agrees. -/
theorem bind_renumbered (hx : x' = x.mapError (.renumbered π))
    (hf : ∀ a, f' a = (f a).mapError (.renumbered π)) :
    (x' >>= f') = (x >>= f).mapError (.renumbered π) := by
  rw [mapError_bind, hx]
  exact congrArg _ (funext hf)

theorem liftM_renumbered (π : Nat → Nat) (x : Except Fault α) :
    (liftM x : Except FormatError α)
      = (liftM x : Except FormatError α).mapError (.renumbered π) := by
  cases x <;> rfl

theorem field_eq_mapError (π : Nat → Nat) (read? : Field → Option α) (name : FieldName) (r : Record)
    (j : Nat) : field read? name r j = (field read? name r j).mapError (.renumbered π) := by
  unfold field
  split
  · rfl
  · split <;> rfl

end

/-! ## Records -/

theorem not_isIdPlace {width j : Nat} {r : Record} (hj : j ≠ 1) (hfirst : j < 4) :
    ¬ IsIdPlace width r j := by
  unfold IsIdPlace
  omega

namespace RenumberedRecord

variable {π : Nat → Nat} {width j : Nat} {r r' : Record} {α : Type}
  (h : RenumberedRecord π width r r')
include h

theorem tag : Format.tag r' = Format.tag r := by
  unfold Format.tag
  rw [List.headD_eq_head?_getD, List.headD_eq_head?_getD, List.head?_eq_getElem?,
    List.head?_eq_getElem?, h.others 0 (not_isIdPlace (by decide) (by decide))]

theorem expectFields (count : Nat) : Format.expectFields count r'
    = (Format.expectFields count r).mapError (.renumbered π) := by
  unfold Format.expectFields
  rw [h.length, h.tag, h.line]
  split <;> rfl

theorem field_other (read? : Field → Option α) (name : FieldName) (hj : ¬ IsIdPlace width r j) :
    field read? name r' j = (field read? name r j).mapError (.renumbered π) := by
  rw [← field_eq_mapError]
  unfold field
  rw [h.others j hj, h.line]

/-- A number is read as that of the renumbered node. -/
theorem field_number (name : FieldName) (hj : IsIdPlace width r j) :
    field readWord? name r' j = (field readWord? name r j).map π := by
  unfold field
  rw [h.line]
  cases hf : r.fields[j]? with
  | none =>
    have hlen : r'.fields[j]? = none := by
      rw [List.getElem?_eq_none_iff, h.length]
      exact List.getElem?_eq_none_iff.1 hf
    rw [hlen]
    rfl
  | some f =>
    have hlt : j < r'.fields.length := h.length ▸ (List.getElem?_eq_some_iff.1 hf).1
    have hf' := List.getElem?_eq_getElem hlt
    have hfield := h.numbers j f _ hj hf hf'
    rw [hf']
    simp only [hfield.number]
    cases hread : readWord? f with
    | none =>
      rw [hfield.kept hread]
      rfl
    | some i => rfl

end RenumberedRecord

/-! ## The table of nodes -/

/-- Both tables hold the same nodes, under renumbered numbers. -/
structure RenumberedSlots {α : Type} (π : Nat → Nat) (t t' : Slots α) : Prop where
  slots : ∀ i, t'.slots[π i]? = t.slots[i]?
  size : t'.slots.size = t.slots.size
  found : t'.found = t.found
  last : t'.last = t.last

namespace RenumberedSlots

variable {α : Type} {π : Nat → Nat} {t t' u : Slots α} {line i : Nat} {a : α} {e : FormatError}

theorem ofCount {n : Nat} (hπ : ∀ i, π i < n ↔ i < n) :
    RenumberedSlots π (.ofCount n : Slots α) (.ofCount n) where
  slots i := by
    show (Array.replicate n none)[π i]? = (Array.replicate n none)[i]?
    rw [Array.getElem?_replicate, Array.getElem?_replicate]
    exact if_congr (hπ i) rfl rfl
  size := rfl
  found := rfl
  last := rfl

variable (h : RenumberedSlots π t t')
include h

theorem get : t'.get line (π i) = (t.get line i).mapError (.renumbered π) := by
  unfold Slots.get
  rw [h.slots]
  split <;> rfl

theorem set_error (hset : t.set line i a = .error e) :
    t'.set line (π i) a = .error (e.renumbered π) := by
  unfold Slots.set at hset ⊢
  rw [h.slots, h.size]
  split at hset
  · exact congrArg Except.error (congrArg (FormatError.renumbered π) (Except.error.inj hset))
  · exact congrArg Except.error (congrArg (FormatError.renumbered π) (Except.error.inj hset))
  · exact absurd hset (by simp)

theorem set_ok (hπ : Function.Injective π) (hset : t.set line i a = .ok u) :
    ∃ u', t'.set line (π i) a = .ok u' ∧ RenumberedSlots π u u' := by
  obtain ⟨hfree, rfl⟩ := Slots.set_eq_ok.1 hset
  refine ⟨_, Slots.set_eq_ok.2 ⟨(h.slots i).trans hfree, rfl⟩, ?_⟩
  constructor
  case slots =>
    intro j
    show (t'.slots.setIfInBounds (π i) (some a))[π j]? = (t.slots.setIfInBounds i (some a))[j]?
    have hlt := (Array.getElem?_eq_some_iff.1 hfree).1
    have hlt' := (Array.getElem?_eq_some_iff.1 ((h.slots i).trans hfree)).1
    rw [Array.getElem?_setIfInBounds, Array.getElem?_setIfInBounds, h.slots, if_pos hlt,
      if_pos hlt']
    exact if_congr hπ.eq_iff rfl rfl
  case size => simpa using h.size
  case found => exact congrArg (· + 1) h.found
  case last => rfl

theorem finish : t'.finish = t.finish.mapError (.renumbered π) := by
  unfold Slots.finish
  rw [h.found, h.size, h.last]
  split
  · rfl
  · split <;> rfl

end RenumberedSlots

/-! ## Reading -/

theorem readHeader_eq_mapError (π : Nat → Nat) (tags : List Field) (text : List Char) :
    readHeader tags text = (readHeader tags text).mapError (.renumbered π) := by
  unfold readHeader
  split
  · rfl
  · split
    · rfl
    · refine bind_renumbered (field_eq_mapError π _ _ _ _) fun declared => ?_
      dsimp only
      split <;> rfl

section

variable {σ α : Type} {π : Nat → Nat} {width : Nat}
  {build : σ → Slots α → Record → Nat → Except FormatError α × σ}

/-- A reader builds corresponding records alike, whatever the numbers of the nodes are. -/
def BuildsAlike (π : Nat → Nat) (width : Nat)
    (build : σ → Slots α → Record → Nat → Except FormatError α × σ) : Prop :=
  ∀ (s : σ) {t t' : Slots α} {r r' : Record} (i : Nat), RenumberedSlots π t t' →
    RenumberedRecord π width r r' →
    build s t' r' (π i) = ((build s t r i).1.mapError (.renumbered π), (build s t r i).2)

theorem readNodes_renumbered (hbuild : BuildsAlike π width build) (hπ : Function.Injective π)
    {rs rs' : List Record} (hrs : List.Forall₂ (RenumberedRecord π width) rs rs') (s : σ)
    {t t' : Slots α} (ht : RenumberedSlots π t t') :
    (readNodes build rs' s t').2 = (readNodes build rs s t).2 ∧
      ((readNodes build rs' s t').1 >>= Slots.finish)
        = ((readNodes build rs s t).1 >>= Slots.finish).mapError (.renumbered π) := by
  induction hrs generalizing s t t' with
  | nil => exact ⟨rfl, ht.finish⟩
  | @cons r r' rs rs' hr hrs ih =>
    rw [readNodes, readNodes, hr.field_number .id (Or.inl rfl), hr.line]
    cases hid : field readWord? .id r 1 with
    | error e =>
      have he := field_eq_mapError π readWord? .id r 1
      rw [hid] at he
      exact ⟨rfl, congrArg Except.error (Except.error.inj he)⟩
    | ok i =>
      simp only [Except.map, hbuild s i ht hr]
      rcases build s t r i with ⟨e | a, s₁⟩
      · exact ⟨rfl, rfl⟩
      · simp only [Except.mapError]
        cases hset : t.set r.line i a with
        | error e =>
          rw [ht.set_error hset]
          exact ⟨rfl, rfl⟩
        | ok u =>
          obtain ⟨u', hset', hu⟩ := ht.set_ok hπ hset
          rw [hset']
          exact ih s₁ hu

end

/-- A permutation that leaves all numbers from `n` on alone permutes those below. -/
theorem perm_lt_iff {π : Equiv.Perm Nat} {n : Nat} (h : ∀ i, n ≤ i → π i = i) (i : Nat) :
    π i < n ↔ i < n := by
  constructor
  · intro hlt
    by_contra hle
    exact absurd (h i (Nat.le_of_not_lt hle) ▸ hlt) hle
  · intro hlt
    by_contra hle
    have hfixed := π.injective (h (π i) (Nat.le_of_not_lt hle))
    omega

/-- A renumbered text is read like the text. -/
theorem readText_renumbered {σ α : Type} {π : Equiv.Perm Nat} {width : Nat}
    {build : σ → Slots α → Record → Nat → Except FormatError α × σ}
    (hbuild : BuildsAlike π width build) {tags : List Field} {text text' : List Char}
    (h : Renumbers tags width π text text') (s : σ) :
    readText tags build s text' = ((readText tags build s text).1.mapError (.renumbered π),
      (readText tags build s text).2) := by
  have herror := readHeader_eq_mapError π tags text
  have hhead := h.texts.header
  have hrows := h.texts.rows
  unfold readText
  cases hrecords : records text with
  | nil =>
    rw [hrecords, List.head?_nil, List.head?_eq_none_iff] at hhead
    unfold readHeader
    rw [hrecords, hhead]
    rfl
  | cons r₀ rs =>
    rw [hrecords] at hhead hrows
    obtain ⟨rs', hrecords'⟩ := List.head?_eq_some_iff.1 hhead
    rw [hrecords'] at hrows
    cases hheader : readHeader tags text with
    | error e =>
      rw [hheader] at herror
      rw [readHeader_eq_error hrecords hrecords' h.texts.lines hheader]
      exact congrArg (Except.error ·, s) (Except.error.inj herror)
    | ok header =>
      obtain ⟨n, rest⟩ := header
      obtain ⟨r, hr, hform⟩ := readHeader_eq_ok_iff.1 hheader
      obtain ⟨rfl, rfl⟩ := List.cons.inj (hrecords.symm.trans hr)
      have hheader' : readHeader tags text' = .ok (n, rs') := by
        obtain ⟨tag, f, hfields, htag, hread, hle⟩ := hform
        exact readHeader_eq_ok_iff.2 ⟨_, hrecords', tag, f, hfields, htag, hread,
          h.texts.lines ▸ hle⟩
      rw [hheader']
      have hslots : RenumberedSlots π (.ofCount n : Slots α) (.ofCount n) :=
        .ofCount (perm_lt_iff (h.announced n rs hheader))
      obtain ⟨hstate, hnode⟩ := readNodes_renumbered hbuild π.injective hrows s hslots
      exact Prod.ext hnode hstate

/-! ## Every text can be renumbered -/

/-- The fields of the record with the numbers of the renumbered nodes. -/
def renumberedFields (π : Nat → Nat) (width : Nat) (r : Record) : List Field :=
  r.fields.mapIdx fun j f =>
    if IsIdPlace width r j then ((readWord? f).map fun i => natField (π i)).getD f else f

section

variable {π : Nat → Nat} {width : Nat} {r : Record}

theorem renumberedRecord_renumberedFields (hπ : ∀ i, i < Decimal.pow2 32 → π i < Decimal.pow2 32) :
    RenumberedRecord π width r ⟨r.line, renumberedFields π width r⟩ := by
  unfold renumberedFields
  constructor
  case line => rfl
  case length => simp
  case others =>
    intro j hj
    simp [hj]
  case numbers =>
    intro j f f' hj hf hf'
    rw [List.getElem?_mapIdx, hf, Option.map_some, if_pos hj] at hf'
    obtain rfl := Option.some_inj.1 hf'
    cases hread : readWord? f with
    | none =>
      refine ⟨?_, fun _ => rfl⟩
      rw [hread]
      exact hread
    | some i =>
      refine ⟨?_, fun hnone => absurd (hread.symm.trans hnone) (by simp)⟩
      rw [hread]
      exact readWord?_natField (hπ i (readWord?_lt hread))

theorem isRow_renumberedFields (h : IsRow r.fields) : IsRow (renumberedFields π width r) := by
  unfold renumberedFields
  refine ⟨fun f hf => ?_, ?_⟩
  · obtain ⟨j, hj, rfl⟩ := List.mem_mapIdx.1 hf
    have hfield := h.1 _ (List.getElem_mem hj)
    split
    · cases readWord? r.fields[j] with
      | none => exact hfield
      | some i => exact isField_natField _
    · exact hfield
  · -- the first field says whether a row is passed over, and it is no number
    obtain ⟨line, fs⟩ := r
    cases fs with
    | nil => exact h.2
    | cons f fs =>
      rw [List.mapIdx_cons, if_neg (not_isIdPlace (by decide) (by decide))]
      exact h.2

/-- Records whose numbers are replaced make a renumbered text. -/
theorem RenumberedText.of_records {text text' : List Char}
    (hπ : ∀ i, i < Decimal.pow2 32 → π i < Decimal.pow2 32)
    (hlines : (Text.lines text').length = (Text.lines text).length)
    (hheader : (records text').head? = (records text).head?)
    (hrows : (records text').tail
      = (records text).tail.map fun r => ⟨r.line, renumberedFields π width r⟩) :
    RenumberedText π width text text' := by
  refine ⟨hlines, hheader, ?_⟩
  rw [hrows, List.forall₂_map_right_iff, List.forall₂_same]
  exact fun r _ => renumberedRecord_renumberedFields hπ

end

/-- Every text has a renumbered one for a permutation that leaves words words. -/
theorem exists_renumberedText {π : Nat → Nat}
    (hπ : ∀ i, i < Decimal.pow2 32 → π i < Decimal.pow2 32) (width : Nat) (text : List Char) :
    ∃ text', RenumberedText π width text text' := by
  -- the header announces a number and gives none
  let g (r : Record) : List Field :=
    if (records text).head? = some r then r.fields else renumberedFields π width r
  have hg : ∀ r ∈ records text, IsRow (g r) := by
    intro r hr
    show IsRow (if _ then _ else _)
    split
    · exact isRow_of_mem_records hr
    · exact isRow_renumberedFields (isRow_of_mem_records hr)
  obtain ⟨hnewlines, hrewritten⟩ := rewrittenFrom_spec hg
  have hlines := lines_render hnewlines
  have hrecords : records (render (rewrittenFrom g 1 (lines text)))
      = (records text).map fun r => ⟨r.line, g r⟩ := by
    unfold records
    rw [hlines]
    exact hrewritten
  refine ⟨_, .of_records hπ (by rw [hlines, length_rewrittenFrom]) ?_ ?_⟩
  · rw [hrecords]
    cases htext : records text with
    | nil => rfl
    | cons h rest => simp [g, htext]
  · rw [hrecords]
    cases htext : records text with
    | nil => rfl
    | cons h rest =>
      have hlater := (htext ▸ pairwise_recordsFrom 1 (lines text) :
        (h :: rest).Pairwise fun r r' => r.line < r'.line)
      rw [List.map_cons, List.tail_cons, List.tail_cons]
      refine List.map_congr_left fun r hr => ?_
      have hne : h ≠ r := fun heq => absurd (List.rel_of_pairwise_cons hlater hr) (by simp [heq])
      simp [g, htext, hne]

end Format
end Sentential
