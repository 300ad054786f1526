import Mathlib.Data.List.Perm.Subperm
import Mathlib.Data.List.Basic
import Sentential.Proofs.Format.Rows

/-!
# When a text is accepted

A text is accepted if its header is, if every record behind the header can be built, one after the
other, and if the numbers of the records are those below the announced count, each of them once.
`Slots.Holds` says what the table of nodes is at any point: the numbers and nodes of the records so
far, in order. The lines that say nothing, the blanks between fields and the numbers of the lines
have no part in it: what is read are the rows of the text.
-/

namespace Sentential

/-! ## Fields -/

theorem drop_eq_of_getElem? {α : Type} {as : List α} {i : Nat} {a : α} (h : as[i]? = some a) :
    as.drop i = a :: as.drop (i + 1) := by
  obtain ⟨hlt, rfl⟩ := List.getElem?_eq_some_iff.1 h
  exact List.drop_eq_getElem_cons hlt

theorem Format.fields_eq_of_tag {r : Text.Record} {f : Text.Field} (h : Format.tag r = f)
    (hne : f ≠ []) : r.fields = f :: r.fields.drop 1 := by
  unfold Format.tag at h
  cases hfields : r.fields with
  | nil => exact absurd (by rw [← h, hfields]; rfl) hne
  | cons g rest =>
    rw [hfields] at h
    obtain rfl : g = f := h
    rfl

/-! ## Rows -/

namespace Text

/-- The pieces of a list are not longer than the list, and at most one more than its members. -/
theorem length_splitOnP (p : Char → Bool) (cs : List Char) :
    (∀ piece ∈ cs.splitOnP p, piece.length ≤ cs.length) ∧
      (cs.splitOnP p).length ≤ cs.length + 1 := by
  induction cs with
  | nil => simp
  | cons c cs ih =>
    obtain ⟨hpiece, hlen⟩ := ih
    rw [List.splitOnP_cons_eq_if_modifyHead]
    split
    · refine ⟨fun piece hmem => ?_, Nat.succ_le_succ hlen⟩
      rcases List.mem_cons.1 hmem with rfl | hmem
      · exact Nat.zero_le _
      · exact Nat.le_succ_of_le (hpiece piece hmem)
    · rw [List.length_modifyHead]
      refine ⟨fun piece hmem => ?_, Nat.le_succ_of_le hlen⟩
      cases hsplit : cs.splitOnP p with
      | nil => exact absurd hsplit (List.splitOnP_ne_nil p cs)
      | cons head pieces =>
        rw [hsplit] at hmem hpiece
        rcases List.mem_cons.1 hmem with rfl | hmem
        · exact Nat.succ_le_succ (hpiece head List.mem_cons_self)
        · exact Nat.le_succ_of_le (hpiece piece (List.mem_cons_of_mem _ hmem))

theorem length_le_of_mem_lines {text line : List Char} (h : line ∈ lines text) :
    line.length ≤ text.length := by
  apply (length_splitOnP (· == '\n') text).1
  unfold lines at h
  simp only at h
  split at h
  · exact List.dropLast_subset _ h
  · exact h

theorem length_fields_le (line : List Char) : (fields line).length ≤ line.length + 1 :=
  Nat.le_trans (List.length_filter_le _ _) (length_splitOnP isBlank line).2

/-- The fields of the lines of a text that say something. -/
def rows (text : List Char) : List (List Field) :=
  ((lines text).map fields).filter (!isSilent ·)

theorem map_fields_recordsFrom (line : Nat) (ls : List (List Char)) :
    (recordsFrom line ls).map Record.fields = (ls.map fields).filter (!isSilent ·) := by
  induction ls generalizing line with
  | nil => rfl
  | cons l ls ih =>
    rw [recordsFrom, List.map_cons, List.filter_cons, ← ih (line + 1)]
    cases isSilent (fields l) <;> rfl

/-- The rows of a text are the fields of its records. -/
theorem map_fields_records (text : List Char) : (records text).map Record.fields = rows text :=
  map_fields_recordsFrom 1 (lines text)

/-- The rows of a written file are those that were written. -/
theorem rows_fileOf {comments : List (List Char)} {rs : List (List Field)}
    (hcomments : ∀ l ∈ comments, l.head? = some 'c' ∧ '\n' ∉ l) (hrows : ∀ fs ∈ rs, IsRow fs) :
    rows (fileOf comments rs) = rs := by
  rw [← map_fields_records, (records_fileOf hcomments hrows).2]
  refine List.ext_getElem? fun i => ?_
  rw [List.getElem?_map, getElem?_numbered, Option.map_map]
  exact Option.map_id'

theorem length_rows_le (text : List Char) : (rows text).length ≤ (lines text).length := by
  unfold rows
  exact Nat.le_trans (List.length_filter_le _ _) (Nat.le_of_eq (List.length_map _))

/-- A row has no more fields than fit into the text. -/
theorem length_le_of_mem_rows {text : List Char} {fs : List Field} (h : fs ∈ rows text) :
    fs.length ≤ text.length + 1 := by
  obtain ⟨line, hline, rfl⟩ := List.mem_map.1 (List.mem_of_mem_filter h)
  exact Nat.le_trans (length_fields_le line) (Nat.succ_le_succ (length_le_of_mem_lines hline))

/-- In a text that is held in an address space of 63 bits no row has more fields than a word can
count. -/
theorem length_lt_of_mem_rows {text : List Char} (hmemory : text.length < Decimal.pow2 63) :
    ∀ fs ∈ rows text, fs.length < Decimal.pow2 64 := by
  intro fs hfs
  have hle := length_le_of_mem_rows hfs
  have hpow : Decimal.pow2 64 = 2 * Decimal.pow2 63 := by decide
  have hpos := Decimal.pow2_pos 63
  omega

end Text

namespace Format

open Text

/-! ## The table of nodes -/

namespace Slots

variable {α : Type} {t t' : Slots α} {n line id : Nat} {entries : List (Nat × α)} {a : α}

/-- The table has `n` slots and holds the nodes of some records in the order of the records, each
with its number. -/
structure Holds (t : Slots α) (n : Nat) (entries : List (Nat × α)) : Prop where
  size : t.slots.size = n
  slot : ∀ i a, t.slots[i]? = some (some a) ↔ (i, a) ∈ entries
  nodup : (entries.map Prod.fst).Nodup
  found : t.found = entries.length
  last : t.last = entries.getLast?.map Prod.snd

theorem holds_ofCount (n : Nat) : (ofCount n : Slots α).Holds n [] := by
  constructor
  case size => exact Array.size_replicate
  case slot =>
    intro i a
    have hnone : ∀ a, (ofCount n : Slots α).slots[i]? ≠ some (some a) := by
      intro a ha
      exact (all_ofCount (fun _ => False) n).slots i a ha
    simp [hnone]
  case nodup => exact List.nodup_nil
  case found => rfl
  case last => rfl

namespace Holds

variable (h : t.Holds n entries)
include h

theorem get_eq_ok : t.get line id = .ok a ↔ (id, a) ∈ entries := Slots.get_eq_ok.trans (h.slot id a)

theorem lt (hmem : (id, a) ∈ entries) : id < n := by
  have hget := (h.slot id a).2 hmem
  rw [← h.size]
  exact (Array.getElem?_eq_some_iff.1 hget).1

theorem all {p : α → Prop} (hp : ∀ x ∈ entries, p x.2) : t.All p := by
  refine ⟨fun i a hi => hp (i, a) ((h.slot i a).1 hi), fun a ha => ?_⟩
  rw [h.last] at ha
  obtain ⟨x, hx, rfl⟩ := Option.map_eq_some_iff.1 ha
  exact hp x (List.mem_of_getLast? hx)

/-- The free slots are those of the numbers that no record has. -/
theorem free_iff : t.slots[id]? = some none ↔ id < n ∧ id ∉ entries.map Prod.fst := by
  have hnot : (∃ a, t.slots[id]? = some (some a)) ↔ id ∈ entries.map Prod.fst := by
    simp [h.slot]
  rw [← hnot, ← h.size]
  cases hget : t.slots[id]? with
  | none =>
    have hle := Array.getElem?_eq_none_iff.1 hget
    simp
    omega
  | some slot =>
    have hlt := (Array.getElem?_eq_some_iff.1 hget).1
    cases slot <;> simp [hlt]

theorem exists_set (line : Nat) (a : α) (hlt : id < n) (hfree : id ∉ entries.map Prod.fst) :
    ∃ t', t.set line id a = .ok t' :=
  ⟨_, set_eq_ok.2 ⟨h.free_iff.2 ⟨hlt, hfree⟩, rfl⟩⟩

theorem set (hset : t.set line id a = .ok t') : t'.Holds n (entries ++ [(id, a)]) := by
  obtain ⟨hfree, hstore⟩ := set_eq_ok.1 hset
  constructor
  case size =>
    rw [hstore]
    exact (Array.size_setIfInBounds).trans h.size
  case slot =>
    intro i b
    rw [List.mem_append, List.mem_singleton, ← h.slot, Prod.mk.injEq]
    constructor
    · exact fun hi => (of_getElem?_set hset hi).symm
    · rintro (hold | ⟨rfl, rfl⟩)
      · exact getElem?_set_of_some hset hold
      · rw [hstore]
        have hlt := (Array.getElem?_eq_some_iff.1 hfree).1
        exact (Array.getElem?_setIfInBounds_self_of_lt hlt)
  case nodup =>
    rw [List.map_append, List.nodup_append]
    refine ⟨h.nodup, by simp, fun i hi j hj => ?_⟩
    obtain rfl : j = id := by simpa using hj
    rintro rfl
    exact (h.free_iff.1 hfree).2 hi
  case found =>
    rw [hstore, List.length_append]
    exact congrArg (· + 1) h.found
  case last => rw [hstore, List.getLast?_append_of_ne_nil _ (by simp)]; rfl

/-- The table is full if the records have the numbers of all slots. -/
theorem finish_eq_ok : t.finish = .ok a ↔
    (entries.map Prod.fst).Perm (List.range n) ∧ entries.getLast?.map Prod.snd = some a := by
  rw [Slots.finish_eq_ok, h.found, h.size, h.last]
  refine and_congr_left fun _ => ?_
  have hsubset : entries.map Prod.fst ⊆ List.range n := by
    intro i hi
    obtain ⟨⟨j, b⟩, hmem, rfl⟩ := List.mem_map.1 hi
    exact List.mem_range.2 (h.lt hmem)
  constructor
  · intro hlen
    apply (List.subperm_of_subset h.nodup hsubset).perm_of_length_le
    simp [hlen]
  · intro hperm
    have hlen := hperm.length_eq
    rwa [List.length_map, List.length_range] at hlen

section

variable (hperm : (entries.map Prod.fst).Perm (List.range n))
include hperm

/-- With all numbers given there is a node in every slot. -/
theorem full : t.slots.toList = (t.slots.toList.filterMap fun o => o).map some := by
  rw [List.map_filterMap]
  symm
  calc t.slots.toList.filterMap (fun o => o.map some)
    _ = t.slots.toList.filterMap some := by
        refine List.filterMap_congr fun o ho => ?_
        obtain ⟨i, hi⟩ := List.mem_iff_getElem?.1 ho
        have hlt : i < n := by
          rw [← h.size, ← Array.length_toList]
          exact (List.getElem?_eq_some_iff.1 hi).1
        obtain ⟨e, he, rfl⟩ := List.mem_map.1 (hperm.symm.subset (List.mem_range.2 hlt))
        have hslot := (h.slot e.1 e.2).2 he
        rw [← Array.getElem?_toList, hi] at hslot
        rw [Option.some_inj.1 hslot]
        rfl
    _ = t.slots.toList := List.filterMap_some

theorem getElem?_nodes : (t.slots.toList.filterMap fun o => o)[id]? = some a ↔ (id, a) ∈ entries := by
  rw [← h.slot, ← Array.getElem?_toList, h.full hperm, List.getElem?_map]
  simp

end

end Holds
end Slots

/-! ## Records -/

variable {σ α : Type} {build : σ → Slots α → Record → Nat → Except FormatError α × σ}

/-- Reading succeeds if it does for the first record and, in the state behind it, for the rest. -/
theorem readNodes_cons_eq_ok {r : Record} {rs : List Record} {s s' : σ} {t t' : Slots α} :
    readNodes build (r :: rs) s t = (.ok t', s') ↔ ∃ id a s₁ t₁, field readWord? .id r 1 = .ok id ∧
      build s t r id = (.ok a, s₁) ∧ t.set r.line id a = .ok t₁ ∧
      readNodes build rs s₁ t₁ = (.ok t', s') := by
  constructor
  · intro h
    rw [readNodes] at h
    cases hid : field readWord? .id r 1 with
    | error e => simp [hid] at h
    | ok id =>
      rcases hbuild : build s t r id with ⟨e | a, s₁⟩
      · simp [hid, hbuild] at h
      · cases hset : t.set r.line id a with
        | error e => simp [hid, hbuild, hset] at h
        | ok t₁ =>
          simp only [hid, hbuild, hset] at h
          exact ⟨id, a, s₁, t₁, rfl, hbuild, hset, h⟩
  · rintro ⟨id, a, s₁, t₁, hid, hbuild, hset, hrest⟩
    simp only [readNodes, hid, hbuild, hset]
    exact hrest

/-- Every record of a text that is read has been built. -/
theorem exists_build_of_mem {rs : List Record} {s s' : σ} {t t' : Slots α}
    (h : readNodes build rs s t = (.ok t', s')) {r : Record} (hr : r ∈ rs) :
    ∃ s₁ t₁ id a s₂, build s₁ t₁ r id = (.ok a, s₂) := by
  induction rs generalizing s t with
  | nil => exact absurd hr (by simp)
  | cons r' rs ih =>
    obtain ⟨id, a, s₁, t₁, -, hbuild, -, hrest⟩ := readNodes_cons_eq_ok.1 h
    rcases List.mem_cons.1 hr with rfl | hr
    · exact ⟨s, t, id, a, s₁, hbuild⟩
    · exact ih hrest hr

theorem readText_eq_ok {tags : List Field} {s s' : σ} {text : List Char} {a : α} :
    readText tags build s text = (.ok a, s') ↔ ∃ n rs t, readHeader tags text = .ok (n, rs) ∧
      readNodes build rs s (.ofCount n) = (.ok t, s') ∧ t.finish = .ok a := by
  unfold readText
  cases hheader : readHeader tags text with
  | error e => simp
  | ok header =>
    obtain ⟨n, rs⟩ := header
    rcases hnodes : readNodes build rs s (.ofCount n) with ⟨e | t, s₁⟩
    · simp [hnodes]
    · simp [hnodes, and_comm]

/-- The header announces a number of records that the text has lines for. -/
theorem readHeader_eq_ok {tags : List Field} {text : List Char} {n : Nat} {rs : List Record} :
    readHeader tags text = .ok (n, rs) ↔ ∃ line tag f, records text = ⟨line, [tag, f]⟩ :: rs ∧
      tag ∈ tags ∧ readCount? f = some n ∧ n ≤ (lines text).length := by
  unfold readHeader
  cases hrecords : records text with
  | nil => simp
  | cons r rest =>
    obtain ⟨line, fs⟩ := r
    constructor
    · intro h
      simp only at h
      split at h
      · exact absurd h (by simp)
      · next hform =>
        push Not at hform
        obtain ⟨htwo, htag⟩ := hform
        obtain ⟨declared, hdeclared, h⟩ := bind_eq_ok.1 h
        obtain ⟨f, hf, hread⟩ := field_eq_ok.1 hdeclared
        split at h
        · exact absurd h (by simp)
        · next hle =>
          obtain ⟨rfl, rfl⟩ : declared = n ∧ rest = rs := by simpa using h
          obtain ⟨tag, f', rfl⟩ := List.length_eq_two.1 htwo
          obtain rfl := Option.some_inj.1 hf
          exact ⟨line, tag, f', rfl, htag, hread, Nat.le_of_not_lt hle⟩
    · rintro ⟨line', tag, f, heq, htag, hread, hle⟩
      obtain ⟨⟨rfl, rfl⟩, rfl⟩ : (line = line' ∧ fs = [tag, f]) ∧ rest = rs := by simpa using heq
      have hdeclared : field readCount? .nodeCount ⟨line, [tag, f]⟩ 1 = .ok n :=
        field_eq_ok.2 ⟨f, rfl, hread⟩
      simp only
      rw [if_neg (by simp [Format.tag, htag]), hdeclared]
      simp only [ok_bind]
      rw [if_neg (Nat.not_lt.2 hle)]
      rfl

/-- Every row of a written file that is read has been built. -/
theorem exists_build_of_readText {tags : List Field} {tag : Field} {comments : List (List Char)}
    {rows : List (List Field)} (hcomments : ∀ l ∈ comments, l.head? = some 'c' ∧ '\n' ∉ l)
    (htag : tag ∈ tags) (hheader : IsRow [tag, natField rows.length])
    (hrows : ∀ fs ∈ rows, IsRow fs) (hcount : rows.length < Decimal.pow2 64) {s s' : σ} {a : α}
    (h : readText tags build s (fileOf comments ([tag, natField rows.length] :: rows))
      = (.ok a, s')) {fs : List Field} (hfs : fs ∈ rows) :
    ∃ line s₁ t₁ id b s₂, build s₁ t₁ ⟨line, fs⟩ id = (.ok b, s₂) := by
  obtain ⟨n, rs, t, hread, hnodes, -⟩ := readText_eq_ok.1 h
  rw [readHeader_fileOf hcomments htag hheader hrows hcount] at hread
  obtain ⟨-, rfl⟩ := Prod.mk.inj (Except.ok.inj hread)
  obtain ⟨i, hi⟩ := List.mem_iff_getElem?.1 hfs
  have hrecord := getElem?_numbered (1 + comments.length + 1) rows i
  rw [hi] at hrecord
  obtain ⟨s₁, t₁, id, b, s₂, hbuild⟩ := exists_build_of_mem hnodes (List.mem_of_getElem? hrecord)
  exact ⟨_, s₁, t₁, id, b, s₂, hbuild⟩

end Format
end Sentential
