import Sentential.Proofs.Format.Acceptance

/-!
# Grammars of files

The three formats agree in what a file is apart from what its rows say: a header announces a
number of rows, as many follow, every row gives a number to what it describes, and what it
describes may refer to the numbers of the rows above (`IsFile`). A format adds a relation `row` for
one row.

A reader follows such a grammar if it does so row by row (`Follows`): what it can build is a row of
the grammar, and of a row of the grammar it builds what the row describes. The two directions for a
whole text are `Follows.isFile_of_read` and `Follows.read_of_isFile`.
-/

namespace Sentential

/-! ## Related lists -/

section

variable {α β : Type} {R : α → β → Prop} {as : List α} {bs : List β}

theorem exists_right_of_mem (h : List.Forall₂ R as bs) {a : α} (ha : a ∈ as) : ∃ b ∈ bs, R a b := by
  induction h with
  | nil => exact absurd ha (by simp)
  | cons hab _ ih =>
    rcases List.mem_cons.1 ha with rfl | ha
    · exact ⟨_, List.mem_cons_self, hab⟩
    · obtain ⟨b, hb, hR⟩ := ih ha
      exact ⟨b, List.mem_cons_of_mem _ hb, hR⟩

theorem exists_getLast? (h : List.Forall₂ R as bs) {a : α} (ha : as.getLast? = some a) :
    ∃ b, bs.getLast? = some b ∧ R a b := by
  induction h with
  | nil => exact absurd ha (by simp)
  | @cons a' b' as bs hab hrest ih =>
    cases hrest with
    | nil =>
      obtain rfl : a' = a := by simpa using ha
      exact ⟨b', rfl, hab⟩
    | cons hab' hrest =>
      rw [List.getLast?_cons_cons] at ha ⊢
      exact ih ha

end

namespace Format

open Text

/-! ## Files -/

section

variable {β : Type} (row : List (Nat × β) → List Field → Nat → β → Prop)

/-- The rows give numbers to descriptions one after the other. -/
inductive AreRows : List (Nat × β) → List (List Field) → List (Nat × β) → Prop
  | nil (earlier : List (Nat × β)) : AreRows earlier [] []
  | cons {earlier named : List (Nat × β)} {fs : List Field} {rest : List (List Field)} {i : Nat}
      {b : β} : row earlier fs i b → AreRows (earlier ++ [(i, b)]) rest named →
      AreRows earlier (fs :: rest) ((i, b) :: named)

/-- The rows are a header and as many rows as it announces, whose numbers are those below the
announced one, each once. -/
def IsFile (tags : List Field) (rows : List (List Field)) (named : List (Nat × β)) : Prop :=
  ∃ tag f rest, rows = [tag, f] :: rest ∧ tag ∈ tags ∧ readCount? f = some rest.length ∧
    1 ≤ rest.length ∧ AreRows row [] rest named ∧
    (named.map Prod.fst).Perm (List.range rest.length)

variable {row} {named : List (Nat × β)} {tags : List Field} {rows : List (List Field)}

theorem AreRows.length {earlier : List (Nat × β)} (h : AreRows row earlier rows named) :
    rows.length = named.length := by
  induction h with
  | nil => rfl
  | cons _ _ ih => exact congrArg (· + 1) ih

theorem AreRows.append {earlier named' : List (Nat × β)} {rows' : List (List Field)}
    (h : AreRows row earlier rows named) (h' : AreRows row (earlier ++ named) rows' named') :
    AreRows row earlier (rows ++ rows') (named ++ named') := by
  induction h with
  | nil earlier => rwa [List.append_nil] at h'
  | @cons earlier named fs rest i b hrow _ ih =>
    refine .cons hrow (ih ?_)
    rwa [List.append_assoc]

/-- Every row of a file is one of the grammar, with the rows above it as the earlier ones. -/
theorem AreRows.exists_row {earlier : List (Nat × β)} (h : AreRows row earlier rows named)
    {k i : Nat} {b : β} (hget : named[k]? = some (i, b)) :
    ∃ fs, rows[k]? = some fs ∧ row (earlier ++ named.take k) fs i b := by
  induction h generalizing k with
  | nil => exact absurd hget (by simp)
  | @cons earlier named fs rest j c hrow _ ih =>
    cases k with
    | zero =>
      obtain ⟨rfl, rfl⟩ : j = i ∧ c = b := by simpa using hget
      exact ⟨fs, rfl, by simpa using hrow⟩
    | succ k =>
      obtain ⟨fs', hfs, hrow'⟩ := ih hget
      rw [List.append_assoc] at hrow'
      exact ⟨fs', hfs, hrow'⟩

/-- The rows of a file have different numbers. -/
theorem IsFile.keys_nodup (h : IsFile row tags rows named) : (named.map Prod.fst).Nodup := by
  obtain ⟨tag, f, rest, -, -, -, -, -, hperm⟩ := h
  exact hperm.nodup_iff.2 List.nodup_range

theorem IsFile.ne_nil (h : IsFile row tags rows named) : named ≠ [] := by
  obtain ⟨tag, f, rest, -, -, -, hpos, hrows, -⟩ := h
  rintro rfl
  rw [hrows.length] at hpos
  exact absurd hpos (by simp)

/-- The header of a file announces its rows, and numbers are given out up to it. -/
theorem IsFile.perm (h : IsFile row tags rows named) :
    (named.map Prod.fst).Perm (List.range named.length) := by
  obtain ⟨tag, f, rest, -, -, -, -, hrows, hperm⟩ := h
  rwa [hrows.length] at hperm

end

/-! ## Reading -/

/-- Building follows a grammar. The invariant `inv` relates the state and the nodes of the records
so far to what the grammar makes of their rows; a row that is `sized` can be built if it is one of
the grammar. -/
structure Follows {σ α β : Type} (build : σ → Slots α → Record → Nat → Except FormatError α × σ)
    (row : List (Nat × β) → List Field → Nat → β → Prop) (sized : List Field → Prop)
    (inv : σ → List (Nat × α) → List (Nat × β) → Prop) : Prop where
  keys_eq : ∀ {s entries named}, inv s entries named →
    entries.map Prod.fst = named.map Prod.fst
  sound : ∀ {s s' entries named t n r i a}, inv s entries named → t.Holds n entries →
    field readWord? .id r 1 = .ok i → build s t r i = (.ok a, s') →
    ∃ b, row named r.fields i b ∧ inv s' (entries ++ [(i, a)]) (named ++ [(i, b)])
  complete : ∀ {s entries named t n r i b}, inv s entries named → t.Holds n entries →
    row named r.fields i b → sized r.fields → field readWord? .id r 1 = .ok i ∧
    ∃ a s', build s t r i = (.ok a, s') ∧ inv s' (entries ++ [(i, a)]) (named ++ [(i, b)])

namespace Follows

variable {σ α β : Type} {build : σ → Slots α → Record → Nat → Except FormatError α × σ}
  {row : List (Nat × β) → List Field → Nat → β → Prop} {sized : List Field → Prop}
  {inv : σ → List (Nat × α) → List (Nat × β) → Prop} {s s' : σ} {t t' : Slots α} {n : Nat}
  {entries : List (Nat × α)} {named : List (Nat × β)} {rs : List Record} {tags : List Field}
  {text : List Char} {a : α}

variable (h : Follows build row sized inv)
include h

/-- The rows of records that are read are rows of the grammar. -/
theorem areRows_of_readNodes (hinv : inv s entries named) (ht : t.Holds n entries)
    (hread : readNodes build rs s t = (.ok t', s')) : ∃ entries' rest, t'.Holds n entries' ∧
      inv s' entries' (named ++ rest) ∧ AreRows row named (rs.map Record.fields) rest := by
  induction rs generalizing s t entries named with
  | nil =>
    obtain ⟨ht', rfl⟩ := Prod.mk.inj hread
    obtain rfl := Except.ok.inj ht'
    exact ⟨entries, [], ht, by rwa [List.append_nil], .nil named⟩
  | cons r rs ih =>
    obtain ⟨i, a, s₁, t₁, hid, hbuild, hset, hrest⟩ := readNodes_cons_eq_ok.1 hread
    obtain ⟨b, hrow, hinv₁⟩ := h.sound hinv ht hid hbuild
    obtain ⟨entries', rest, ht', hinv', hrows⟩ := ih hinv₁ (ht.set hset) hrest
    rw [List.append_assoc] at hinv'
    exact ⟨entries', (i, b) :: rest, ht', hinv', .cons hrow hrows⟩

/-- Rows of the grammar are read if their numbers are below the announced count, each once. -/
theorem readNodes_of_areRows {rest : List (Nat × β)} (hinv : inv s entries named)
    (ht : t.Holds n entries) (hrows : AreRows row named (rs.map Record.fields) rest)
    (hsized : ∀ r ∈ rs, sized r.fields) (hnodup : ((named ++ rest).map Prod.fst).Nodup)
    (hlt : ∀ i ∈ rest.map Prod.fst, i < n) : ∃ t' s' entries',
      readNodes build rs s t = (.ok t', s') ∧ t'.Holds n entries' ∧
      inv s' entries' (named ++ rest) := by
  induction rs generalizing s t entries named rest with
  | nil =>
    cases hrows with
    | nil => exact ⟨t, s, entries, rfl, ht, by rwa [List.append_nil]⟩
  | cons r rs ih =>
    cases hrows with
    | @cons _ rest _ _ i b hrow hrows =>
      obtain ⟨hr, hrs⟩ := List.forall_mem_cons.1 hsized
      obtain ⟨hid, a, s₁, hbuild, hinv₁⟩ := h.complete hinv ht hrow hr
      have hfree : i ∉ entries.map Prod.fst := by
        rw [h.keys_eq hinv]
        rw [List.map_append, List.map_cons, List.nodup_append] at hnodup
        exact fun hmem => hnodup.2.2 i hmem i List.mem_cons_self rfl
      obtain ⟨t₁, hset⟩ := ht.exists_set r.line a (hlt i List.mem_cons_self) hfree
      obtain ⟨t', s', entries', hread, ht', hinv'⟩ := ih hinv₁ (ht.set hset) hrows hrs
        (by rwa [List.append_assoc]) (fun j hj => hlt j (List.mem_cons_of_mem _ hj))
      rw [List.append_assoc] at hinv'
      exact ⟨t', s', entries', readNodes_cons_eq_ok.2 ⟨i, a, s₁, t₁, hid, hbuild, hset, hread⟩,
        ht', hinv'⟩

/-- A text that is read is a file of the grammar. -/
theorem isFile_of_read (hinv : inv s [] []) {rs : List Record}
    (hheader : readHeader tags text = .ok (n, rs))
    (hread : readNodes build rs s (.ofCount n) = (.ok t, s')) (hfinish : t.finish = .ok a) :
    ∃ entries named, IsFile row tags (rows text) named ∧ t.Holds n entries ∧
      inv s' entries named ∧ entries.getLast?.map Prod.snd = some a := by
  obtain ⟨line, tag, f, hrecords, htag, hcount, -⟩ := readHeader_eq_ok.1 hheader
  obtain ⟨entries, named, ht, hinv', hrows⟩ :=
    h.areRows_of_readNodes hinv (Slots.holds_ofCount n) hread
  rw [List.nil_append] at hinv'
  obtain ⟨hperm, hlast⟩ := ht.finish_eq_ok.1 hfinish
  have hperm' := hperm
  rw [h.keys_eq hinv'] at hperm'
  -- as many rows as there are numbers
  have hlen : (rs.map Record.fields).length = n := by
    have hkeys := hperm'.length_eq
    rwa [List.length_map, List.length_range, ← hrows.length] at hkeys
  have hpos : 1 ≤ n := by
    obtain ⟨x, hx, -⟩ := Option.map_eq_some_iff.1 hlast
    have hmem := hperm.subset (List.mem_map_of_mem (List.mem_of_getLast? hx))
    exact Nat.lt_of_le_of_lt (Nat.zero_le _) (List.mem_range.1 hmem)
  refine ⟨entries, named, ⟨tag, f, rs.map Record.fields, ?_, htag, by rwa [hlen], by rwa [hlen],
    hrows, by rwa [hlen]⟩, ht, hinv', hlast⟩
  rw [← map_fields_records, hrecords]
  rfl

/-- A file of the grammar is read. -/
theorem read_of_isFile (hinv : inv s [] []) (hsized : ∀ fs ∈ rows text, sized fs)
    (hfile : IsFile row tags (rows text) named) : ∃ n rs t s' entries a,
      readHeader tags text = .ok (n, rs) ∧ readNodes build rs s (.ofCount n) = (.ok t, s') ∧
      t.finish = .ok a ∧ t.Holds n entries ∧ inv s' entries named ∧
      entries.getLast?.map Prod.snd = some a := by
  have hne := hfile.ne_nil
  have hnodup := hfile.keys_nodup
  obtain ⟨tag, f, rest, heq, htag, hcount, -, hrows, hperm⟩ := hfile
  obtain ⟨r, rs, hrecords, hheader, rfl⟩ : ∃ r rs, records text = r :: rs ∧
      r.fields = [tag, f] ∧ rs.map Record.fields = rest := by
    rw [← map_fields_records] at heq
    exact List.map_eq_cons_iff.1 heq
  have hsized' : ∀ r' ∈ rs, sized r'.fields := by
    intro r' hr'
    apply hsized
    rw [heq]
    exact List.mem_cons_of_mem _ (List.mem_map_of_mem hr')
  have hlt : ∀ i ∈ named.map Prod.fst, i < (rs.map Record.fields).length :=
    fun i hi => List.mem_range.1 (hperm.subset hi)
  obtain ⟨t, s', entries, hread, ht, hinv'⟩ := h.readNodes_of_areRows hinv
    (Slots.holds_ofCount _) hrows hsized' hnodup hlt
  rw [List.nil_append] at hinv'
  have hkeys := h.keys_eq hinv'
  obtain ⟨x, hx⟩ : ∃ x, entries.getLast? = some x := by
    rw [← Option.isSome_iff_exists, List.getLast?_isSome]
    rintro rfl
    exact hne (List.map_eq_nil_iff.1 hkeys.symm)
  have hlast : entries.getLast?.map Prod.snd = some x.2 := by rw [hx]; rfl
  refine ⟨_, rs, t, s', entries, x.2, readHeader_eq_ok.2 ?_, hread, ?_, ht, hinv', hlast⟩
  · refine ⟨r.line, tag, f, by rw [hrecords, ← hheader], htag, hcount, ?_⟩
    have hle := length_rows_le text
    rw [heq, List.length_cons] at hle
    exact Nat.le_of_succ_le hle
  · rw [ht.finish_eq_ok, hkeys]
    exact ⟨hperm, hlast⟩

end Follows
end Format
end Sentential
