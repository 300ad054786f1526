import Sentential.Proofs.Format.Reading
import Sentential.Proofs.Text.Rendered

/-!
# Reading rows that are numbered in order

The writers number their rows `0, 1, 2, …`. Reading such rows fills the table of nodes from the
bottom (`Slots.filled`), and reading succeeds if every row can be built on top of the rows before
it (`readNodes_rows`, `readText_fileOf`).
-/

namespace Sentential.Format

open Text

namespace Slots

variable {α : Type} {n : Nat} {as : List α} {a : α}

/-- The table of so many slots of which the first are filled. -/
def filled (n : Nat) (as : List α) : Slots α where
  slots := (as.map some ++ List.replicate (n - as.length) none).toArray
  found := as.length
  last := as.getLast?

theorem ofCount_eq (n : Nat) : (ofCount n : Slots α) = filled n [] := by
  unfold ofCount filled
  simp

theorem getElem?_filled_lt {i : Nat} (h : i < as.length) :
    (filled n as).slots[i]? = some as[i]? := by
  show (List.toArray _)[i]? = _
  rw [List.getElem?_toArray, List.getElem?_append_left (by simpa using h), List.getElem?_map,
    List.getElem?_eq_getElem h]
  rfl

theorem get_filled {line i : Nat} (h : as[i]? = some a) : (filled n as).get line i = .ok a := by
  rw [get_eq_ok, getElem?_filled_lt (List.getElem?_eq_some_iff.1 h).1, h]

theorem set_filled {line : Nat} (h : as.length < n) :
    (filled n as).set line as.length a = .ok (filled n (as ++ [a])) := by
  obtain ⟨k, hk⟩ := Nat.exists_eq_add_of_lt h
  have hrest : n - as.length = k + 1 := by omega
  have hrest' : n - (as ++ [a]).length = k := by
    rw [List.length_append, List.length_singleton]
    omega
  have hslots : (filled n as).slots = (as.map some ++ none :: List.replicate k none).toArray := by
    unfold filled
    rw [hrest, List.replicate_succ]
  rw [set_eq_ok]
  constructor
  · rw [hslots, List.getElem?_toArray, List.getElem?_append_right (by simp)]
    simp
  · rw [hslots]
    unfold filled
    rw [hrest']
    simp

theorem finish_filled (hlen : as.length = n) (hlast : as.getLast? = some a) :
    (filled n as).finish = .ok a := by
  rw [finish_eq_ok]
  refine ⟨?_, hlast⟩
  show as.length = (List.toArray _).size
  simp [hlen]

end Slots

variable {σ α : Type} {build : σ → Slots α → Record → Nat → Except FormatError α × σ}

/-- If each row can be built behind the rows before it, then all rows are built. The invariant
`inv` speaks of the state and the nodes of the rows so far. -/
theorem readNodes_rows (inv : σ → List α → Prop) (rows : List Record)
    (hid : ∀ i r, rows[i]? = some r → field readWord? .id r 1 = .ok i)
    (hbuild : ∀ i r s as, rows[i]? = some r → as.length = i → inv s as →
      ∃ a s', build s (.filled rows.length as) r i = (.ok a, s') ∧ inv s' (as ++ [a]))
    (s : σ) (hs : inv s []) :
    ∃ s' as, readNodes build rows s (.filled rows.length []) = (.ok (.filled rows.length as), s') ∧
      as.length = rows.length ∧ inv s' as := by
  -- the rows that are left are read from a table that is filled by the rows before them
  have hrest : ∀ (rest done : List Record) (s : σ) (as : List α), rows = done ++ rest →
      as.length = done.length → inv s as →
      ∃ s' as', readNodes build rest s (.filled rows.length as) = (.ok (.filled rows.length as'), s') ∧
        as'.length = rows.length ∧ inv s' as' := by
    intro rest
    induction rest with
    | nil =>
      intro done s as hrows hlen hs
      refine ⟨s, as, rfl, ?_, hs⟩
      rw [hlen, hrows, List.append_nil]
    | cons r rest ih =>
      intro done s as hrows hlen hs
      have hget : rows[as.length]? = some r := by
        rw [hrows, hlen, List.getElem?_append_right (Nat.le_refl _), Nat.sub_self]
        rfl
      have hlt : as.length < rows.length := (List.getElem?_eq_some_iff.1 hget).1
      obtain ⟨a, s₁, hb, hs₁⟩ := hbuild as.length r s as hget rfl hs
      obtain ⟨s', as', hread, hlen', hs'⟩ := ih (done ++ [r]) s₁ (as ++ [a]) (by simpa using hrows)
        (by simp [hlen]) hs₁
      refine ⟨s', as', ?_, hlen', hs'⟩
      unfold readNodes
      simp only [hid as.length r hget, hb, Slots.set_filled hlt]
      exact hread
  exact hrest rows [] s [] rfl rfl hs

/-- Rows that stand on the lines of a file are read by what their fields say. -/
theorem readNodes_numbered (inv : σ → List α → Prop) (rows : List (List Field)) (first : Nat)
    (hid : ∀ i fs, rows[i]? = some fs → fs[1]? = some (natField i) ∧ i < Decimal.pow2 32)
    (hbuild : ∀ i fs line s as, rows[i]? = some fs → as.length = i → inv s as →
      ∃ a s', build s (.filled rows.length as) ⟨line, fs⟩ i = (.ok a, s') ∧ inv s' (as ++ [a]))
    (s : σ) (hs : inv s []) :
    ∃ s' as, readNodes build (numbered first rows) s (.filled rows.length [])
      = (.ok (.filled rows.length as), s') ∧ as.length = rows.length ∧ inv s' as := by
  have hlen : (numbered first rows).length = rows.length := length_numbered _ _
  have hids : ∀ i r, (numbered first rows)[i]? = some r → field readWord? .id r 1 = .ok i := by
    intro i r hr
    rw [getElem?_numbered] at hr
    obtain ⟨fs, hfs, rfl⟩ := Option.map_eq_some_iff.1 hr
    obtain ⟨hone, hword⟩ := hid i fs hfs
    exact field_eq_ok.2 ⟨_, hone, readWord?_natField hword⟩
  rw [← hlen]
  refine readNodes_rows inv _ hids (fun i r s as hr hlen' hinv => ?_) s hs
  rw [getElem?_numbered] at hr
  obtain ⟨fs, hfs, rfl⟩ := Option.map_eq_some_iff.1 hr
  rw [hlen]
  exact hbuild i fs _ s as hfs hlen' hinv

/-- The header of a written file declares as many rows as follow it. -/
theorem readHeader_fileOf {tags : List Field} {comments : List (List Char)} {tag : Field}
    {rows : List (List Field)} (hcomments : ∀ l ∈ comments, l.head? = some 'c' ∧ '\n' ∉ l)
    (htag : tag ∈ tags) (hrow : IsRow [tag, natField rows.length]) (hrows : ∀ fs ∈ rows, IsRow fs)
    (hcount : rows.length < Decimal.pow2 64) :
    readHeader tags (fileOf comments ([tag, natField rows.length] :: rows))
      = .ok (rows.length, numbered (1 + comments.length + 1) rows) := by
  have hall : ∀ fs ∈ [tag, natField rows.length] :: rows, IsRow fs := by
    intro fs hfs
    rcases List.mem_cons.1 hfs with rfl | hfs
    · exact hrow
    · exact hrows fs hfs
  obtain ⟨hlines, hrecords⟩ := records_fileOf hcomments hall
  have hdeclared : field readCount? .nodeCount ⟨1 + comments.length, [tag, natField rows.length]⟩ 1
      = .ok rows.length := field_eq_ok.2 ⟨_, rfl, readCount?_natField hcount⟩
  unfold readHeader
  rw [hrecords, hlines]
  simp only [numbered]
  rw [if_neg (by simp [Format.tag, htag]), hdeclared]
  simp only [ok_bind]
  -- the file has a line for every row, so the count is one that it can declare
  rw [if_neg (by simp; omega)]
  rfl

/-- Reading a file whose rows can be built one behind the other answers with the last node. -/
theorem readText_fileOf {tags : List Field} {comments : List (List Char)} {tag : Field}
    {rows : List (List Field)} (hcomments : ∀ l ∈ comments, l.head? = some 'c' ∧ '\n' ∉ l)
    (htag : tag ∈ tags) (hrow : IsRow [tag, natField rows.length]) (hrows : ∀ fs ∈ rows, IsRow fs)
    (hcount : rows.length < Decimal.pow2 64) (inv : σ → List α → Prop)
    (hid : ∀ i fs, rows[i]? = some fs → fs[1]? = some (natField i) ∧ i < Decimal.pow2 32)
    (hbuild : ∀ i fs line s as, rows[i]? = some fs → as.length = i → inv s as →
      ∃ a s', build s (.filled rows.length as) ⟨line, fs⟩ i = (.ok a, s') ∧ inv s' (as ++ [a]))
    (s : σ) (hs : inv s []) (hne : rows ≠ []) :
    ∃ a s' as, readText tags build s (fileOf comments ([tag, natField rows.length] :: rows))
      = (.ok a, s') ∧ as.length = rows.length ∧ as.getLast? = some a ∧ inv s' as := by
  obtain ⟨s', as, hread, hlen, hinv⟩ :=
    readNodes_numbered inv rows (1 + comments.length + 1) hid hbuild s hs
  have hlast : as.getLast?.isSome := by
    rw [List.getLast?_isSome]
    intro hnil
    rw [hnil] at hlen
    exact hne (List.length_eq_zero_iff.1 hlen.symm)
  obtain ⟨a, ha⟩ := Option.isSome_iff_exists.1 hlast
  refine ⟨a, s', as, ?_, hlen, ha, hinv⟩
  unfold readText
  rw [readHeader_fileOf hcomments htag hrow hrows hcount]
  simp only [Slots.ofCount_eq, hread]
  rw [ok_bind, Slots.finish_filled hlen ha]

end Sentential.Format
