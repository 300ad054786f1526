import Sentential.Format.VtreeTable
import Sentential.Proofs.Format.NoFault
import Sentential.Proofs.Vtree.Assembly
import Sentential.Proofs.Vtree.Grammar

/-!
# Vtree files by trees and by tables

A vtree file is read into the trees of its records or into a table of cells. Record by record the
names and the cells are those of the trees (`readNodes_noteCell`), and behind the last record both
readers look for the same flaws in the same order (`Shelf.assemble_eq`). So they are one reader
(`Listing.ofFileText_eq`): they accept the same texts with the same vtree, and refuse the others
with the same error. As the one that builds trees never faults, the one that fills tables does not
either.

The stack that the writer works off gives the lines of the trees on it, one after the other
(`linesOf_eq`), so the file of a vtree is the same by trees and by tables
(`Proper.fileText_listing`).
-/

namespace Sentential

open Text (Field Record natField render renderFields)

/-! ## Names for nodes -/

namespace Format.Slots

variable {α β : Type}

/-- The table with other nodes under the same numbers. -/
def map (f : α → β) (t : Slots α) : Slots β := ⟨t.slots.map (Option.map f), t.found, t.last.map f⟩

theorem map_ofCount (f : α → β) (n : Nat) : (ofCount n : Slots α).map f = ofCount n := by
  unfold map ofCount
  simp

theorem get_map (f : α → β) (t : Slots α) (line id : Nat) :
    (t.map f).get line id = (t.get line id).map f := by
  unfold get map
  rw [Array.getElem?_map]
  rcases t.slots[id]? with _ | _ | a <;> rfl

theorem set_map (f : α → β) (t : Slots α) (line id : Nat) (a : α) :
    (t.map f).set line id (f a) = (t.set line id a).map (map f) := by
  unfold set map
  rw [Array.getElem?_map]
  rcases t.slots[id]? with _ | _ | b
  · simp [Except.map]
  · simp [Except.map, Array.map_setIfInBounds]
  · simp [Except.map]

theorem finish_map (f : α → β) (t : Slots α) : (t.map f).finish = t.finish.map f := by
  unfold finish map
  rw [Array.size_map]
  split
  · rfl
  · cases t.last <;> rfl

end Format.Slots

namespace Vtree

open Format

/-! ## Trees of records -/

theorem noFault_readTree (t : Slots Tree) (r : Record) (i : Nat) : NoFault (readTree t r i) := by
  unfold readTree
  split
  · refine .bind (noFault_expectFields _ _) fun _ _ => ?_
    exact .bind (noFault_field _ _ _ _) fun var _ => .ok _
  · refine .bind (noFault_expectFields _ _) fun _ _ => .bind (noFault_field _ _ _ _) fun k _ => ?_
    refine .bind (t.noFault_get _ _) fun left _ => .bind (noFault_field _ _ _ _) fun m _ => ?_
    exact .bind (t.noFault_get _ _) fun right _ => .ok _
  · exact .defect _ _

theorem noFault_ofFileText (text : List Char) : NoFault (ofFileText text) := by
  rw [ofFileText]
  refine .bind (noFault_readHeader _ _) fun header _ => ?_
  refine .bind ?_ fun t _ => .bind t.noFault_finish fun root _ => ?_
  · exact noFault_readNodes (p := fun _ _ => True) (fun _ t r i _ => noFault_readTree t r i)
      (fun _ _ _ _ _ _ _ _ _ _ => trivial) header.2 () _ trivial
  · split
    · exact .defect _ _
    · exact .ok _

/-- The records of a text can be read up to its end, as these trees in the order of their numbers
and the tree of the last record. The reader checks for flaws in this situation only. -/
def Gathers (text : List Char) (trees : List Tree) (root : Tree) : Prop :=
  ∃ n rs t, readHeader ["vtree".toList] text = .ok (n, rs) ∧
    readNodes (fun (_ : Unit) t r id => (readTree t r id, ())) rs () (.ofCount n) = (.ok t, ()) ∧
    t.finish = .ok root ∧ trees = t.slots.toList.filterMap fun o => o

/-- The trees of the records are those that the rows of the text name. -/
theorem Gathers.exists_listed {text : List Char} {trees : List Tree} {root : Tree}
    (h : Gathers text trees root) : ∃ entries named,
      IsFile IsVtreeRow ["vtree".toList] (Text.rows text) named ∧ Listed trees entries named ∧
      root ∈ trees := by
  obtain ⟨n, rs, t, hheader, hread, hfinish, rfl⟩ := h
  obtain ⟨entries, named, hfile, ht, hgrown, hroot⟩ :=
    follows_readTree.isFile_of_read .nil hheader hread hfinish
  obtain ⟨⟨m, root⟩, hlast, rfl⟩ := Option.map_eq_some_iff.1 hroot
  have hlisted := listed ht hgrown hfinish
  exact ⟨entries, named, hfile, hlisted, hlisted.root_mem hlast⟩

theorem Gathers.shelf {text : List Char} {trees : List Tree} {root : Tree}
    (h : Gathers text trees root) : Shelf trees ∧ root ∈ trees := by
  obtain ⟨entries, named, -, hlisted, hroot⟩ := h.exists_listed
  exact ⟨hlisted.shelf, hroot⟩

/-- There are no more trees than words. If no tree is a side twice the last one is not larger than
all of them are, and its leaves can be counted with words. -/
theorem Gathers.sizes {text : List Char} {trees : List Tree} {root : Tree}
    (h : Gathers text trees root) : trees.length ≤ Decimal.pow2 32 ∧
      (firstShared? root.id [] (trees.flatMap Tree.children) = none →
        root.size ≤ trees.length ∧ root.varCount < Decimal.pow2 32) := by
  obtain ⟨entries, named, hfile, hlisted, hroot⟩ := h.exists_listed
  have hlength : trees.length ≤ Decimal.pow2 32 := by
    rw [hlisted.perm.length_eq, List.length_map, List.Forall₂.length_eq hlisted.grown]
    refine hfile.length_le fun earlier fs i x hrow => ?_
    cases hrow with
    | leaf hread _ => exact readWord?_lt hread
    | fork hread _ _ _ _ => exact readWord?_lt hread
  refine ⟨hlength, fun hunshared => ?_⟩
  have hsize := (hlisted.table (firstShared?_eq_none.1 hunshared).2.1).size_le hroot
  have hcount := root.size_add_one
  have hpow : Decimal.pow2 32 = 4294967296 := by decide
  exact ⟨hsize, by omega⟩

/-! ## Cells of records -/

/-- The cell of a record is that of its tree. -/
theorem readCell_eq (t : Slots Tree) (r : Record) (id : Nat) :
    readCell (t.map Tree.id) r = (readTree t r id).map Tree.cell := by
  fun_cases readTree t r id with
  | case1 htag =>
    unfold readCell
    simp only [htag]
    cases expectFields 3 r with
    | error e => rfl
    | ok _ => cases field readWord? .variable r 2 <;> rfl
  | case2 htag =>
    unfold readCell
    simp only [htag, Slots.get_map]
    cases expectFields 4 r with
    | error e => rfl
    | ok _ =>
      simp only [ok_bind]
      cases field readWord? .leftChild r 2 with
      | error e => rfl
      | ok left =>
        simp only [ok_bind]
        cases t.get r.line left with
        | error e => rfl
        | ok l =>
          simp only [Except.map, ok_bind]
          cases field readWord? .rightChild r 3 with
          | error e => rfl
          | ok right =>
            simp only [ok_bind]
            cases t.get r.line right <;> rfl
  | case3 hleaf hfork =>
    unfold readCell
    split
    · next htag => exact absurd htag hleaf
    · next htag => exact absurd htag hfork
    · rfl

theorem id_of_readTree {t : Slots Tree} {r : Record} {id : Nat} {u : Tree}
    (h : readTree t r id = .ok u) : u.id = ⟨id⟩ := by
  unfold readTree at h
  split at h
  · obtain ⟨-, -, h⟩ := bind_eq_ok.1 h
    obtain ⟨var, -, h⟩ := bind_eq_ok.1 h
    obtain rfl := Except.ok.inj h
    rfl
  · obtain ⟨-, -, h⟩ := bind_eq_ok.1 h
    obtain ⟨left, -, h⟩ := bind_eq_ok.1 h
    obtain ⟨l, -, h⟩ := bind_eq_ok.1 h
    obtain ⟨right, -, h⟩ := bind_eq_ok.1 h
    obtain ⟨r', -, h⟩ := bind_eq_ok.1 h
    obtain rfl := Except.ok.inj h
    rfl
  · exact absurd h (by simp)

/-- The cells of the trees in a table, each at the number of its tree. -/
def cellsOf (t : Slots Tree) : Array (Option Cell) := t.slots.map (Option.map Tree.cell)

/-- Record by record the names and the cells are those of the trees, up to the first record that is
refused. -/
theorem readNodes_noteCell (rs : List Record) (t : Slots Tree) :
    (readNodes noteCell rs (cellsOf t) (t.map Tree.id)).1
      = (readNodes (fun (_ : Unit) t r id => (readTree t r id, ())) rs () t).1.map (Slots.map Tree.id) ∧
    ∀ t', (readNodes (fun (_ : Unit) t r id => (readTree t r id, ())) rs () t).1 = .ok t' →
      (readNodes noteCell rs (cellsOf t) (t.map Tree.id)).2 = cellsOf t' := by
  induction rs generalizing t with
  | nil => exact ⟨rfl, fun t' h => congrArg cellsOf (Except.ok.inj h)⟩
  | cons r rs ih =>
    unfold readNodes
    cases field readWord? .id r 1 with
    | error e => exact ⟨rfl, fun t' h => absurd h (by simp)⟩
    | ok id =>
      have hcell := readCell_eq t r id
      unfold noteCell
      cases hu : readTree t r id with
      | error e =>
        simp only [hcell, hu, Except.map]
        exact ⟨trivial, fun t' h => absurd h (by simp)⟩
      | ok u =>
        simp only [hcell, hu, Except.map]
        rw [← id_of_readTree hu, Slots.set_map]
        cases hset : t.set r.line id u with
        | error e => exact ⟨rfl, fun t' h => absurd h (by simp)⟩
        | ok t' =>
          have hcells : (cellsOf t).setIfInBounds id (some u.cell) = cellsOf t' := by
            obtain ⟨-, rfl⟩ := Slots.set_eq_ok.1 hset
            unfold cellsOf
            rw [Array.map_setIfInBounds, Option.map_some]
          simp only [Except.map, hcells]
          exact ih t'

/-- The cells of a table are the cells of its trees. -/
theorem filterMap_cellsOf (t : Slots Tree) :
    (cellsOf t).toList.filterMap id = (t.slots.toList.filterMap id).map Tree.cell := by
  unfold cellsOf
  rw [Array.toList_map, List.filterMap_map, List.map_filterMap]
  rfl

/-! ## One reader -/

/-- Reading into tables is reading into trees: texts are accepted with the same vtree and refused
with the same error. -/
theorem Listing.ofFileText_eq (text : List Char) :
    Listing.ofFileText text = (Vtree.ofFileText text).map listing := by
  unfold Listing.ofFileText Vtree.ofFileText
  cases hheader : readHeader ["vtree".toList] text with
  | error e => rfl
  | ok header =>
    obtain ⟨n, rs⟩ := header
    have hstart : cellsOf (.ofCount n) = Array.replicate n none := by
      unfold cellsOf Slots.ofCount
      simp
    obtain ⟨hnames, hcells⟩ := readNodes_noteCell rs (.ofCount n)
    rw [hstart, Slots.map_ofCount] at hnames hcells
    simp only [ok_bind, hnames]
    rcases hread : readNodes (fun (_ : Unit) t r id => (readTree t r id, ())) rs () (.ofCount n)
      with ⟨e | t, ⟨⟩⟩
    · rfl
    · rw [hread] at hcells
      simp only [Except.map, ok_bind, Slots.finish_map, hcells t rfl]
      cases hfinish : t.finish with
      | error e => rfl
      | ok root =>
        have hgathers : Gathers text _ root := ⟨n, rs, t, hheader, hread, hfinish, rfl⟩
        obtain ⟨hshelf, hroot⟩ : Shelf (t.slots.toList.filterMap id) ∧
            root ∈ t.slots.toList.filterMap id := hgathers.shelf
        simp only [ok_bind, filterMap_cellsOf,
          hshelf.assemble_eq hroot hgathers.sizes.1, format_liftM_ok]
        cases flaw? (t.slots.toList.filterMap id) root <;> rfl

/-- Reading into tables does not fault: no access is outside a table, no count is too large for a
word, the walk comes to an end, and the leaf of every variable is found. -/
theorem Listing.noFault_ofFileText (text : List Char) : NoFault (Listing.ofFileText text) := by
  rw [Listing.ofFileText_eq]
  cases h : Vtree.ofFileText text with
  | error e => exact (Vtree.noFault_ofFileText text).of_eq_error h
  | ok v => exact .ok _

/-! ## One writer -/

/-- The stack gives the lines of the tree on top of it, and then those of the rest. -/
theorem linesOf_eq {cells : Array Cell} {t : Tree} (hcells : Holds cells t) (fuel : Nat)
    (stack : List (VtreeId × Bool)) : linesOf cells (t.rounds + fuel) ((t.id, false) :: stack)
      = (linesOf cells fuel stack).map (t.lines ++ ·) := by
  induction t generalizing fuel stack with
  | leaf id var =>
    have hcell : cells[id.raw]? = some (.leaf var) := hcells _ (Tree.self_mem_subtrees _)
    rw [show (Tree.leaf id var).rounds + fuel = fuel + 1 from Nat.add_comm 1 fuel, linesOf,
      show (Tree.leaf id var).id = id from rfl, hcell]
    cases linesOf cells fuel stack <;> rfl
  | fork id l r ihl ihr =>
    have hcell : cells[id.raw]? = some (.fork l.id r.id) := hcells _ (Tree.self_mem_subtrees _)
    rw [Holds, Tree.subtrees_fork, List.forall_mem_cons, List.forall_mem_append] at hcells
    obtain ⟨-, hl, hr⟩ := hcells
    -- both sides are written before the fork is met again
    have hfuel : (Tree.fork id l r).rounds + fuel = (l.rounds + (r.rounds + (fuel + 1))) + 1 := by
      rw [Tree.rounds]
      omega
    rw [hfuel, linesOf, show (Tree.fork id l r).id = id from rfl, hcell]
    simp only [Bool.false_eq_true, if_false]
    rw [ihl hl, ihr hr, linesOf, hcell, Tree.lines_fork]
    cases linesOf cells fuel stack with
    | error e => rfl
    | ok lines => simp [Except.map, Cell.line, Tree.line]

/-- The file of a proper vtree is the same by tables. -/
theorem Proper.fileText_listing {v : Vtree} (h : v.Proper) : v.listing.fileText = .ok v.fileText := by
  obtain ⟨t, ht, rfl⟩ := h
  have hsize : ((ofTree t).subtrees.map Tree.cell).size = t.size := by
    rw [Array.size_map]
    exact numNodes_ofTree t
  have hlines : linesOf ((ofTree t).subtrees.map Tree.cell) (2 * t.size) [(t.id, false)]
      = .ok t.lines := by
    have hholds : Holds ((ofTree t).subtrees.map Tree.cell) t := by
      have hperm := ht.toList_subtrees_perm
      have hcells := ht.shelf.holds (t := t) fun u hu => hperm.mem_iff.2 hu
      rwa [← Array.toList_map, Array.toArray_toList] at hcells
    rw [← t.rounds_add_varCount, linesOf_eq hholds]
    have hnil : linesOf ((ofTree t).subtrees.map Tree.cell) t.varCount [] = .ok [] := by
      cases t.varCount <;> rfl
    rw [hnil, Except.map, List.append_nil]
  unfold Listing.fileText
  show (do
    let lines ← linesOf ((ofTree t).subtrees.map Tree.cell)
      (2 * ((ofTree t).subtrees.map Tree.cell).size) [(t.id, false)]
    return render (fileHeader.map String.toList ++
      (["vtree".toList, natField ((ofTree t).subtrees.map Tree.cell).size] :: lines).map
        renderFields)) = _
  rw [hsize, hlines, ok_bind]
  unfold Vtree.fileText
  rw [numNodes_ofTree, root_ofTree]
  rfl

end Vtree
end Sentential
