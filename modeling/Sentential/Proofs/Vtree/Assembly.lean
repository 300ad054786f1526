import Sentential.Proofs.Vtree.Under
import Sentential.Vtree.Assembly

/-!
# Assembling the nodes of trees

Trees that bear the numbers of their places can be looked at as trees (`flaw?`), or their cells can
be put into a table that is looked at as a whole (`assemble`). Both find the same, check by check,
and what comes out of cells in which there is nothing to find is the vtree of the root in the form
of tables (`Shelf.assemble_eq`). There is no fault on the way: once no node is a side twice the walk
from the root comes to an end (`Tree.census_eq`), and leaves with the variables `1, …, n` fill a
place for every variable.

The order in which the places of a table are filled does not matter as long as none is filled twice
(`fill_perm`).
-/

namespace Sentential.Vtree

open Format (Defect)

/-! ## Filling a table -/

section Filling

variable {α γ β : Type} {key : β → Nat} {val : β → α} {xs ys : List β}

/-- Different places can be filled in any order. -/
theorem fill_perm (h : xs.Perm ys) (hnodup : (xs.map key).Nodup) (table : Array α) :
    fill key val xs table = fill key val ys table := by
  have hnodup' : (ys.map key).Nodup := (h.map key).nodup_iff.1 hnodup
  apply Array.ext_getElem?
  intro i
  by_cases hi : i ∈ xs.map key
  · obtain ⟨x, hx, rfl⟩ := List.mem_map.1 hi
    by_cases hlt : key x < table.size
    · rw [getElem?_fill key val hnodup hx hlt, getElem?_fill key val hnodup' (h.mem_iff.1 hx) hlt]
    · rw [Array.getElem?_eq_none (by rw [size_fill]; omega),
        Array.getElem?_eq_none (by rw [size_fill]; omega)]
  · rw [getElem?_fill_of_notMem key val hi,
      getElem?_fill_of_notMem key val (fun hy => hi ((h.map key).mem_iff.2 hy))]

theorem map_fill (g : α → γ) (xs : List β) (table : Array α) :
    (fill key val xs table).map g = fill key (fun x => g (val x)) xs (table.map g) := by
  induction xs generalizing table with
  | nil => rfl
  | cons x xs ih =>
    show (fill key val xs (table.setIfInBounds (key x) (val x))).map g = _
    rw [ih, Array.map_setIfInBounds]
    rfl

/-- Where every place is filled it does not matter what was there before. -/
theorem fill_of_covers (hnodup : (xs.map key).Nodup) {n : Nat}
    (hcovers : ∀ i < n, i ∈ xs.map key) {table table' : Array α} (hsize : table.size = n)
    (hsize' : table'.size = n) : fill key val xs table = fill key val xs table' := by
  apply Array.ext_getElem?
  intro i
  by_cases hi : i < n
  · obtain ⟨x, hx, rfl⟩ := List.mem_map.1 (hcovers i hi)
    rw [getElem?_fill key val hnodup hx (by omega), getElem?_fill key val hnodup hx (by omega)]
  · rw [Array.getElem?_eq_none (by rw [size_fill]; omega),
      Array.getElem?_eq_none (by rw [size_fill]; omega)]

theorem not_filled_replicate (n i : Nat) (a : α) :
    (Array.replicate n none)[i]? ≠ some (some a) := by
  rw [Array.getElem?_replicate]
  split <;> simp

theorem mapM_filled (xs : List α) : (xs.map some).mapM filled = .ok xs := by
  induction xs with
  | nil => rfl
  | cons x xs ih =>
    rw [List.map_cons, List.mapM_cons, ih]
    rfl

/-- A table in which every place is filled once holds what it was filled with. -/
theorem mapM_filled_fill (hnodup : (xs.map key).Nodup) {n : Nat}
    (hcovers : ∀ i < n, i ∈ xs.map key) (a : α) :
    (fill key (fun x => some (val x)) xs (.replicate n none)).toList.mapM filled
      = .ok (fill key val xs (.replicate n a)).toList := by
  have hmap : (fill key val xs (.replicate n a)).map some
      = fill key (fun x => some (val x)) xs (.replicate n none) := by
    rw [map_fill]
    exact fill_of_covers hnodup hcovers (by simp) (by simp)
  rw [← hmap, Array.toList_map, mapM_filled]

end Filling

theorem word_of_lt {n : Nat} (h : n < Decimal.pow2 32) : word n = n := Nat.mod_eq_of_lt h

/-! ## The nodes of a tree in the form of tables -/

/-- The topmost node of a tree without what is below it. -/
def Tree.cell : Tree → Cell
  | leaf _ var => .leaf var
  | fork _ l r => .fork l.id r.id

@[simp] theorem Tree.children_cell (t : Tree) : t.cell.children = t.children := by cases t <;> rfl

@[simp] theorem Tree.var?_cell (t : Tree) : t.cell.var? = t.var? := by cases t <;> rfl

/-- The tables of a vtree. -/
def listing (v : Vtree) : Listing where
  cells := v.subtrees.map Tree.cell
  parents := v.parents
  varCounts := v.subtrees.map Tree.varCount
  leaves := v.leaves
  root := v.root.id

/-- The cells at the names of the trees within a tree, in the places of a table. -/
def Holds (cells : Array Cell) (t : Tree) : Prop :=
  ∀ u ∈ t.subtrees, cells[u.id.raw]? = some u.cell

namespace Tree

/-! ## The walk -/

/-- How often the walk through a tree takes a node off the stack: a leaf once and a fork twice. -/
def rounds : Tree → Nat
  | leaf .. => 1
  | fork _ l r => l.rounds + r.rounds + 2

theorem rounds_add_varCount (t : Tree) : t.rounds + t.varCount = 2 * t.size := by
  induction t with
  | leaf id var => rfl
  | fork id l r ihl ihr =>
    rw [rounds, varCount, size]
    omega

/-- The numbers of variables of all trees within a tree, entered at their names. -/
def enterCounts (t : Tree) (counts : Array Nat) : Array Nat :=
  fill (fun u : Tree => u.id.raw) varCount t.bottomUp counts

theorem size_enterCounts (t : Tree) (counts : Array Nat) : (t.enterCounts counts).size = counts.size :=
  size_fill _ _ _ _

theorem enterCounts_fork (id : VtreeId) (l r : Tree) (counts : Array Nat) :
    (fork id l r).enterCounts counts
      = (r.enterCounts (l.enterCounts counts)).setIfInBounds id.raw (l.varCount + r.varCount) := by
  unfold enterCounts fill
  rw [bottomUp, List.foldl_append, List.foldl_append]
  rfl

/-- The number of variables of the tree can be read at its name. -/
theorem getElem?_enterCounts (t : Tree) (hnodup : (t.subtrees.map fun u => u.id.raw).Nodup)
    {counts : Array Nat} (hlt : t.id.raw < counts.size) :
    (t.enterCounts counts)[t.id.raw]? = some t.varCount :=
  getElem?_fill _ _ ((t.bottomUp_perm.map _).nodup_iff.2 hnodup)
    (t.bottomUp_perm.mem_iff.2 t.self_mem_subtrees) hlt

/-- Entering the counts of a tree leaves the other names as they are. -/
theorem getElem?_enterCounts_of_notMem {t : Tree} {i : Nat}
    (h : i ∉ t.subtrees.map fun u => u.id.raw) (counts : Array Nat) :
    (t.enterCounts counts)[i]? = counts[i]? :=
  getElem?_fill_of_notMem _ _ (fun hi => h ((t.bottomUp_perm.map _).mem_iff.1 hi)) counts

/-- The walk through a tree on top of the stack enters the counts of the tree and goes on with the
rest of the stack. -/
theorem census_eq {cells : Array Cell} {t : Tree} (hcells : Holds cells t)
    (hnodup : (t.subtrees.map fun u => u.id.raw).Nodup) (hvars : t.varCount < Decimal.pow2 32)
    (fuel : Nat) (stack : List (VtreeId × Bool)) {c : Census}
    (hlt : ∀ u ∈ t.subtrees, u.id.raw < c.varCounts.size) :
    census cells (t.rounds + fuel) ((t.id, false) :: stack) c = census cells fuel stack
      ⟨t.enterCounts c.varCounts, c.leaves + t.varCount, c.visited + t.size⟩ := by
  induction t generalizing fuel stack c with
  | leaf id var =>
    have hcell : cells[id.raw]? = some (.leaf var) := hcells _ (self_mem_subtrees _)
    rw [show (leaf id var).rounds + fuel = fuel + 1 from Nat.add_comm 1 fuel, census,
      show (leaf id var).id = id from rfl, hcell]
    rfl
  | fork id l r ihl ihr =>
    have hcell : cells[id.raw]? = some (.fork l.id r.id) := hcells _ (self_mem_subtrees _)
    rw [Holds, subtrees_fork, List.forall_mem_cons, List.forall_mem_append] at hcells
    rw [subtrees_fork, List.forall_mem_cons, List.forall_mem_append] at hlt
    rw [subtrees_fork, List.map_cons, List.nodup_cons, List.map_append, List.nodup_append'] at hnodup
    obtain ⟨-, hl, hr⟩ := hcells
    obtain ⟨-, hltl, hltr⟩ := hlt
    obtain ⟨-, hnodupl, hnodupr, hdisjoint⟩ := hnodup
    rw [varCount] at hvars
    -- both sides are counted before the fork is met again
    have hfuel : (fork id l r).rounds + fuel = (l.rounds + (r.rounds + (fuel + 1))) + 1 := by
      rw [rounds]
      omega
    rw [hfuel, census, show (fork id l r).id = id from rfl, hcell]
    simp only [Bool.false_eq_true, if_false]
    rw [ihl hl hnodupl (by omega) _ _ hltl,
      ihr hr hnodupr (by omega) _ _ (by simpa only [size_enterCounts] using hltr), census, hcell]
    have hleft : (r.enterCounts (l.enterCounts c.varCounts))[l.id.raw]? = some l.varCount := by
      rw [getElem?_enterCounts_of_notMem fun hmem =>
        hdisjoint (List.mem_map_of_mem l.self_mem_subtrees) hmem]
      exact l.getElem?_enterCounts hnodupl (hltl l l.self_mem_subtrees)
    have hright : (r.enterCounts (l.enterCounts c.varCounts))[r.id.raw]? = some r.varCount :=
      r.getElem?_enterCounts hnodupr (by
        rw [size_enterCounts]
        exact hltr r r.self_mem_subtrees)
    simp only [if_true, hleft, hright, if_pos hvars]
    rw [enterCounts_fork, varCount, size, Census.note, Nat.add_zero, Nat.add_assoc c.leaves,
      Nat.add_assoc c.visited, Nat.add_assoc c.visited]

end Tree

/-! ## Cells of trees at their places -/

/-- Every side of some trees together with the tree. -/
def edgesAmong (trees : List Tree) : List (VtreeId × VtreeId) :=
  trees.flatMap fun u => u.children.map fun c => (c, u.id)

/-- The variable and the name of every leaf among some trees. -/
def leavesAmong (trees : List Tree) : List (Nat × VtreeId) :=
  trees.filterMap fun u => u.var?.map fun var => (var, u.id)

theorem map_fst_edgesAmong (trees : List Tree) :
    (edgesAmong trees).map Prod.fst = trees.flatMap Tree.children := by
  unfold edgesAmong
  rw [List.map_flatMap]
  congr 1
  funext u
  rw [List.map_map]
  exact List.map_id _

theorem map_fst_leavesAmong (trees : List Tree) :
    (leavesAmong trees).map Prod.fst = trees.filterMap Tree.var? := by
  unfold leavesAmong
  rw [List.map_filterMap]
  congr 1
  funext u
  cases u <;> rfl

namespace Shelf

variable {trees : List Tree} (h : Shelf trees) (hsize : trees.length ≤ Decimal.pow2 32)
include h hsize

/-- The names of the nodes are the words of their places. -/
theorem zipIdx_cells :
    (trees.map Tree.cell).zipIdx.map (fun x => (x.1, (⟨word x.2⟩ : VtreeId)))
      = trees.map fun u => (u.cell, u.id) := by
  apply List.ext_getElem?
  intro i
  rw [List.getElem?_map, List.getElem?_zipIdx, List.getElem?_map, List.getElem?_map]
  rcases hu : trees[i]? with _ | u
  · rfl
  · have hid := h.numbered i u hu
    have hlt := h.id_lt (List.mem_of_getElem? hu)
    have hname : (⟨word (0 + i)⟩ : VtreeId) = u.id := by
      rw [Nat.zero_add, ← hid, word_of_lt (by omega)]
    simp only [Option.map_some, hname]

theorem edgesOf_cells : edgesOf (trees.map Tree.cell).toArray = edgesAmong trees := by
  have hmap := congrArg
    (List.flatMap fun x : Cell × VtreeId => x.1.children.map fun c => (c, x.2))
    (h.zipIdx_cells hsize)
  rw [List.flatMap_map, List.flatMap_map] at hmap
  simp only [Tree.children_cell] at hmap
  exact hmap

theorem leavesOf_cells : leavesOf (trees.map Tree.cell).toArray = leavesAmong trees := by
  have hmap := congrArg
    (List.filterMap fun x : Cell × VtreeId => x.1.var?.map fun var => (var, x.2))
    (h.zipIdx_cells hsize)
  rw [List.filterMap_map, List.filterMap_map] at hmap
  simp only [Function.comp_def, Tree.var?_cell] at hmap
  exact hmap

end Shelf

/-! ## Parents and leaves, one after the other -/

/-- The parent of a node is noted unless the node is the root or is among those that have one. -/
theorem adopt_eq {root : VtreeId} {seen : List VtreeId} {parents : Array (Option VtreeId)}
    {e : VtreeId × VtreeId} (hlt : e.1.raw < parents.size)
    (hseen : ∀ c : VtreeId, c ∈ seen ↔ ∃ p, parents[c.raw]? = some (some p)) :
    adopt root parents e = if e.1 = root ∨ e.1 ∈ seen then .error (.manyParents e.1)
      else .ok (parents.setIfInBounds e.1.raw (some e.2)) := by
  have hmem := hseen e.1
  unfold adopt
  rw [Array.getElem?_eq_getElem hlt] at hmem ⊢
  cases hp : parents[e.1.raw] with
  | none => simp [hmem, hp]
  | some p => simp [hmem, hp]

/-- All parents are noted, or there is a first node that already has one or is the root. -/
theorem foldlM_adopt {root : VtreeId} {edges : List (VtreeId × VtreeId)} (seen : List VtreeId)
    {parents : Array (Option VtreeId)} (hlt : ∀ e ∈ edges, e.1.raw < parents.size)
    (hseen : ∀ c : VtreeId, c ∈ seen ↔ ∃ p, parents[c.raw]? = some (some p)) :
    edges.foldlM (adopt root) parents = match firstShared? root seen (edges.map Prod.fst) with
      | some c => .error (.manyParents c)
      | none => .ok (fill (fun e => e.1.raw) (fun e => some e.2) edges parents) := by
  induction edges generalizing seen parents with
  | nil => rfl
  | cons e edges ih =>
    obtain ⟨he, hlt⟩ := List.forall_mem_cons.1 hlt
    rw [List.foldlM_cons, adopt_eq he hseen, List.map_cons, firstShared?]
    by_cases hshared : e.1 = root ∨ e.1 ∈ seen
    · rw [if_pos hshared, if_pos hshared]
      rfl
    · rw [if_neg hshared, if_neg hshared, ok_bind]
      refine ih (e.1 :: seen) (by simpa using hlt) fun c => ?_
      -- the node itself has a parent now, and the others are as before
      rw [List.mem_cons, Array.getElem?_setIfInBounds]
      by_cases hc : c = e.1
      · simp [hc, he]
      · have hne : e.1.raw ≠ c.raw := fun heq => hc (congrArg VtreeId.mk heq.symm)
        simp [hc, hne, hseen]

/-- The leaf of a variable is noted unless the variable is out of range or among those that have
one. -/
theorem settle_eq {seen : List Nat} {leaves : Array (Option VtreeId)} {l : Nat × VtreeId}
    (hseen : ∀ var, var ≠ 0 → (var ∈ seen ↔ ∃ id, leaves[var - 1]? = some (some id))) :
    settle leaves l = if l.1 = 0 ∨ leaves.size < l.1 then .error (.variableRange l.1 leaves.size)
      else if l.1 ∈ seen then .error (.repeatedVariable l.1)
      else .ok (leaves.setIfInBounds (l.1 - 1) (some l.2)) := by
  unfold settle
  split
  · rfl
  · next hrange =>
    have hlt : l.1 - 1 < leaves.size := by omega
    have hmem := hseen l.1 (by omega)
    rw [Array.getElem?_eq_getElem hlt] at hmem ⊢
    cases hid : leaves[l.1 - 1] with
    | none => simp [hmem, hid]
    | some id => simp [hmem, hid]

/-- All leaves are noted, or there is a first one whose variable does not fit. -/
theorem foldlM_settle {ls : List (Nat × VtreeId)} (seen : List Nat)
    {leaves : Array (Option VtreeId)}
    (hseen : ∀ var, var ≠ 0 → (var ∈ seen ↔ ∃ id, leaves[var - 1]? = some (some id))) :
    ls.foldlM settle leaves = match misfit? leaves.size seen (ls.map Prod.fst) with
      | some what => .error what
      | none => .ok (fill (fun l => l.1 - 1) (fun l => some l.2) ls leaves) := by
  induction ls generalizing seen leaves with
  | nil => rfl
  | cons l ls ih =>
    rw [List.foldlM_cons, settle_eq hseen, List.map_cons, misfit?]
    by_cases hrange : l.1 = 0 ∨ leaves.size < l.1
    · rw [if_pos hrange, if_pos hrange]
      rfl
    · rw [if_neg hrange, if_neg hrange]
      by_cases hrepeated : l.1 ∈ seen
      · rw [if_pos hrepeated, if_pos hrepeated]
        rfl
      · rw [if_neg hrepeated, if_neg hrepeated, ok_bind]
        have hsize : (leaves.setIfInBounds (l.1 - 1) (some l.2)).size = leaves.size :=
          Array.size_setIfInBounds
        rw [← hsize]
        refine ih (l.1 :: seen) fun var hvar => ?_
        rw [List.mem_cons, Array.getElem?_setIfInBounds]
        by_cases heq : var = l.1
        · have hlt : l.1 - 1 < leaves.size := by omega
          simp [heq, hlt]
        · have hne : l.1 - 1 ≠ var - 1 := by omega
          simp [heq, hne, hseen var hvar]

/-! ## The cells as a whole -/

namespace Tree.Proper

variable {t : Tree} (h : t.Proper)
include h

theorem map_subtrees_ofTree {α : Type} (g : Tree → α) (a : α) :
    (ofTree t).subtrees.map g
      = fill (fun u : Tree => u.id.raw) g t.subtrees (.replicate t.size a) := by
  rw [subtrees_ofTree, map_fill]
  exact fill_of_covers h.raw_nodup (fun i hi => h.names_perm.mem_iff.2 (List.mem_range.2 hi))
    (by simp) (by simp)

theorem varCounts_ofTree :
    (ofTree t).subtrees.map varCount = t.enterCounts (.replicate t.size 0) := by
  rw [h.map_subtrees_ofTree varCount 0]
  exact fill_perm t.bottomUp_perm.symm h.raw_nodup _

/-- Every variable has a place of its own. -/
theorem places_perm : (t.leaves.map fun l => l.1 - 1).Perm (List.range t.varCount) := by
  have hvars := h.leafVars_perm.map (· - 1)
  rw [← map_fst_leaves, List.map_map, List.map_sub_range' (by omega), Nat.sub_self,
    ← List.range_eq_range'] at hvars
  exact hvars

end Tree.Proper

section

variable {trees : List Tree} {t root : Tree}

theorem Shelf.holds (h : Shelf trees) (hsub : t.subtrees ⊆ trees) :
    Holds (trees.map Tree.cell).toArray t := by
  intro u hu
  obtain ⟨i, hi⟩ := List.mem_iff_getElem?.1 (hsub hu)
  rw [h.numbered i u hi, List.getElem?_toArray, List.getElem?_map, hi]
  rfl

namespace Table

variable (h : Table trees) (hroot : root ∈ trees)
include h hroot

/-- If no node is a side twice the walk from a tree comes to an end, and no sum is too large for a
word. -/
theorem census_eq (hsize : trees.length ≤ Decimal.pow2 32) :
    census (trees.map Tree.cell).toArray (2 * trees.length) [(root.id, false)]
        ⟨.replicate trees.length 0, 0, 0⟩
      = .ok ⟨root.enterCounts (.replicate trees.length 0), root.varCount, root.size⟩ := by
  have hsub := h.subtrees_subset hroot
  have hle := h.size_le hroot
  have hcount := root.size_add_one
  have hrounds := root.rounds_add_varCount
  have hpos := root.varCount_pos
  have hnames : (root.subtrees.map fun u => u.id.raw).Nodup := by
    have hraw := (h.names_nodup hroot).map fun a b hab => congrArg VtreeId.mk hab
    rwa [List.map_map] at hraw
  have hone : 1 < Decimal.pow2 32 := by decide
  obtain ⟨fuel, hfuel⟩ : ∃ fuel, 2 * trees.length = root.rounds + fuel :=
    ⟨2 * trees.length - root.rounds, by omega⟩
  rw [hfuel, Tree.census_eq (h.holds hsub) hnames (by omega) fuel []
    (by simpa using fun u hu => h.id_lt (hsub hu)), Nat.zero_add, Nat.zero_add]
  cases fuel <;> rfl

/-- A tree that is as large as the table and fits makes a vtree with the trees of the table. -/
theorem subtrees_ofTree (hall : root.size = trees.length) (hproper : root.Proper) :
    (ofTree root).subtrees.toList = trees := by
  apply List.ext_getElem?
  intro i
  apply Option.ext
  intro u
  rw [Array.getElem?_toList]
  have hfound := subtree?_ofTree hproper ⟨i⟩ u
  rw [(h.subtrees_perm hroot hall).mem_iff] at hfound
  refine hfound.trans ⟨?_, fun hu => ⟨List.mem_of_getElem? hu, ?_⟩⟩
  · rintro ⟨hu, hid⟩
    obtain ⟨j, hj⟩ := List.mem_iff_getElem?.1 hu
    have hij : j = i := by rw [← h.numbered j u hj, hid]
    rwa [← hij]
  · exact congrArg VtreeId.mk (h.numbered i u hu)

/-- The tables of the vtree of the root are those that the trees fill. -/
theorem listing_ofTree (hall : root.size = trees.length) (hproper : root.Proper) :
    (ofTree root).listing = ⟨(trees.map Tree.cell).toArray,
      fill (fun e => e.1.raw) (fun e => some e.2) (edgesAmong trees) (.replicate trees.length none),
      root.enterCounts (.replicate trees.length 0),
      fill (fun l => l.1 - 1) Prod.snd (leavesAmong trees) (.replicate root.varCount root.id),
      root.id⟩ := by
  have hperm := h.subtrees_perm hroot hall
  have hparents : (ofTree root).parents = fill (fun e => e.1.raw) (fun e => some e.2)
      (edgesAmong trees) (.replicate trees.length none) := by
    rw [parents_ofTree, hall]
    exact fill_perm (hperm.flatMap_right _) hproper.children_nodup.1 _
  have hleaves : (ofTree root).leaves = fill (fun l => l.1 - 1) Prod.snd (leavesAmong trees)
      (.replicate root.varCount root.id) := by
    rw [leaves_ofTree]
    exact fill_perm (hperm.filterMap _) (hproper.places_perm.nodup_iff.2 List.nodup_range) _
  unfold listing
  rw [hparents, hleaves, hproper.varCounts_ofTree, hall, root_ofTree,
    ← h.subtrees_ofTree hroot hall hproper, ← Array.toList_map, Array.toArray_toList]

/-- A place of every variable is filled. -/
theorem mapM_filled_leaves (hall : root.size = trees.length) (hproper : root.Proper) :
    (fill (fun l => l.1 - 1) (fun l => some l.2) (leavesAmong trees)
        (.replicate root.varCount none)).toList.mapM filled
      = .ok (fill (fun l => l.1 - 1) Prod.snd (leavesAmong trees)
          (.replicate root.varCount root.id)).toList := by
  have hplaces : ((leavesAmong trees).map fun l => l.1 - 1).Perm (List.range root.varCount) :=
    (((h.subtrees_perm hroot hall).filterMap _).map _).symm.trans hproper.places_perm
  exact mapM_filled_fill (hplaces.nodup_iff.2 List.nodup_range)
    (fun i hi => hplaces.mem_iff.2 (List.mem_range.2 hi)) root.id

end Table

/-- Assembling the cells of trees at their places finds what there is to find in the trees, and there
is no fault on the way. If there is nothing to find, the vtree of the root comes out. -/
theorem Shelf.assemble_eq (h : Shelf trees) (hroot : root ∈ trees)
    (hsize : trees.length ≤ Decimal.pow2 32) :
    assemble (trees.map Tree.cell).toArray root.id = .ok (match flaw? trees root with
      | some what => .error what
      | none => .ok (ofTree root).listing) := by
  have hcells : (trees.map Tree.cell).toArray.size = trees.length := by simp
  have hedges : ∀ e ∈ edgesAmong trees, e.1.raw
      < (Array.replicate trees.length (none : Option VtreeId)).size := by
    intro e he
    rw [Array.size_replicate]
    apply h.child_lt
    rw [← map_fst_edgesAmong]
    exact List.mem_map_of_mem he
  unfold assemble flaw?
  rw [hcells, if_neg (Nat.not_le.2 (h.id_lt hroot)), h.edgesOf_cells hsize,
    foldlM_adopt [] hedges (by simp [not_filled_replicate]), map_fst_edgesAmong]
  cases hshared : firstShared? root.id [] (trees.flatMap Tree.children) with
  | some c => rfl
  | none =>
    have htable : Table trees := ⟨h, (firstShared?_eq_none.1 hshared).2.1⟩
    have hle := htable.size_le hroot
    simp only [htable.census_eq hroot hsize, ok_bind, if_neg (Nat.not_lt.2 hle)]
    by_cases hall : root.size = trees.length
    · rw [if_neg (by omega), if_neg (not_not.2 hall), h.leavesOf_cells hsize,
        foldlM_settle [] (by simp [not_filled_replicate]), map_fst_leavesAmong,
        Array.size_replicate]
      cases hmisfit : misfit? root.varCount [] (trees.filterMap Tree.var?) with
      | some what => rfl
      | none =>
        obtain ⟨hrange, hvars, -⟩ := misfit?_eq_none.1 hmisfit
        have hproper := htable.proper hroot hall hrange hvars
        simp only [htable.mapM_filled_leaves hroot hall hproper, ok_bind,
          htable.listing_ofTree hroot hall hproper]
        rfl
    · rw [if_pos (by omega), if_pos hall]
      rfl

end

/-! ## The cells of a proper tree -/

namespace Tree.Proper

variable {t : Tree} (h : t.Proper)
include h

/-- Every tree stands at the place of its name. -/
theorem numbered_ofTree (i : Nat) (u : Tree) (hu : (ofTree t).subtrees.toList[i]? = some u) :
    u.id.raw = i := by
  rw [Array.getElem?_toList] at hu
  exact congrArg VtreeId.raw ((subtree?_ofTree h ⟨i⟩ u).1 hu).2

theorem toList_subtrees_perm : (ofTree t).subtrees.toList.Perm t.subtrees := by
  rw [List.perm_ext_iff_of_nodup (nodup_of_numbered h.numbered_ofTree)
    (List.Nodup.of_map _ h.names_nodup)]
  intro u
  rw [List.mem_iff_getElem?]
  constructor
  · rintro ⟨i, hi⟩
    rw [Array.getElem?_toList] at hi
    exact ((subtree?_ofTree h ⟨i⟩ u).1 hi).1
  · intro hu
    refine ⟨u.id.raw, ?_⟩
    rw [Array.getElem?_toList]
    exact (subtree?_ofTree h u.id u).2 ⟨hu, rfl⟩

/-- The trees within the tree, at their places. -/
theorem shelf : Shelf (ofTree t).subtrees.toList := by
  have hperm := h.toList_subtrees_perm
  refine ⟨h.numbered_ofTree, fun i l r hfork => ?_⟩
  obtain ⟨hl, hr⟩ := sides_mem (hperm.mem_iff.1 hfork)
  exact ⟨hperm.mem_iff.2 hl, hperm.mem_iff.2 hr⟩

/-- There is nothing wrong with the trees within a proper tree. -/
theorem flaw?_eq_none : flaw? (ofTree t).subtrees.toList t = none := by
  have hperm := h.toList_subtrees_perm
  obtain ⟨hnodup, hroot⟩ := h.children_nodup
  have hchildren : ((ofTree t).subtrees.toList.flatMap children).Perm (t.edges.map Prod.fst) := by
    rw [← map_fst_edgesAmong]
    exact (hperm.flatMap_right _).map _
  have hvars : ((ofTree t).subtrees.toList.filterMap var?).Perm t.leafVars := by
    rw [← filterMap_var?]
    exact hperm.filterMap _
  refine Vtree.flaw?_eq_none.2 ⟨⟨fun hmem => ?_, ?_⟩, ?_, fun var hvar => ?_, ?_⟩
  · obtain ⟨e, he, heq⟩ := List.mem_map.1 (hchildren.mem_iff.1 hmem)
    exact hroot e he heq
  · refine hchildren.nodup_iff.2 (List.Nodup.of_map VtreeId.raw ?_)
    rwa [List.map_map]
  · rw [hperm.length_eq, length_subtrees]
  · exact h.vars_range var (hvars.mem_iff.1 hvar)
  · exact hvars.nodup_iff.2 h.vars_nodup

/-- The cells of a proper tree are accepted, and they make the vtree of the tree. -/
theorem assemble_eq (hsize : t.size ≤ Decimal.pow2 32) :
    assemble ((ofTree t).subtrees.map cell) t.id = .ok (.ok (ofTree t).listing) := by
  have hperm := h.toList_subtrees_perm
  have hlen : (ofTree t).subtrees.toList.length = t.size := by
    rw [hperm.length_eq, length_subtrees]
  have heq := h.shelf.assemble_eq (hperm.mem_iff.2 t.self_mem_subtrees) (by omega)
  rwa [h.flaw?_eq_none, ← Array.toList_map, Array.toArray_toList] at heq

end Tree.Proper

end Sentential.Vtree
