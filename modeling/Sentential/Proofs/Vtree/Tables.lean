import Mathlib.Data.List.Nodup
import Mathlib.Data.List.Perm.Subperm
import Mathlib.Data.List.Range
import Sentential.Vtree.Basic

/-!
# The tables of a proper tree

A tree is *proper* if its names are the numbers below its size and its leaves hold the variables
`1, …, n`, every name and every variable once. The tables that `Vtree.ofTree` fills for such a
tree answer as the tree does:

* `subtree?_ofTree`: a name leads to the tree that bears it, and nothing else does;
* `leafOf_ofTree`: a variable leads to its leaf, and nothing else does.

`Vtree.Proper` says that a vtree is made of a proper tree; the lemmas on it are all that the other
modules use of the tables.
-/

namespace Sentential.Vtree

namespace Tree

/-- The variables at the leaves, from left to right. -/
def leafVars : Tree → List Nat
  | leaf _ var => [var]
  | fork _ l r => l.leafVars ++ r.leafVars

/-- The names are the numbers below the size and the variables are `1, …, n`, each once. -/
structure Proper (t : Tree) : Prop where
  names_nodup : (t.subtrees.map Tree.id).Nodup
  names_lt : ∀ u ∈ t.subtrees, u.id.raw < t.size
  vars_nodup : t.leafVars.Nodup
  vars_range : ∀ var ∈ t.leafVars, 1 ≤ var ∧ var ≤ t.varCount

/-! ## Counting -/

theorem length_subtrees (t : Tree) : t.subtrees.length = t.size := by
  induction t with
  | leaf id var => rfl
  | fork id l r ihl ihr =>
    rw [subtrees_fork, List.length_cons, List.length_append, ihl, ihr, size]

theorem length_leafVars (t : Tree) : t.leafVars.length = t.varCount := by
  induction t with
  | leaf id var => rfl
  | fork id l r ihl ihr => rw [leafVars, List.length_append, ihl, ihr, varCount]

theorem varCount_pos (t : Tree) : 0 < t.varCount := by
  induction t with
  | leaf id var => exact Nat.one_pos
  | fork id l r ihl _ => exact Nat.add_pos_left ihl _

/-- A full binary tree has one node more than twice its forks. -/
theorem size_add_one (t : Tree) : t.size + 1 = 2 * t.varCount := by
  induction t with
  | leaf id var => rfl
  | fork id l r ihl ihr =>
    rw [size, varCount]
    omega

/-! ## Trees within a tree -/

theorem self_mem_subtrees (t : Tree) : t ∈ t.subtrees := by
  cases t <;> simp

theorem subtrees_subset {t u : Tree} (h : u ∈ t.subtrees) : u.subtrees ⊆ t.subtrees := by
  induction t with
  | leaf id var =>
    rw [subtrees_leaf, List.mem_singleton] at h
    rw [h]
    exact List.Subset.refl _
  | fork id l r ihl ihr =>
    rw [subtrees_fork, List.mem_cons, List.mem_append] at h
    rcases h with rfl | h | h
    · exact List.Subset.refl _
    · intro x hx
      simp [ihl h hx]
    · intro x hx
      simp [ihr h hx]

/-- Both sides of a fork within a tree are within the tree. -/
theorem sides_mem {t l r : Tree} {id : VtreeId} (h : fork id l r ∈ t.subtrees) :
    l ∈ t.subtrees ∧ r ∈ t.subtrees := by
  have hsub := subtrees_subset h
  exact ⟨hsub (by simp [self_mem_subtrees]), hsub (by simp [self_mem_subtrees])⟩

theorem mem_leafVars {t : Tree} {var : Nat} :
    var ∈ t.leafVars ↔ ∃ id, leaf id var ∈ t.subtrees := by
  induction t with
  | leaf id v => simp [leafVars]
  | fork id l r ihl ihr =>
    simp only [leafVars, List.mem_append, ihl, ihr, subtrees_fork, List.mem_cons]
    constructor
    · rintro (⟨i, hi⟩ | ⟨i, hi⟩)
      · exact ⟨i, Or.inr (Or.inl hi)⟩
      · exact ⟨i, Or.inr (Or.inr hi)⟩
    · rintro ⟨i, hi | hi | hi⟩
      · exact absurd hi (by simp)
      · exact Or.inl ⟨i, hi⟩
      · exact Or.inr ⟨i, hi⟩

/-- The variables at the leaves are those that the trees within the tree hold. -/
theorem filterMap_var? (t : Tree) : t.subtrees.filterMap Tree.var? = t.leafVars := by
  induction t with
  | leaf id var => rfl
  | fork id l r ihl ihr =>
    rw [subtrees_fork, List.filterMap_cons, List.filterMap_append, ihl, ihr]
    rfl

/-- The trees within a tree in the order of their lines, both sides of a fork before the fork. -/
def bottomUp : Tree → List Tree
  | leaf id var => [leaf id var]
  | fork id l r => l.bottomUp ++ r.bottomUp ++ [fork id l r]

theorem bottomUp_perm (t : Tree) : t.bottomUp.Perm t.subtrees := by
  induction t with
  | leaf id var => exact .refl _
  | fork id l r ihl ihr =>
    rw [bottomUp, subtrees_fork]
    exact (List.perm_append_singleton _ _).trans ((ihl.append ihr).cons _)

namespace Proper

variable {t : Tree}

theorem raw_nodup (h : t.Proper) : (t.subtrees.map fun u => u.id.raw).Nodup := by
  have hinj : Function.Injective VtreeId.raw := by
    rintro ⟨a⟩ ⟨b⟩ hab
    exact congrArg VtreeId.mk hab
  have hraw := h.names_nodup.map hinj
  rwa [List.map_map] at hraw

/-- The names of a proper tree are the numbers below its size. -/
theorem names_perm (h : t.Proper) : (t.subtrees.map fun u => u.id.raw).Perm (List.range t.size) := by
  refine (h.raw_nodup.subperm fun i hi => ?_).perm_of_length_le ?_
  · obtain ⟨u, hu, rfl⟩ := List.mem_map.1 hi
    exact List.mem_range.2 (h.names_lt u hu)
  · rw [List.length_map, length_subtrees, List.length_range]

/-- The variables of a proper tree are `1, …, n`. -/
theorem leafVars_perm (h : t.Proper) : t.leafVars.Perm (List.range' 1 t.varCount) := by
  refine (h.vars_nodup.subperm fun var hvar => ?_).perm_of_length_le ?_
  · have := h.vars_range var hvar
    rw [List.mem_range'_1]
    omega
  · rw [length_leafVars, List.length_range']

theorem exists_name (h : t.Proper) {i : Nat} (hi : i < t.size) : ∃ u ∈ t.subtrees, u.id.raw = i :=
  List.mem_map.1 (h.names_perm.mem_iff.2 (List.mem_range.2 hi))

theorem exists_leaf (h : t.Proper) {var : Nat} (hpos : 1 ≤ var) (hle : var ≤ t.varCount) :
    ∃ id, leaf id var ∈ t.subtrees :=
  mem_leafVars.1 (h.leafVars_perm.mem_iff.2 (List.mem_range'_1.2 ⟨hpos, by omega⟩))

end Proper

end Tree

/-! ## Filling a table -/

section Filling

variable {α β : Type} (key : β → Nat) (val : β → α)

/-- Writes each value at its key. -/
def fill (xs : List β) (table : Array α) : Array α :=
  xs.foldl (fun a x => a.setIfInBounds (key x) (val x)) table

theorem size_fill (xs : List β) (table : Array α) : (fill key val xs table).size = table.size := by
  induction xs generalizing table with
  | nil => rfl
  | cons x xs ih =>
    show (fill key val xs (table.setIfInBounds (key x) (val x))).size = table.size
    rw [ih, Array.size_setIfInBounds]

theorem getElem?_fill_of_notMem {xs : List β} {i : Nat} (h : i ∉ xs.map key) (table : Array α) :
    (fill key val xs table)[i]? = table[i]? := by
  induction xs generalizing table with
  | nil => rfl
  | cons x xs ih =>
    rw [List.map_cons, List.mem_cons, not_or] at h
    show (fill key val xs (table.setIfInBounds (key x) (val x)))[i]? = table[i]?
    rw [ih h.2, Array.getElem?_setIfInBounds_ne (Ne.symm h.1)]

theorem getElem?_fill {xs : List β} (hnodup : (xs.map key).Nodup) {table : Array α} {x : β}
    (hx : x ∈ xs) (hlt : key x < table.size) : (fill key val xs table)[key x]? = some (val x) := by
  induction xs generalizing table with
  | nil => exact absurd hx (by simp)
  | cons y xs ih =>
    obtain ⟨hy, hnodup⟩ := List.nodup_cons.1 hnodup
    show (fill key val xs (table.setIfInBounds (key y) (val y)))[key x]? = some (val x)
    rcases List.mem_cons.1 hx with rfl | hx
    · rw [getElem?_fill_of_notMem key val hy, Array.getElem?_setIfInBounds_self_of_lt hlt]
    · exact ih hnodup hx (by rwa [Array.size_setIfInBounds])

end Filling

/-! ## The tables of a tree -/

/-- The leaves of a tree: the variable of each and its name. -/
def Tree.leaves (t : Tree) : List (Nat × VtreeId) :=
  t.subtrees.filterMap fun u => u.var?.map fun var => (var, u.id)

theorem Tree.mem_leaves {t : Tree} {var : Nat} {id : VtreeId} :
    (var, id) ∈ t.leaves ↔ leaf id var ∈ t.subtrees := by
  rw [leaves, List.mem_filterMap]
  constructor
  · rintro ⟨u, hu, heq⟩
    cases u with
    | leaf i v =>
      obtain ⟨rfl, rfl⟩ : v = var ∧ i = id := by simpa [var?, Tree.id] using heq
      exact hu
    | fork i l r => exact absurd heq (by simp [var?])
  · intro h
    exact ⟨leaf id var, h, rfl⟩

theorem Tree.map_fst_leaves (t : Tree) : t.leaves.map Prod.fst = t.leafVars := by
  rw [leaves, List.map_filterMap, ← filterMap_var?]
  congr 1
  funext u
  cases u <;> rfl

theorem subtrees_ofTree (t : Tree) :
    (ofTree t).subtrees =
      fill (fun u : Tree => u.id.raw) (fun u => u) t.subtrees (.replicate t.size t) := rfl

theorem leaves_ofTree (t : Tree) :
    (ofTree t).leaves
      = fill (fun l : Nat × VtreeId => l.1 - 1) Prod.snd t.leaves (.replicate t.varCount t.id) := by
  rw [fill, Tree.leaves, List.foldl_filterMap]
  show t.subtrees.foldl noteLeaf (.replicate t.varCount t.id) = _
  congr 1
  funext table u
  cases u <;> rfl

@[simp] theorem root_ofTree (t : Tree) : (ofTree t).root = t := rfl

@[simp] theorem numNodes_ofTree (t : Tree) : (ofTree t).numNodes = t.size := by
  rw [numNodes, subtrees_ofTree, size_fill, Array.size_replicate]

@[simp] theorem numVars_ofTree (t : Tree) : (ofTree t).numVars = t.varCount := by
  rw [numVars, leaves_ofTree, size_fill, Array.size_replicate]

/-- A name of a proper tree leads to the tree that bears it. -/
theorem subtree?_ofTree {t : Tree} (h : t.Proper) (id : VtreeId) (u : Tree) :
    (ofTree t).subtree? id = some u ↔ u ∈ t.subtrees ∧ u.id = id := by
  have hnodup : (t.subtrees.map fun u => u.id.raw).Nodup := h.raw_nodup
  have hget : ∀ w ∈ t.subtrees, (ofTree t).subtree? w.id = some w := by
    intro w hw
    rw [subtree?, subtrees_ofTree]
    exact getElem?_fill (fun u : Tree => u.id.raw) (fun u => u) hnodup hw
      (by rw [Array.size_replicate]; exact h.names_lt w hw)
  constructor
  · intro hu
    have hlt : id.raw < t.size := by
      rw [← numNodes_ofTree]
      exact (Array.getElem?_eq_some_iff.1 hu).1
    -- every name below the size is borne by a tree, and the table has that tree there
    obtain ⟨w, hw, hwid⟩ := h.exists_name hlt
    have hwid : w.id = id := congrArg VtreeId.mk hwid
    have heq := hget w hw
    rw [hwid, hu] at heq
    rw [Option.some_inj.1 heq]
    exact ⟨hw, hwid⟩
  · rintro ⟨hu, rfl⟩
    exact hget u hu

/-- A variable of a proper tree leads to its leaf. -/
theorem leafOf_ofTree {t : Tree} (h : t.Proper) (var : Nat) (id : VtreeId) :
    (ofTree t).leafOf var = .ok id ↔ Tree.leaf id var ∈ t.subtrees := by
  have hnodup : (t.leaves.map fun l => l.1 - 1).Nodup := by
    have hmap : t.leaves.map (fun l => l.1 - 1) = t.leafVars.map fun v => v - 1 := by
      rw [← Tree.map_fst_leaves, List.map_map]
      rfl
    rw [hmap]
    refine h.vars_nodup.map_on fun a ha b hb hab => ?_
    have := h.vars_range a ha
    have := h.vars_range b hb
    omega
  have hget : ∀ {i : VtreeId} {v : Nat}, Tree.leaf i v ∈ t.subtrees →
      (ofTree t).leafOf v = .ok i := by
    intro i v hv
    have hrange := h.vars_range v (Tree.mem_leafVars.2 ⟨i, hv⟩)
    have hentry : (ofTree t).leaves[v - 1]? = some i := by
      rw [leaves_ofTree]
      exact getElem?_fill (fun l : Nat × VtreeId => l.1 - 1) Prod.snd hnodup
        (Tree.mem_leaves.2 hv) (by rw [Array.size_replicate]; show v - 1 < _; omega)
    rw [leafOf, if_neg (by omega), hentry]
  constructor
  · intro hleaf
    have hrange : 1 ≤ var ∧ var ≤ t.varCount := by
      rw [← numVars_ofTree, numVars]
      rw [leafOf] at hleaf
      by_cases hzero : var = 0
      · rw [if_pos hzero] at hleaf
        exact absurd hleaf (by simp)
      · rw [if_neg hzero] at hleaf
        by_cases hlt : var - 1 < (ofTree t).leaves.size
        · omega
        · rw [Array.getElem?_eq_none (by omega)] at hleaf
          exact absurd hleaf (by simp)
    -- the table has an entry for the variable, and that is the leaf which holds it
    obtain ⟨i, hi⟩ := h.exists_leaf hrange.1 hrange.2
    have heq := (hget hi).symm.trans hleaf
    rw [← Except.ok.inj heq]
    exact hi
  · exact hget

/-! ## Proper vtrees -/

/-- The vtree of a proper tree. -/
def Proper (v : Vtree) : Prop := ∃ t : Tree, t.Proper ∧ v = ofTree t

theorem subtree_eq_ok {v : Vtree} {id : VtreeId} {t : Tree} :
    v.subtree id = .ok t ↔ v.subtree? id = some t := by
  unfold subtree
  cases v.subtree? id <;> simp

namespace Proper

variable {v : Vtree}

theorem id_eq (h : v.Proper) {id : VtreeId} {u : Tree} (hu : v.subtree? id = some u) :
    u.id = id := by
  obtain ⟨t, ht, rfl⟩ := h
  exact ((subtree?_ofTree ht id u).1 hu).2

/-- Both sides of a fork are found at their own names. -/
theorem subtree?_sides (h : v.Proper) {id i : VtreeId} {l r : Tree}
    (hu : v.subtree? id = some (.fork i l r)) :
    v.subtree? l.id = some l ∧ v.subtree? r.id = some r := by
  obtain ⟨t, ht, rfl⟩ := h
  obtain ⟨hl, hr⟩ := Tree.sides_mem ((subtree?_ofTree ht id _).1 hu).1
  exact ⟨(subtree?_ofTree ht l.id l).2 ⟨hl, rfl⟩, (subtree?_ofTree ht r.id r).2 ⟨hr, rfl⟩⟩

theorem leafOf_iff (h : v.Proper) {var : Nat} {id : VtreeId} :
    v.leafOf var = .ok id ↔ v.subtree? id = some (.leaf id var) := by
  obtain ⟨t, ht, rfl⟩ := h
  rw [leafOf_ofTree ht, subtree?_ofTree ht]
  exact ⟨fun h => ⟨h, rfl⟩, fun h => h.1⟩

theorem exists_leafOf (h : v.Proper) {var : Nat} (hpos : 1 ≤ var) (hle : var ≤ v.numVars) :
    ∃ id, v.leafOf var = .ok id := by
  obtain ⟨t, ht, rfl⟩ := h
  rw [numVars_ofTree] at hle
  obtain ⟨id, hid⟩ := ht.exists_leaf hpos hle
  exact ⟨id, (leafOf_ofTree ht var id).2 hid⟩

theorem leafOf_range (h : v.Proper) {var : Nat} {id : VtreeId} (hid : v.leafOf var = .ok id) :
    1 ≤ var ∧ var ≤ v.numVars := by
  obtain ⟨t, ht, rfl⟩ := h
  rw [numVars_ofTree]
  exact ht.vars_range var (Tree.mem_leafVars.2 ⟨id, (leafOf_ofTree ht var id).1 hid⟩)

/-- Every name is below twice the number of variables. -/
theorem raw_lt (h : v.Proper) {id : VtreeId} {u : Tree} (hu : v.subtree? id = some u) :
    id.raw + 1 < 2 * v.numVars := by
  obtain ⟨t, ht, rfl⟩ := h
  obtain ⟨hmem, rfl⟩ := (subtree?_ofTree ht id u).1 hu
  have hlt := ht.names_lt u hmem
  have hsize := t.size_add_one
  rw [numVars_ofTree]
  omega

end Proper
end Sentential.Vtree
