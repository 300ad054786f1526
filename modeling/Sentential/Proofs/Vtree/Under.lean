import Sentential.Proofs.Outcome
import Sentential.Proofs.Vtree.Reading

/-!
# Below a vtree node

`Vtree.isUnder` climbs from a node along the parents. In a proper vtree the table of parents
inverts the sides of the trees (`Proper.parent_side`, `Proper.parent_root`), so the climb answers
whether the tree at the one name is within the tree at the other (`Proper.isUnder_eq`): every step
goes on from a larger tree, and the fuel is the size of the largest.

Trees within a proper tree share variables only if one of them is within the other; what is used
of this is that the two sides of a fork share none (`Proper.sides_disjoint`).
-/

namespace Sentential.Vtree

namespace Tree

/-! ## The edges of a tree -/

/-- Every node but the topmost with its parent. -/
def edges (t : Tree) : List (VtreeId × VtreeId) :=
  t.subtrees.flatMap fun u => u.children.map fun c => (c, u.id)

theorem mem_edges {t : Tree} {c p : VtreeId} :
    (c, p) ∈ t.edges ↔ ∃ l r, fork p l r ∈ t.subtrees ∧ (c = l.id ∨ c = r.id) := by
  simp only [edges, List.mem_flatMap, List.mem_map, Prod.mk.injEq]
  constructor
  · rintro ⟨u, hu, x, hx, rfl, rfl⟩
    cases u with
    | leaf id var => exact absurd hx (by simp [children])
    | fork id l r => exact ⟨l, r, hu, by simpa [children] using hx⟩
  · rintro ⟨l, r, hu, hc⟩
    exact ⟨fork p l r, hu, c, by simpa [children] using hc, rfl, rfl⟩

/-- The topmost tree comes first among the trees within. -/
theorem subtrees_eq_cons (t : Tree) : t.subtrees = t :: t.subtrees.tail := by
  cases t <;> simp

/-- The children of all nodes are all nodes but the topmost. -/
theorem children_perm (t : Tree) :
    (t.edges.map Prod.fst).Perm (t.subtrees.tail.map Tree.id) := by
  induction t with
  | leaf id var => exact .refl _
  | fork id l r ihl ihr =>
    have hedges : (fork id l r).edges = (l.id, id) :: (r.id, id) :: (l.edges ++ r.edges) := by
      simp [edges, children]
      rfl
    have htail : (fork id l r).subtrees.tail.map Tree.id
        = l.id :: (l.subtrees.tail.map Tree.id ++ r.id :: r.subtrees.tail.map Tree.id) := by
      rw [subtrees_fork, List.tail_cons, l.subtrees_eq_cons, r.subtrees_eq_cons]
      simp
    rw [hedges, htail, List.map_cons, List.map_cons, List.map_append]
    exact (((ihl.append ihr).cons r.id).trans List.perm_middle.symm).cons l.id

theorem Proper.children_nodup {t : Tree} (h : t.Proper) :
    (t.edges.map fun e => e.1.raw).Nodup ∧ ∀ e ∈ t.edges, e.1 ≠ t.id := by
  have hnames := h.raw_nodup
  rw [t.subtrees_eq_cons, List.map_cons, List.nodup_cons] at hnames
  have hperm := t.children_perm
  constructor
  · have hraw := hperm.map VtreeId.raw
    rw [List.map_map, List.map_map] at hraw
    exact hraw.nodup_iff.2 hnames.2
  · intro e he heq
    have hmem : t.id ∈ t.subtrees.tail.map Tree.id :=
      hperm.mem_iff.1 (List.mem_map.2 ⟨e, he, heq⟩)
    obtain ⟨u, hu, hid⟩ := List.mem_map.1 hmem
    exact hnames.1 (List.mem_map.2 ⟨u, hu, congrArg VtreeId.raw hid⟩)

/-! ## Trees within a tree -/

/-- Only the tree itself is within the tree and as large. -/
theorem eq_of_mem_of_size_le {t u : Tree} (h : u ∈ t.subtrees) (hle : t.size ≤ u.size) : u = t := by
  rcases eq_or_side_of_mem h with heq | ⟨p, l, r, hfork, hside⟩
  · exact heq
  · have hlarge := size_le_of_mem hfork
    rw [size] at hlarge
    rcases hside with rfl | rfl <;> omega

theorem leafVars_sublist {t u : Tree} (h : u ∈ t.subtrees) : u.leafVars.Sublist t.leafVars := by
  induction t with
  | leaf id var =>
    rw [subtrees_leaf, List.mem_singleton] at h
    rw [h]
  | fork id l r ihl ihr =>
    rw [subtrees_fork, List.mem_cons, List.mem_append] at h
    rcases h with rfl | h | h
    · exact .refl _
    · exact (ihl h).trans (List.sublist_append_left _ _)
    · exact (ihr h).trans (List.sublist_append_right _ _)

end Tree

/-! ## The table of parents -/

theorem parents_ofTree (t : Tree) : (ofTree t).parents
    = fill (fun e : VtreeId × VtreeId => e.1.raw) (fun e => some e.2) t.edges
      (.replicate t.size none) := by
  show t.subtrees.foldl noteParent (.replicate t.size none) = _
  unfold fill Tree.edges
  rw [List.foldl_flatMap]
  congr 1
  funext table u
  unfold noteParent
  rw [List.foldl_map]

namespace Proper

variable {v : Vtree} {a b p : VtreeId} {t u l r : Tree}

theorem subtree?_root (h : v.Proper) : v.subtree? v.root.id = some v.root := by
  obtain ⟨t, ht, rfl⟩ := h
  exact (subtree?_ofTree ht t.id t).2 ⟨t.self_mem_subtrees, rfl⟩

/-- What is found at a name is within the tree of the vtree. -/
theorem mem_root (h : v.Proper) (ht : v.subtree? a = some t) : t ∈ v.root.subtrees := by
  obtain ⟨root, hroot, rfl⟩ := h
  exact ((subtree?_ofTree hroot a t).1 ht).1

theorem subtree?_of_mem (h : v.Proper) (ht : v.subtree? a = some t) (hu : u ∈ t.subtrees) :
    v.subtree? u.id = some u := by
  obtain ⟨root, hroot, rfl⟩ := h
  have hmem := ((subtree?_ofTree hroot a t).1 ht).1
  exact (subtree?_ofTree hroot u.id u).2 ⟨Tree.subtrees_subset hmem hu, rfl⟩

theorem numNodes_eq (h : v.Proper) : v.numNodes = v.root.size := by
  obtain ⟨t, ht, rfl⟩ := h
  exact numNodes_ofTree t

theorem numVars_eq (h : v.Proper) : v.numVars = v.root.varCount := by
  obtain ⟨t, ht, rfl⟩ := h
  exact numVars_ofTree t

theorem parent_side (h : v.Proper) (hfork : v.subtree? p = some (.fork p l r))
    (ha : a = l.id ∨ a = r.id) : v.parent a = .ok (some p) := by
  obtain ⟨root, hroot, rfl⟩ := h
  have hmem := ((subtree?_ofTree hroot p _).1 hfork).1
  have hlt : a.raw < root.size := by
    obtain ⟨hl, hr⟩ := Tree.sides_mem hmem
    rcases ha with rfl | rfl
    · exact hroot.names_lt l hl
    · exact hroot.names_lt r hr
  have hedge : (a, p) ∈ root.edges := Tree.mem_edges.2 ⟨l, r, hmem, ha⟩
  unfold parent
  rw [parents_ofTree, getElem?_fill _ _ hroot.children_nodup.1 hedge
    (by rw [Array.size_replicate]; exact hlt)]

theorem parent_root (h : v.Proper) : v.parent v.root.id = .ok none := by
  obtain ⟨root, hroot, rfl⟩ := h
  have hnot : root.id.raw ∉ root.edges.map fun e => e.1.raw := by
    intro hmem
    obtain ⟨e, he, heq⟩ := List.mem_map.1 hmem
    exact hroot.children_nodup.2 e he (congrArg VtreeId.mk heq)
  have hlt := hroot.names_lt root root.self_mem_subtrees
  unfold parent
  rw [parents_ofTree, root_ofTree, getElem?_fill_of_notMem _ _ hnot,
    Array.getElem?_replicate, if_pos hlt]

/-- A tree that is not the largest is a side of a fork. -/
theorem exists_fork (h : v.Proper) (ht : v.subtree? a = some t) (hroot : t ≠ v.root) :
    ∃ p l r, v.subtree? p = some (.fork p l r) ∧ (t = l ∨ t = r) := by
  rcases Tree.eq_or_side_of_mem (h.mem_root ht) with heq | ⟨p, l, r, hfork, hside⟩
  · exact absurd heq hroot
  · exact ⟨p, l, r, h.subtree?_of_mem h.subtree?_root hfork, hside⟩

/-- A side of a fork is within another tree if and only if the fork is. -/
theorem side_mem_iff (h : v.Proper) (hfork : v.subtree? p = some (.fork p l r)) (ht : t = l ∨ t = r)
    (hu : v.subtree? b = some u) (hne : t ≠ u) :
    t ∈ u.subtrees ↔ Tree.fork p l r ∈ u.subtrees := by
  have hparent : v.parent t.id = .ok (some p) := by
    apply h.parent_side hfork
    exact ht.imp (congrArg Tree.id) (congrArg Tree.id)
  constructor
  · intro hmem
    rcases Tree.eq_or_side_of_mem hmem with heq | ⟨q, l', r', hfork', hside⟩
    · exact absurd heq hne
    · -- the two forks are both the parent of `t`
      have hq := h.subtree?_of_mem hu hfork'
      have hparent' : v.parent t.id = .ok (some q) := by
        apply h.parent_side hq
        exact hside.imp (congrArg Tree.id) (congrArg Tree.id)
      obtain rfl : p = q := Option.some_inj.1 (Except.ok.inj (hparent.symm.trans hparent'))
      obtain heq := Option.some_inj.1 (hfork.symm.trans hq)
      rw [heq]
      exact hfork'
  · intro hmem
    obtain ⟨hl, hr⟩ := Tree.sides_mem hmem
    rcases ht with rfl | rfl
    · exact hl
    · exact hr

/-! ## Climbing -/

/-- The climb from a tree ends within fuel for the sizes that lie between the tree and the largest,
and it meets the trees that the tree is within. -/
theorem climb_eq (h : v.Proper) (b : VtreeId) (fuel : Nat) (ht : v.subtree? a = some t)
    (hfuel : v.root.size < fuel + t.size) :
    v.climb b fuel a = .ok ((v.subtree? b).any fun u => decide (t ∈ u.subtrees)) := by
  induction fuel generalizing a t with
  | zero =>
    have hle := Tree.size_le_of_mem (h.mem_root ht)
    omega
  | succ fuel ih =>
    unfold climb
    by_cases hab : a = b
    · subst hab
      rw [if_pos rfl, ht]
      simp [Tree.self_mem_subtrees]
    · rw [if_neg hab]
      have hid := h.id_eq ht
      by_cases hroot : t = v.root
      · subst hroot
        rw [← hid, h.parent_root]
        simp only [Except.ok.injEq]
        symm
        rw [Option.any_eq_false]
        intro u hu
        -- nothing else holds the largest tree
        have hnot : v.root ∉ u.subtrees := by
          intro hmem
          have heq := Tree.eq_of_mem_of_size_le hmem (Tree.size_le_of_mem (h.mem_root hu))
          exact hab (hid.symm.trans (heq ▸ h.id_eq hu))
        simp [hnot]
      · obtain ⟨p, l, r, hfork, hside⟩ := h.exists_fork ht hroot
        have hsize : t.size < (Tree.fork p l r).size := by
          rw [Tree.size]
          rcases hside with rfl | rfl <;> omega
        rw [← hid, h.parent_side hfork (hside.imp (congrArg Tree.id) (congrArg Tree.id))]
        simp only
        rw [ih hfork (by omega)]
        congr 1
        cases hu : v.subtree? b with
        | none => rfl
        | some u =>
          have hne : t ≠ u := by
            rintro rfl
            exact hab (hid.symm.trans (h.id_eq hu))
          simp only [Option.any_some, decide_eq_decide]
          exact (h.side_mem_iff hfork hside hu hne).symm

/-- A name is under another one if its tree is within the tree of the other. -/
theorem isUnder_eq (h : v.Proper) (ht : v.subtree? a = some t) (b : VtreeId) :
    v.isUnder a b = .ok ((v.subtree? b).any fun u => decide (t ∈ u.subtrees)) := by
  apply h.climb_eq b _ ht
  have hpos := t.size_add_one
  have := t.varCount_pos
  rw [h.numNodes_eq]
  omega

theorem isUnder_iff (h : v.Proper) (ht : v.subtree? a = some t) (hu : v.subtree? b = some u) :
    v.isUnder a b = .ok true ↔ t ∈ u.subtrees := by
  rw [h.isUnder_eq ht, hu]
  simp

/-! ## Variables of the sides -/

theorem leafVars_nodup (h : v.Proper) (ht : v.subtree? a = some t) : t.leafVars.Nodup := by
  obtain ⟨root, hroot, rfl⟩ := h
  exact (Tree.leafVars_sublist ((subtree?_ofTree hroot a t).1 ht).1).nodup hroot.vars_nodup

theorem sides_disjoint (h : v.Proper) (hfork : v.subtree? a = some (.fork p l r)) :
    l.leafVars.Disjoint r.leafVars :=
  (List.nodup_append'.1 (h.leafVars_nodup hfork)).2.2

end Proper

/-- Every name is under itself, whether the vtree has it or not. -/
theorem isUnder_self (v : Vtree) (a : VtreeId) : v.isUnder a a = .ok true := by
  unfold isUnder
  cases v.numNodes <;> simp [climb]

end Sentential.Vtree
