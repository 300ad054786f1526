import Mathlib.Algebra.Order.BigOperators.Group.List
import Mathlib.Algebra.Order.Group.Nat
import Mathlib.Data.List.Nodup
import Mathlib.Data.List.Perm.Subperm
import Sentential.Format.Vtree
import Sentential.Proofs.Vtree.Tables

/-!
# The checks on a table of trees

The reader of vtrees makes a tree of every record and sees in the end that no node is a child
twice, that the last tree is as large as there are records, and that the variables fit (`flaw?`).
That these checks suffice is a fact about trees that bear the numbers of their places (`Shelf`), if
none is a side twice (`Table`): a node that the last tree held twice would have a child of its own
twice among all children, or a parent held twice, which is larger; so there is none
(`Table.sides_disjoint`).
-/

namespace Sentential.Vtree

/-! ## What the checks say -/

theorem firstShared?_eq_none {root : VtreeId} {seen cs : List VtreeId} :
    firstShared? root seen cs = none ↔ root ∉ cs ∧ cs.Nodup ∧ ∀ c ∈ cs, c ∉ seen := by
  induction cs generalizing seen with
  | nil => simp [firstShared?]
  | cons c cs ih =>
    rw [firstShared?]
    split
    · next h =>
      simp only [reduceCtorEq, false_iff, not_and]
      intro hroot _ hseen
      rcases h with rfl | h
      · exact hroot List.mem_cons_self
      · exact hseen c List.mem_cons_self h
    · next h =>
      rw [not_or] at h
      rw [ih, List.nodup_cons]
      constructor
      · rintro ⟨hroot, hnodup, hseen⟩
        refine ⟨?_, ⟨fun hc => hseen c hc List.mem_cons_self, hnodup⟩, ?_⟩
        · rintro (_ | ⟨_, hmem⟩)
          · exact h.1 rfl
          · exact hroot hmem
        · intro x hx
          rcases List.mem_cons.1 hx with rfl | hx
          · exact h.2
          · exact fun hmem => hseen x hx (List.mem_cons_of_mem _ hmem)
      · rintro ⟨hroot, ⟨hc, hnodup⟩, hseen⟩
        refine ⟨fun hmem => hroot (List.mem_cons_of_mem _ hmem), hnodup, fun x hx hmem => ?_⟩
        rcases List.mem_cons.1 hmem with rfl | hmem
        · exact hc hx
        · exact hseen x (List.mem_cons_of_mem _ hx) hmem

theorem misfit?_eq_none {n : Nat} {seen vs : List Nat} :
    misfit? n seen vs = none ↔ (∀ v ∈ vs, 1 ≤ v ∧ v ≤ n) ∧ vs.Nodup ∧ ∀ v ∈ vs, v ∉ seen := by
  induction vs generalizing seen with
  | nil => simp [misfit?]
  | cons v vs ih =>
    rw [misfit?]
    split
    · next h =>
      simp only [reduceCtorEq, false_iff, not_and]
      intro hrange
      have := hrange v List.mem_cons_self
      omega
    · next h =>
      split
      · next hseen =>
        simp only [reduceCtorEq, false_iff, not_and]
        intro _ _ hnot
        exact hnot v List.mem_cons_self hseen
      · next hseen =>
        rw [ih, List.nodup_cons]
        constructor
        · rintro ⟨hrange, hnodup, hnot⟩
          refine ⟨?_, ⟨fun hv => hnot v hv List.mem_cons_self, hnodup⟩, ?_⟩
          · intro x hx
            rcases List.mem_cons.1 hx with rfl | hx
            · omega
            · exact hrange x hx
          · intro x hx
            rcases List.mem_cons.1 hx with rfl | hx
            · exact hseen
            · exact fun hmem => hnot x hx (List.mem_cons_of_mem _ hmem)
        · rintro ⟨hrange, ⟨hv, hnodup⟩, hnot⟩
          refine ⟨fun x hx => hrange x (List.mem_cons_of_mem _ hx), hnodup, fun x hx hmem => ?_⟩
          rcases List.mem_cons.1 hmem with rfl | hmem
          · exact hv hx
          · exact hnot x (List.mem_cons_of_mem _ hx) hmem

theorem flaw?_eq_none {trees : List Tree} {root : Tree} : flaw? trees root = none ↔
    (root.id ∉ trees.flatMap Tree.children ∧ (trees.flatMap Tree.children).Nodup) ∧
    root.size = trees.length ∧ (∀ v ∈ trees.filterMap Tree.var?, 1 ≤ v ∧ v ≤ root.varCount) ∧
    (trees.filterMap Tree.var?).Nodup := by
  have hshared := @firstShared?_eq_none root.id [] (trees.flatMap Tree.children)
  have hmisfit := @misfit?_eq_none root.varCount [] (trees.filterMap Tree.var?)
  simp only [List.not_mem_nil, not_false_eq_true, implies_true, and_true] at hshared hmisfit
  rw [flaw?, ← hshared, ← hmisfit]
  split
  · next heq => simp [heq]
  · next heq =>
    split
    · next hsize => simp [hsize]
    · next hsize => simp [heq, not_not.1 hsize]

/-! ## Trees within trees, by size -/

namespace Tree

theorem size_le_of_mem {t u : Tree} (h : u ∈ t.subtrees) : u.size ≤ t.size := by
  induction t with
  | leaf id var =>
    rw [subtrees_leaf, List.mem_singleton] at h
    rw [h]
  | fork id l r ihl ihr =>
    rw [subtrees_fork, List.mem_cons, List.mem_append] at h
    rw [size]
    rcases h with rfl | h | h
    · rw [size]
    · have := ihl h
      omega
    · have := ihr h
      omega

/-- A tree within another one is that tree itself or a side of a fork within it. -/
theorem eq_or_side_of_mem {t u : Tree} (h : u ∈ t.subtrees) :
    u = t ∨ ∃ id l r, fork id l r ∈ t.subtrees ∧ (u = l ∨ u = r) := by
  induction t with
  | leaf id var =>
    rw [subtrees_leaf, List.mem_singleton] at h
    exact Or.inl h
  | fork id l r ihl ihr =>
    rw [subtrees_fork, List.mem_cons, List.mem_append] at h
    rcases h with rfl | h | h
    · exact Or.inl rfl
    · rcases ihl h with rfl | ⟨i, a, b, hab, hu⟩
      · exact Or.inr ⟨id, u, r, by simp, Or.inl rfl⟩
      · exact Or.inr ⟨i, a, b, by simp [hab], hu⟩
    · rcases ihr h with rfl | ⟨i, a, b, hab, hu⟩
      · exact Or.inr ⟨id, l, u, by simp, Or.inr rfl⟩
      · exact Or.inr ⟨i, a, b, by simp [hab], hu⟩

end Tree

/-! ## Tables of trees -/

theorem nodup_of_numbered {trees : List Tree}
    (h : ∀ (i : Nat) (u : Tree), trees[i]? = some u → u.id.raw = i) : trees.Nodup := by
  rw [List.nodup_iff_getElem?_ne_getElem?]
  intro i j hij hj heq
  rw [List.getElem?_eq_getElem (by omega), List.getElem?_eq_getElem hj] at heq
  have hi' := h i _ (List.getElem?_eq_getElem (by omega))
  have hj' := h j _ (List.getElem?_eq_getElem hj)
  rw [Option.some_inj.1 heq] at hi'
  omega

/-- Trees that bear the numbers of their places, each with its sides among them. -/
structure Shelf (trees : List Tree) : Prop where
  numbered : ∀ (i : Nat) (u : Tree), trees[i]? = some u → u.id.raw = i
  closed : ∀ i l r, Tree.fork i l r ∈ trees → l ∈ trees ∧ r ∈ trees

/-- Trees at their places of which none is a side twice. -/
structure Table (trees : List Tree) : Prop extends Shelf trees where
  unshared : (trees.flatMap Tree.children).Nodup

variable {trees : List Tree}

theorem Shelf.id_lt (h : Shelf trees) {u : Tree} (hu : u ∈ trees) : u.id.raw < trees.length := by
  obtain ⟨i, hi⟩ := List.mem_iff_getElem?.1 hu
  rw [h.numbered i u hi]
  exact (List.getElem?_eq_some_iff.1 hi).1

/-- The names of sides are names of trees. -/
theorem Shelf.child_lt (h : Shelf trees) {c : VtreeId} (hc : c ∈ trees.flatMap Tree.children) :
    c.raw < trees.length := by
  obtain ⟨u, hu, hc⟩ := List.mem_flatMap.1 hc
  cases u with
  | leaf i var => exact absurd hc (by simp [Tree.children])
  | fork i l r =>
    obtain ⟨hl, hr⟩ := h.closed i l r hu
    simp only [Tree.children, List.mem_cons, List.not_mem_nil, or_false] at hc
    rcases hc with rfl | rfl
    · exact h.id_lt hl
    · exact h.id_lt hr

namespace Table

theorem eq_of_id_eq (h : Table trees) {u w : Tree} (hu : u ∈ trees) (hw : w ∈ trees)
    (hid : u.id = w.id) : u = w := by
  obtain ⟨i, hi⟩ := List.mem_iff_getElem?.1 hu
  obtain ⟨j, hj⟩ := List.mem_iff_getElem?.1 hw
  have hij : i = j := by rw [← h.numbered i u hi, ← h.numbered j w hj, hid]
  subst hij
  exact Option.some_inj.1 (hi.symm.trans hj)

theorem nodup (h : Table trees) : trees.Nodup := nodup_of_numbered h.numbered

theorem subtrees_subset (h : Table trees) {t : Tree} (ht : t ∈ trees) : t.subtrees ⊆ trees := by
  induction t with
  | leaf id var =>
    rw [Tree.subtrees_leaf]
    exact List.cons_subset.2 ⟨ht, List.nil_subset _⟩
  | fork id l r ihl ihr =>
    obtain ⟨hl, hr⟩ := h.closed id l r ht
    rw [Tree.subtrees_fork]
    exact List.cons_subset.2 ⟨ht, List.append_subset.2 ⟨ihl hl, ihr hr⟩⟩

/-- A node is the child of one tree only. -/
theorem parent_unique (h : Table trees) {p q : Tree} (hp : p ∈ trees) (hq : q ∈ trees)
    {c : VtreeId} (hcp : c ∈ p.children) (hcq : c ∈ q.children) : p = q := by
  by_contra hne
  have : Std.Symm (Function.onFun List.Disjoint Tree.children) := ⟨fun _ _ h _ ha hb => h hb ha⟩
  -- a common child would be a child twice
  have hdisjoint : p.children.Disjoint q.children :=
    (List.nodup_flatMap.1 h.unshared).2.forall hp hq hne
  exact hdisjoint hcp hcq

/-- The sides of a fork have no tree in common. -/
theorem sides_disjoint (h : Table trees) {id : VtreeId} {l r : Tree}
    (ht : Tree.fork id l r ∈ trees) : l.subtrees.Disjoint r.subtrees := by
  have hl : l.subtrees ⊆ trees := h.subtrees_subset (h.closed id l r ht).1
  have hr : r.subtrees ⊆ trees := h.subtrees_subset (h.closed id l r ht).2
  have hchild : ∀ {i : VtreeId} {a b u : Tree}, u = a ∨ u = b →
      u.id ∈ (Tree.fork i a b).children := by
    rintro i a b u (rfl | rfl) <;> simp [Tree.children]
  -- a common tree has a common parent, which is larger, so the induction is on what is left
  have hmain : ∀ n, ∀ w : Tree, l.size + 1 - w.size = n → w ∈ l.subtrees → w ∉ r.subtrees := by
    intro n
    induction n using Nat.strongRecOn with
    | ind n ih =>
      intro w hn hwl hwr
      have hparent : ∀ {u : Tree}, u ∈ trees → w.id ∈ u.children → u.size ≤ l.size ∨ u.size ≤ r.size →
          u ≠ Tree.fork id l r := by
        rintro u - - hle rfl
        rw [Tree.size] at hle
        omega
      rcases Tree.eq_or_side_of_mem hwl with rfl | ⟨i, a, b, hp, hw⟩
      · rcases Tree.eq_or_side_of_mem hwr with rfl | ⟨j, c, d, hq, hw'⟩
        · have hnodup := (List.nodup_flatMap.1 h.unshared).1 _ ht
          exact absurd hnodup (by simp [Tree.children])
        · have hq' := hr hq
          refine hparent hq' (hchild hw') (Or.inr (Tree.size_le_of_mem hq)) ?_
          exact h.parent_unique hq' ht (hchild hw') (hchild (Or.inl rfl))
      · have hp' := hl hp
        rcases Tree.eq_or_side_of_mem hwr with rfl | ⟨j, c, d, hq, hw'⟩
        · refine hparent hp' (hchild hw) (Or.inl (Tree.size_le_of_mem hp)) ?_
          exact h.parent_unique hp' ht (hchild hw) (hchild (Or.inr rfl))
        · have heq : Tree.fork i a b = Tree.fork j c d :=
            h.parent_unique hp' (hr hq) (hchild hw) (hchild hw')
          have hsize : w.size < (Tree.fork i a b).size := by
            rw [Tree.size]
            rcases hw with rfl | rfl <;> omega
          have hle := Tree.size_le_of_mem hp
          exact ih (l.size + 1 - (Tree.fork i a b).size) (by omega) _ rfl hp (heq ▸ hq)
  intro w hwl hwr
  exact hmain _ w rfl hwl hwr

theorem names_nodup (h : Table trees) {t : Tree} (ht : t ∈ trees) :
    (t.subtrees.map Tree.id).Nodup := by
  have hnodup : t.subtrees.Nodup := by
    induction t with
    | leaf id var => simp
    | fork id l r ihl ihr =>
      obtain ⟨hl, hr⟩ := h.closed id l r ht
      rw [Tree.subtrees_fork, List.nodup_cons, List.nodup_append']
      refine ⟨?_, ihl hl, ihr hr, h.sides_disjoint ht⟩
      intro hmem
      have hsize : (Tree.fork id l r).size ≤ l.size ∨ (Tree.fork id l r).size ≤ r.size :=
        (List.mem_append.1 hmem).imp Tree.size_le_of_mem Tree.size_le_of_mem
      rw [Tree.size] at hsize
      omega
  have hsub := h.subtrees_subset ht
  exact hnodup.map_on fun a ha b hb hab => h.eq_of_id_eq (hsub ha) (hsub hb) hab

/-- No tree has more trees within it than the table has. -/
theorem size_le (h : Table trees) {t : Tree} (ht : t ∈ trees) : t.size ≤ trees.length := by
  rw [← Tree.length_subtrees]
  exact ((List.Nodup.of_map _ (h.names_nodup ht)).subperm (h.subtrees_subset ht)).length_le

/-- The trees within a tree that is as large as the table are the whole table. -/
theorem subtrees_perm (h : Table trees) {root : Tree} (hroot : root ∈ trees)
    (hsize : root.size = trees.length) : root.subtrees.Perm trees := by
  have hnodup := List.Nodup.of_map _ (h.names_nodup hroot)
  refine (hnodup.subperm (h.subtrees_subset hroot)).perm_of_length_le ?_
  rw [Tree.length_subtrees, hsize]

/-- A tree whose name is among the children of a tree is a side of it. -/
theorem exists_fork_of_child (h : Table trees) {p u : Tree} (hp : p ∈ trees) (hu : u ∈ trees)
    (hchild : u.id ∈ p.children) : ∃ i l r, p = .fork i l r ∧ (u = l ∨ u = r) := by
  cases p with
  | leaf i var => exact absurd hchild (by simp [Tree.children])
  | fork i l r =>
    obtain ⟨hl, hr⟩ := h.closed i l r hp
    simp only [Tree.children, List.mem_cons, List.not_mem_nil, or_false] at hchild
    exact ⟨i, l, r, rfl, hchild.imp (h.eq_of_id_eq hu hl) (h.eq_of_id_eq hu hr)⟩

/-- If every tree but one is a side of a tree, all are within that one. -/
theorem subset_subtrees (h : Table trees) {root : Tree}
    (hchild : ∀ u ∈ trees, u ≠ root → ∃ p ∈ trees, u.id ∈ p.children) :
    trees ⊆ root.subtrees := by
  -- parents are larger, so the induction is on how much larger a tree can be
  have hmain : ∀ d, ∀ u ∈ trees, (trees.map Tree.size).sum - u.size = d → u ∈ root.subtrees := by
    intro d
    induction d using Nat.strongRecOn with
    | ind d ih =>
      intro u hu hd
      by_cases hne : u = root
      · rw [hne]
        exact root.self_mem_subtrees
      · obtain ⟨p, hp, hup⟩ := hchild u hu hne
        obtain ⟨i, l, r, rfl, hside⟩ := h.exists_fork_of_child hp hu hup
        have hsize : u.size < (Tree.fork i l r).size := by
          rw [Tree.size]
          rcases hside with rfl | rfl <;> omega
        have hle : (Tree.fork i l r).size ≤ (trees.map Tree.size).sum :=
          List.le_sum_of_mem (List.mem_map_of_mem hp)
        obtain ⟨hl, hr⟩ := Tree.sides_mem (ih _ (by omega) _ hp rfl)
        rcases hside with rfl | rfl
        · exact hl
        · exact hr
  exact fun u hu => hmain _ u hu rfl

/-- The tree that is as large as the table and whose leaves fit is proper. -/
theorem proper (h : Table trees) {root : Tree} (hroot : root ∈ trees)
    (hsize : root.size = trees.length)
    (hrange : ∀ v ∈ trees.filterMap Tree.var?, 1 ≤ v ∧ v ≤ root.varCount)
    (hvars : (trees.filterMap Tree.var?).Nodup) : root.Proper := by
  have hperm := h.subtrees_perm hroot hsize
  have hleaf : root.leafVars.Perm (trees.filterMap Tree.var?) := by
    rw [← Tree.filterMap_var?]
    exact hperm.filterMap _
  constructor
  case names_nodup => exact h.names_nodup hroot
  case names_lt =>
    intro u hu
    obtain ⟨i, hi⟩ := List.mem_iff_getElem?.1 (hperm.subset hu)
    rw [h.numbered i u hi, hsize]
    exact (List.getElem?_eq_some_iff.1 hi).1
  case vars_nodup => exact hleaf.nodup_iff.2 hvars
  case vars_range => exact fun var hvar => hrange var (hleaf.mem_iff.1 hvar)

end Table

end Sentential.Vtree
