import Sentential.Proofs.Meaning.Function
import Sentential.Proofs.Store.History

/-!
# The order of the subtrees

`Vtree.isUnder` climbs along the parents with fuel. The loop itself has none: `Climbs` is one climb,
round by round, so it is there only if the climb comes to an end, and the answer with fuel is that of
a climb of at most as many rounds (`climb_eq_ok`). In the vtrees that there are every climb ends, and
its answers order the nodes as their subtrees and their variables do (`Obtained.subtreeOrdered`):
trees within a proper tree that share a variable lie one within the other (`Tree.nested`), and of two
such trees the one within the other has fewer variables.
-/

namespace Sentential.Vtree

variable {v : Vtree} {a b p : VtreeId} {t u : Tree} {n m fuel : Nat} {answer other : Bool}

/-! ## The loop -/

/-- The climb from a node in search of `ancestor` ends with an answer, and so many times a parent has
been asked for. -/
inductive Climbs (v : Vtree) (ancestor : VtreeId) : Nat → VtreeId → Bool → Prop
  | found : Climbs v ancestor 0 ancestor true
  | top {id : VtreeId} : id ≠ ancestor → v.parent id = .ok none → Climbs v ancestor 1 id false
  | up {n : Nat} {id p : VtreeId} {answer : Bool} : id ≠ ancestor →
      v.parent id = .ok (some p) → Climbs v ancestor n p answer → Climbs v ancestor (n + 1) id answer

/-- A climb can only go one way. -/
theorem Climbs.unique (h : v.Climbs b n a answer) (h' : v.Climbs b m a other) :
    n = m ∧ answer = other := by
  induction h generalizing m with
  | found =>
    cases h' with
    | found => exact ⟨rfl, rfl⟩
    | top hne => exact absurd rfl hne
    | up hne => exact absurd rfl hne
  | top hne hparent =>
    cases h' with
    | found => exact absurd rfl hne
    | top => exact ⟨rfl, rfl⟩
    | up _ hparent' => exact absurd (hparent.symm.trans hparent') (by simp)
  | up hne hparent _ ih =>
    cases h' with
    | found => exact absurd rfl hne
    | top _ hparent' => exact absurd (hparent.symm.trans hparent') (by simp)
    | up _ hparent' hrest =>
      obtain rfl := Option.some_inj.1 (Except.ok.inj (hparent.symm.trans hparent'))
      obtain ⟨rfl, rfl⟩ := ih hrest
      exact ⟨rfl, rfl⟩

/-- Fuel for all rounds of a climb is enough. -/
theorem Climbs.climb (h : v.Climbs b n a answer) (hfuel : n ≤ fuel) :
    v.climb b fuel a = .ok answer := by
  induction h generalizing fuel with
  | found => cases fuel <;> simp [Vtree.climb]
  | top hne hparent =>
    obtain ⟨fuel, rfl⟩ := Nat.exists_eq_succ_of_ne_zero (Nat.ne_of_gt hfuel)
    rw [Vtree.climb, if_neg hne, hparent]
  | up hne hparent _ ih =>
    obtain ⟨fuel, rfl⟩ := Nat.exists_eq_succ_of_ne_zero (Nat.ne_of_gt (Nat.zero_lt_of_lt hfuel))
    rw [Vtree.climb, if_neg hne, hparent]
    exact ih (Nat.le_of_succ_le_succ hfuel)

/-- What is answered with fuel is the answer of a climb of at most as many rounds. -/
theorem climb_eq_ok : v.climb b fuel a = .ok answer ↔ ∃ n ≤ fuel, v.Climbs b n a answer := by
  refine ⟨fun h => ?_, fun ⟨n, hn, h⟩ => h.climb hn⟩
  induction fuel generalizing a with
  | zero =>
    rw [Vtree.climb] at h
    split at h
    · next hab =>
      obtain rfl := hab
      obtain rfl := Except.ok.inj h
      exact ⟨0, Nat.le_refl 0, .found⟩
    · exact absurd h (by simp)
  | succ fuel ih =>
    rw [Vtree.climb] at h
    split at h
    · next hab =>
      obtain rfl := hab
      obtain rfl := Except.ok.inj h
      exact ⟨0, Nat.zero_le _, .found⟩
    · next hab =>
      split at h
      · exact absurd h (by simp)
      · next hparent =>
        obtain rfl := Except.ok.inj h
        exact ⟨1, Nat.succ_le_succ (Nat.zero_le _), .top hab hparent⟩
      · next p hparent =>
        obtain ⟨n, hn, hrest⟩ := ih h
        exact ⟨n + 1, Nat.succ_le_succ hn, .up hab hparent hrest⟩

/-! ## Variables of trees within a tree -/

namespace Tree

/-- Trees that share a variable lie one within the other if no variable is at two leaves. -/
theorem nested {root : Tree} (hroot : root.leafVars.Nodup) (ht : t ∈ root.subtrees)
    (hu : u ∈ root.subtrees) {var : Nat} (hvt : var ∈ t.leafVars) (hvu : var ∈ u.leafVars) :
    t ∈ u.subtrees ∨ u ∈ t.subtrees := by
  induction root with
  | leaf id x =>
    rw [subtrees_leaf, List.mem_singleton] at ht hu
    rw [ht, hu]
    exact Or.inl (self_mem_subtrees _)
  | fork id l r ihl ihr =>
    obtain ⟨hl, hr, hdisjoint⟩ := List.nodup_append'.1 hroot
    -- a variable of a tree within a side is a variable of that side
    have hside : ∀ {s w : Tree}, w ∈ s.subtrees → var ∈ w.leafVars → var ∈ s.leafVars :=
      fun hw hvar => (leafVars_sublist hw).subset hvar
    rcases List.mem_cons.1 (subtrees_fork id l r ▸ ht) with rfl | ht'
    · exact Or.inr hu
    · rcases List.mem_cons.1 (subtrees_fork id l r ▸ hu) with rfl | hu'
      · exact Or.inl ht
      · rcases List.mem_append.1 ht' with htl | htr
        · rcases List.mem_append.1 hu' with hul | hur
          · exact ihl hl htl hul
          · exact absurd (hside hur hvu) (hdisjoint (hside htl hvt))
        · rcases List.mem_append.1 hu' with hul | hur
          · exact absurd (hside htr hvt) (hdisjoint (hside hul hvu))
          · exact ihr hr htr hur

/-- Only the tree itself is within the tree and has as many variables. -/
theorem eq_of_mem_of_varCount_le (h : u ∈ t.subtrees) (hle : t.varCount ≤ u.varCount) : u = t := by
  apply eq_of_mem_of_size_le h
  have ht := t.size_add_one
  have hu := u.size_add_one
  omega

theorem varCount_le_of_mem (h : u ∈ t.subtrees) : u.varCount ≤ t.varCount := by
  rw [← length_leafVars, ← length_leafVars]
  exact (leafVars_sublist h).length_le

theorem exists_mem_leafVars (t : Tree) : ∃ var, var ∈ t.leafVars :=
  List.exists_mem_of_length_pos (t.length_leafVars ▸ t.varCount_pos)

/-- Within a tree that has every variable at one leaf, the trees are ordered as their variables. -/
theorem leafVars_subset_iff {root : Tree} (hroot : root.leafVars.Nodup) (ht : t ∈ root.subtrees)
    (hu : u ∈ root.subtrees) : t.leafVars ⊆ u.leafVars ↔ t ∈ u.subtrees := by
  refine ⟨fun hsub => ?_, fun hmem => (leafVars_sublist hmem).subset⟩
  obtain ⟨var, hvar⟩ := t.exists_mem_leafVars
  rcases nested hroot ht hu hvar (hsub hvar) with hmem | hmem
  · exact hmem
  · -- then `t` is the larger tree, and it has no more variables
    have hnodup : t.leafVars.Nodup := (leafVars_sublist ht).nodup hroot
    have hle : t.varCount ≤ u.varCount := by
      rw [← length_leafVars, ← length_leafVars]
      exact (hnodup.subperm hsub).length_le
    rw [eq_of_mem_of_varCount_le hmem hle]
    exact self_mem_subtrees t

end Tree

/-! ## The order -/

/-- Climbing from node to node comes to an end and finds out which nodes are below which. -/
structure SubtreeOrdered (v : Vtree) : Prop where
  /-- The loop ends with the answer, and no other end is possible. -/
  climbs : ∀ a b, a.raw < v.numNodes → b.raw < v.numNodes → ∃ n answer, n ≤ v.numNodes ∧
    v.Climbs b n a answer ∧ v.isUnder a b = .ok answer ∧
    ∀ m other, v.Climbs b m a other → m = n ∧ other = answer
  isUnder_iff_above : ∀ a b, a.raw < v.numNodes → b.raw < v.numNodes →
    (v.isUnder a b = .ok true ↔ v.Above b a)
  /-- The variables below a node are those of the leaves that are below it. -/
  mem_varsBelow : ∀ a var, a.raw < v.numNodes → (var ∈ v.varsBelow a ↔
    ∃ leaf i, v.Above a leaf ∧ v.subtree? leaf = some (.leaf i var))
  isUnder_iff_subset : ∀ a b, a.raw < v.numNodes → b.raw < v.numNodes →
    (v.isUnder a b = .ok true ↔ v.varsBelow a ⊆ v.varsBelow b)
  not_both : ∀ a p i l r, a.raw < v.numNodes → v.subtree? p = some (.fork i l r) →
    ¬ (v.isUnder a l.id = .ok true ∧ v.isUnder a r.id = .ok true)
  varCount_le : ∀ a b, a.raw < v.numNodes → b.raw < v.numNodes → v.isUnder a b = .ok true →
    ∃ n m, v.varCount a = .ok n ∧ v.varCount b = .ok m ∧ n ≤ m ∧ (n = m → a = b)

theorem varCount_eq_ok (ht : v.subtree? a = some t) : v.varCount a = .ok t.varCount := by
  rw [varCount, subtree_eq_ok.2 ht]
  rfl

namespace Proper

variable (h : v.Proper)
include h

theorem mem_varsBelow (ht : v.subtree? a = some t) {var : Nat} : var ∈ v.varsBelow a ↔
    ∃ leaf i, v.Above a leaf ∧ v.subtree? leaf = some (.leaf i var) := by
  rw [varsBelow_eq ht, List.mem_toFinset, Tree.mem_leafVars]
  constructor
  · rintro ⟨i, hmem⟩
    have hleaf : v.subtree? i = some (.leaf i var) := h.subtree?_of_mem ht hmem
    exact ⟨i, i, (h.above_iff ht hleaf).2 hmem, hleaf⟩
  · rintro ⟨leaf, i, habove, hleaf⟩
    exact ⟨i, (h.above_iff ht hleaf).1 habove⟩

/-- The variables below a node are among those below another one if its tree is within the tree of
the other. -/
theorem varsBelow_subset_iff (ht : v.subtree? a = some t) (hu : v.subtree? b = some u) :
    v.varsBelow a ⊆ v.varsBelow b ↔ t ∈ u.subtrees := by
  have hnodup : v.root.leafVars.Nodup := h.leafVars_nodup h.subtree?_root
  rw [varsBelow_eq ht, varsBelow_eq hu,
    ← Tree.leafVars_subset_iff hnodup (h.mem_root ht) (h.mem_root hu)]
  simp only [Finset.subset_iff, List.mem_toFinset, List.subset_def]

/-- The loop comes to an end from every node. -/
theorem exists_climbs (ha : a.raw < v.numNodes) (b : VtreeId) : ∃ n answer, n ≤ v.numNodes ∧
    v.Climbs b n a answer ∧ v.isUnder a b = .ok answer ∧
    ∀ m other, v.Climbs b m a other → m = n ∧ other = answer := by
  obtain ⟨t, ht⟩ := exists_subtree?_iff.2 ha
  have hanswer := h.isUnder_eq ht b
  obtain ⟨n, hn, hclimbs⟩ := climb_eq_ok.1 hanswer
  exact ⟨n, _, hn, hclimbs, hanswer, fun m other hother => hother.unique hclimbs⟩

/-- Nothing is below both sides of a fork: it would have variables on both sides. -/
theorem not_both_sides {i : VtreeId} {l r : Tree} (hfork : v.subtree? p = some (.fork i l r))
    (ht : v.subtree? a = some t) :
    ¬ (v.isUnder a l.id = .ok true ∧ v.isUnder a r.id = .ok true) := by
  rintro ⟨hl, hr⟩
  obtain ⟨hgetl, hgetr⟩ := h.subtree?_sides hfork
  obtain rfl : i = p := h.id_eq hfork
  obtain ⟨var, hvar⟩ := t.exists_mem_leafVars
  have hvarl := (Tree.leafVars_sublist ((h.isUnder_iff ht hgetl).1 hl)).subset hvar
  have hvarr := (Tree.leafVars_sublist ((h.isUnder_iff ht hgetr).1 hr)).subset hvar
  exact h.sides_disjoint hfork hvarl hvarr

end Proper

/-- In every vtree that a caller can get hold of, climbing comes to an end and answers as the
subtrees and their variables are ordered. -/
theorem Obtained.subtreeOrdered (h : v.Obtained) : v.SubtreeOrdered := by
  have hproper : v.Proper := h.proper
  constructor
  case climbs => exact fun a b ha _ => hproper.exists_climbs ha b
  case isUnder_iff_above =>
    intro a b ha hb
    obtain ⟨t, ht⟩ := exists_subtree?_iff.2 ha
    obtain ⟨u, hu⟩ := exists_subtree?_iff.2 hb
    rw [hproper.isUnder_iff ht hu, hproper.above_iff hu ht]
  case mem_varsBelow =>
    intro a var ha
    obtain ⟨t, ht⟩ := exists_subtree?_iff.2 ha
    exact hproper.mem_varsBelow ht
  case isUnder_iff_subset =>
    intro a b ha hb
    obtain ⟨t, ht⟩ := exists_subtree?_iff.2 ha
    obtain ⟨u, hu⟩ := exists_subtree?_iff.2 hb
    rw [hproper.isUnder_iff ht hu, hproper.varsBelow_subset_iff ht hu]
  case not_both =>
    intro a p i l r ha hfork
    obtain ⟨t, ht⟩ := exists_subtree?_iff.2 ha
    exact hproper.not_both_sides hfork ht
  case varCount_le =>
    intro a b ha hb hunder
    obtain ⟨t, ht⟩ := exists_subtree?_iff.2 ha
    obtain ⟨u, hu⟩ := exists_subtree?_iff.2 hb
    have hmem : t ∈ u.subtrees := (hproper.isUnder_iff ht hu).1 hunder
    refine ⟨_, _, varCount_eq_ok ht, varCount_eq_ok hu, Tree.varCount_le_of_mem hmem, fun heq => ?_⟩
    obtain rfl : t = u := Tree.eq_of_mem_of_varCount_le hmem heq.ge
    rw [← hproper.id_eq ht, ← hproper.id_eq hu]

/-- A file over three variables whose numbers follow no order. -/
def shuffledText : List Char := "vtree 5\nL 4 3\nL 1 1\nL 0 2\nI 3 1 4\nI 2 3 0\n".toList

/-- The vtree of the file. -/
def shuffled : Vtree :=
  ofTree (.fork ⟨2⟩ (.fork ⟨3⟩ (.leaf ⟨1⟩ 1) (.leaf ⟨4⟩ 3)) (.leaf ⟨0⟩ 2))

theorem ofFileText_shuffledText : ofFileText shuffledText = .ok shuffled := by decide +kernel

theorem subtreeOrdered_shuffled : shuffled.Obtained ∧ shuffled.SubtreeOrdered ∧
    shuffled.isUnder ⟨4⟩ ⟨3⟩ = .ok true ∧ shuffled.isUnder ⟨4⟩ ⟨0⟩ = .ok false :=
  have hread : shuffled.Obtained := .read ofFileText_shuffledText
  ⟨hread, hread.subtreeOrdered, rfl, rfl⟩

end Sentential.Vtree
