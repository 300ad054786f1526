import Mathlib.Data.List.Sort
import Sentential.Proofs.Format.VtreeRoundTrip

/-!
# How vtrees are numbered

The rules number their vtrees by in-order positions: read from left to right the names are
`0, 1, …` (`NumberedInOrder`). A file need not. Its numbers are a permutation of the in-order
positions, and every permutation occurs (`exists_read_iff`); they are the positions themselves if and
only if at every fork they are smaller on the left and larger on the right (`Tree.Ascending`), as in a
search tree. In that case leaves have the even numbers, since a tree has an odd number of nodes.
-/

namespace Sentential.Vtree

open Format Text

/-! ## Names from left to right -/

namespace Tree

/-- At every fork the names on the left are smaller and the names on the right are larger. -/
def Ascending (t : Tree) : Prop :=
  ∀ id l r, fork id l r ∈ t.subtrees →
    (∀ u ∈ l.subtrees, u.id.raw < id.raw) ∧ ∀ u ∈ r.subtrees, id.raw < u.id.raw

theorem mem_inOrder {t : Tree} {id : VtreeId} : id ∈ t.inOrder ↔ ∃ u ∈ t.subtrees, u.id = id := by
  rw [t.inOrder_perm.mem_iff, List.mem_map]

theorem length_inOrder (t : Tree) : t.inOrder.length = t.size := by
  rw [t.inOrder_perm.length_eq, List.length_map, length_subtrees]

theorem ascending_leaf (id : VtreeId) (var : Nat) : (leaf id var).Ascending := by
  intro i l r h
  exact absurd h (by simp)

theorem ascending_fork {id : VtreeId} {l r : Tree} : (fork id l r).Ascending ↔
    l.Ascending ∧ r.Ascending ∧ (∀ u ∈ l.subtrees, u.id.raw < id.raw) ∧
      ∀ u ∈ r.subtrees, id.raw < u.id.raw := by
  constructor
  · intro h
    refine ⟨fun i a b hab => h i a b ?_, fun i a b hab => h i a b ?_, h id l r (self_mem_subtrees _)⟩
    · simp [hab]
    · simp [hab]
  · rintro ⟨hl, hr, htop⟩ i a b hab
    rw [subtrees_fork, List.mem_cons, List.mem_append] at hab
    rcases hab with heq | hab | hab
    · obtain ⟨rfl, rfl, rfl⟩ := fork.inj heq
      exact htop
    · exact hl i a b hab
    · exact hr i a b hab

/-- The names ascend from left to right if and only if they do at every fork. -/
theorem pairwise_inOrder_iff (t : Tree) :
    t.inOrder.Pairwise (fun a b => a.raw < b.raw) ↔ t.Ascending := by
  induction t with
  | leaf id var => exact iff_of_true (List.pairwise_singleton _ _) (ascending_leaf id var)
  | fork id l r ihl ihr =>
    rw [inOrder, List.pairwise_append, List.pairwise_cons, ihl, ihr, ascending_fork]
    simp only [mem_inOrder, List.mem_cons]
    constructor
    · rintro ⟨hl, ⟨hid, hr⟩, hcross⟩
      exact ⟨hl, hr, fun u hu => hcross u.id ⟨u, hu, rfl⟩ id (Or.inl rfl),
        fun u hu => hid u.id ⟨u, hu, rfl⟩⟩
    · rintro ⟨hl, hr, hbelow, habove⟩
      refine ⟨hl, ⟨?_, hr⟩, ?_⟩
      · rintro _ ⟨u, hu, rfl⟩
        exact habove u hu
      · rintro _ ⟨u, hu, rfl⟩ b (rfl | ⟨w, hw, rfl⟩)
        · exact hbelow u hu
        · exact Nat.lt_trans (hbelow u hu) (habove w hw)

/-- If the names are consecutive numbers from left to right, those of the leaves are every other
one, beginning with the first. -/
theorem isLeaf_iff_of_inOrder {t : Tree} {first : Nat}
    (h : t.inOrder.map VtreeId.raw = List.range' first t.size) :
    ∀ u ∈ t.subtrees, u.isLeaf = true ↔ u.id.raw % 2 = first % 2 := by
  induction t generalizing first with
  | leaf id var =>
    obtain ⟨hid, -⟩ : id.raw = first ∧ True := by simpa [inOrder, size] using h
    intro u hu
    rw [subtrees_leaf, List.mem_singleton] at hu
    rw [hu, show (leaf id var).id = id from rfl, hid]
    exact iff_of_true rfl rfl
  | fork id l r ihl ihr =>
    have hodd := l.size_add_one
    have hcount : (fork id l r).size = l.size + (1 + r.size) := by rw [size]; omega
    rw [hcount, ← List.range'_append_1, Nat.add_comm 1, List.range'_succ, inOrder, List.map_append,
      List.map_cons] at h
    obtain ⟨hl, hrest⟩ := List.append_inj h (by rw [List.length_map, length_inOrder, List.length_range'])
    obtain ⟨hid, hr⟩ := List.cons.inj hrest
    rw [subtrees_fork, List.forall_mem_cons, List.forall_mem_append]
    refine ⟨iff_of_false (by simp [isLeaf]) ?_, ihl hl, fun u hu => ?_⟩
    · rw [show (fork id l r).id.raw = id.raw from rfl, hid]
      omega
    · rw [ihr hr u hu, show (first + l.size + 1) % 2 = first % 2 by omega]

end Tree

/-! ## In-order positions -/

/-- The name of every node is its place among all nodes from left to right. -/
def NumberedInOrder (v : Vtree) : Prop := v.root.inOrder = v.ids

variable {v : Vtree} {text : List Char}

theorem numberedInOrder_ofTree {t : Tree} :
    (ofTree t).NumberedInOrder ↔ t.inOrder.map VtreeId.raw = List.range t.size := by
  have hids : (ofTree t).ids.map VtreeId.raw = List.range t.size := by
    rw [ids, List.map_map, numNodes_ofTree]
    exact List.map_id _
  rw [NumberedInOrder, root_ofTree, ← hids]
  refine ⟨congrArg _, fun h => List.map_injective_iff.2 ?_ h⟩
  rintro ⟨a⟩ ⟨b⟩ hab
  exact congrArg VtreeId.mk hab

/-- The names of a proper vtree are its in-order positions in some order. -/
theorem Proper.inOrder_perm (h : v.Proper) : v.root.inOrder.Perm v.ids := by
  obtain ⟨t, ht, rfl⟩ := h
  rw [root_ofTree, ids, numNodes_ofTree]
  have hnames := ht.names_perm.map VtreeId.mk
  rw [List.map_map] at hnames
  exact t.inOrder_perm.trans hnames

/-- A proper vtree is numbered by in-order positions if and only if its names ascend. -/
theorem Proper.numberedInOrder_iff (h : v.Proper) : v.NumberedInOrder ↔ v.root.Ascending := by
  have hids : v.ids.Pairwise (fun a b => a.raw < b.raw) := by
    rw [ids, List.pairwise_map]
    exact List.pairwise_lt_range
  rw [← Tree.pairwise_inOrder_iff, NumberedInOrder]
  constructor
  · intro heq
    rwa [heq]
  · -- there is only one way to put names in ascending order
    intro hpairwise
    have hasymm : ∀ a b : VtreeId, a.raw < b.raw → b.raw < a.raw → a = b :=
      fun a b hab hba => absurd (Nat.lt_trans hab hba) (Nat.lt_irrefl _)
    exact h.inOrder_perm.eq_of_pairwise (fun a b _ _ => hasymm a b) hpairwise hids

/-- Where names are in-order positions the leaves have the even ones. -/
theorem NumberedInOrder.isLeaf_iff (h : v.NumberedInOrder) (hv : v.Proper) :
    ∀ u ∈ v.root.subtrees, u.isLeaf = true ↔ u.id.raw % 2 = 0 := by
  obtain ⟨t, -, rfl⟩ := hv
  rw [numberedInOrder_ofTree, List.range_eq_range'] at h
  exact Tree.isLeaf_iff_of_inOrder h

/-- The rules number their vtrees by in-order positions. -/
theorem numberedInOrder_generate {rule : Split} {n : Nat} (h : generate rule n = .ok v) :
    v.NumberedInOrder := by
  rw [generate] at h
  split at h
  · exact absurd h (by simp)
  · next hn =>
    obtain rfl := Except.ok.inj h
    have hpos := Nat.pos_of_ne_zero hn
    rw [numberedInOrder_ofTree, Tree.inOrder_ofRange rule hpos, Tree.size_ofRange rule hpos,
      List.range_eq_range']

/-! ## The numbers of a file -/

/-- The vtrees that are read from texts are the proper ones whose names are words, with any
numbering. -/
theorem exists_read_iff (v : Vtree) :
    (∃ text, ofFileText text = .ok v) ↔ v.Proper ∧ v.numNodes ≤ Decimal.pow2 32 := by
  constructor
  · rintro ⟨text, h⟩
    exact ⟨proper_ofFileText h, numNodes_le_of_read h⟩
  · rintro ⟨hproper, hsize⟩
    exact ⟨v.fileText, hproper.ofFileText_fileText hsize⟩

/-- The names of a vtree are its in-order positions if a rule generates it. If it is read from a
text they are the positions in any order, and in the right order if and only if they ascend at every
fork; then the leaves have the even ones. -/
theorem numbering_of_obtained (v : Vtree) :
    (∀ rule n, generate rule n = .ok v → v.NumberedInOrder) ∧
    ((∃ text, ofFileText text = .ok v) ↔ v.Proper ∧ v.numNodes ≤ Decimal.pow2 32) ∧
    ∀ text, ofFileText text = .ok v →
      v.root.inOrder.Perm v.ids ∧ (v.NumberedInOrder ↔ v.root.Ascending) ∧
      (v.NumberedInOrder → ∀ u ∈ v.root.subtrees, u.isLeaf = true ↔ u.id.raw % 2 = 0) := by
  refine ⟨fun rule n => numberedInOrder_generate, exists_read_iff v, fun text h => ?_⟩
  have hproper := proper_ofFileText h
  exact ⟨hproper.inOrder_perm, hproper.numberedInOrder_iff, fun hv => hv.isLeaf_iff hproper⟩

theorem numbering_of_obtained_sample : pair.NumberedInOrder ∧
    (∃ text, ofFileText text = .ok pair) ∧ ∃ v, ofFileText crossedText = .ok v ∧
      v.root.inOrder.Perm v.ids ∧ (v.NumberedInOrder ↔ v.root.Ascending) ∧
      (v.NumberedInOrder → ∀ u ∈ v.root.subtrees, u.isLeaf = true ↔ u.id.raw % 2 = 0) := by
  obtain ⟨hgenerated, hiff, -⟩ := numbering_of_obtained pair
  obtain ⟨v, hv, -⟩ := ofFileText_of_isVtreeFile isVtreeFile_crossedText
  obtain ⟨-, -, hread⟩ := numbering_of_obtained v
  exact ⟨hgenerated .middle 2 balanced_two,
    hiff.2 ⟨proper_generate balanced_two, by decide⟩, v, hv, hread _ hv⟩

/-- A file that numbers the leaves before the root. -/
def leavesFirstText : List Char := "vtree 3\nL 0 1\nL 1 2\nI 2 0 1\n".toList

/-- The file is read, the root keeps a number that is larger than that of its right side, and the
leaf on the right an odd one. -/
theorem not_numberedInOrder_leavesFirst : ∃ v, ofFileText leavesFirstText = .ok v ∧
    v.root = .fork ⟨2⟩ (.leaf ⟨0⟩ 1) (.leaf ⟨1⟩ 2) ∧ v.root.inOrder = [⟨0⟩, ⟨2⟩, ⟨1⟩] ∧
    v.ids = [⟨0⟩, ⟨1⟩, ⟨2⟩] ∧ ¬ v.NumberedInOrder := by
  have hread : ofFileText leavesFirstText
      = .ok (ofTree (.fork ⟨2⟩ (.leaf ⟨0⟩ 1) (.leaf ⟨1⟩ 2))) := by decide +kernel
  exact ⟨_, hread, rfl, rfl, rfl, by unfold NumberedInOrder; decide⟩

end Sentential.Vtree
