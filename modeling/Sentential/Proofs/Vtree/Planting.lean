import Sentential.Proofs.Vtree.Assembly
import Sentential.Proofs.Vtree.Consistency
import Sentential.Proofs.Vtree.Numbering

/-!
# Generated vtrees

A rule that splits every range in two gives a vtree for every number of variables, as long as its
names are words. The stack of ranges puts down the nodes of the tree over the range, the right side
of a node before the left one (`plan_ofRange`), so every place of the table is filled once; and the
cells are those of a proper tree, so they are accepted (`generates_of_le`).

What sets the three rules apart is where they cut: every fork within a generated tree is a range
that the rule has cut (`fork_mem_ofRange`).
-/

namespace Sentential.Vtree

open Decimal (pow2)

/-- Cells with names that are places of the table are put down one after the other. -/
theorem foldlM_putDown {cells : List (VtreeId × Cell)} {table : Array (Option Cell)}
    (hlt : ∀ c ∈ cells, c.1.raw < table.size) : cells.foldlM putDown table
      = .ok (fill (fun c => c.1.raw) (fun c => some c.2) cells table) := by
  induction cells generalizing table with
  | nil => rfl
  | cons c cells ih =>
    obtain ⟨hc, hlt⟩ := List.forall_mem_cons.1 hlt
    rw [List.foldlM_cons, putDown, if_pos hc, ok_bind]
    exact ih (by simpa using hlt)

namespace Tree

/-- The trees within a tree, a tree before those within it and the right side before the left. -/
def rightFirst : Tree → List Tree
  | leaf id var => [leaf id var]
  | fork id l r => fork id l r :: (r.rightFirst ++ l.rightFirst)

theorem rightFirst_perm (t : Tree) : t.rightFirst.Perm t.subtrees := by
  induction t with
  | leaf id var => exact .refl _
  | fork id l r ihl ihr =>
    rw [rightFirst, subtrees_fork]
    exact (List.perm_append_comm.trans (ihl.append ihr)).cons _

/-- The cells of all nodes with their names, in the order in which they are put down. -/
def placed (t : Tree) : List (VtreeId × Cell) := t.rightFirst.map fun u => (u.id, u.cell)

variable (rule : Split) {lo hi : Nat}

/-- The node over a range has the name that is computed from the range. -/
theorem rangeName_ofRange (h : lo < hi) (hword : hi ≤ pow2 31) :
    rangeName rule.cut lo hi = (ofRange rule lo hi).id := by
  have hpow : pow2 32 = 2 * pow2 31 := by decide
  by_cases hlt : lo + 1 < hi
  · have hcut := rule.within lo hi hlt
    rw [rangeName, if_neg (by omega), ofRange_fork rule hlt, word_of_lt (by omega)]
    rfl
  · rw [rangeName, if_pos (by omega), ofRange_leaf rule hlt, word_of_lt (by omega)]
    rfl

/-- A range on top of the stack puts down the nodes of its tree. The assertion on the cut holds
whenever it is met. -/
theorem plan_ofRange (h : lo < hi) (hword : hi ≤ pow2 31) (stack : List (Nat × Nat)) :
    plan rule.cut ((lo, hi) :: stack)
      = (plan rule.cut stack).map ((ofRange rule lo hi).placed ++ ·) := by
  induction lo, hi, h using ofRange_induction rule generalizing stack with
  | one lo =>
    have hpow : pow2 32 = 2 * pow2 31 := by decide
    rw [plan, if_pos (Nat.add_sub_cancel_left lo 1), rangeName_ofRange rule (by omega) hword,
      word_of_lt (by omega), ofRange_leaf rule (by omega)]
    cases plan rule.cut stack <;> rfl
  | split lo hi hlt ihl ihr =>
    have hcut := rule.within lo hi hlt
    rw [plan, if_neg (by omega)]
    simp only [if_pos hcut]
    rw [ihr hword, ihl (by omega), rangeName_ofRange rule (by omega) hword,
      rangeName_ofRange rule hcut.1 (by omega), rangeName_ofRange rule hcut.2 hword,
      ofRange_fork rule hlt]
    cases plan rule.cut stack with
    | error e => rfl
    | ok cells =>
      simp only [Except.map, ok_bind, pure_eq, placed, rightFirst, List.map_cons, List.map_append,
        List.cons_append, List.append_assoc]
      rfl

/-- Every fork within a generated tree is a range of at least two leaves that the rule has cut. -/
theorem fork_mem_ofRange (h : lo < hi) {id : VtreeId} {l r : Tree}
    (hfork : fork id l r ∈ (ofRange rule lo hi).subtrees) :
    ∃ a b, a + 1 < b ∧ l = ofRange rule a (rule.cut a b) ∧ r = ofRange rule (rule.cut a b) b := by
  induction lo, hi, h using ofRange_induction rule with
  | one lo =>
    rw [ofRange_leaf rule (by omega)] at hfork
    exact absurd hfork (by simp)
  | split lo hi hlt ihl ihr =>
    rw [ofRange_fork rule hlt, subtrees_fork, List.mem_cons, List.mem_append] at hfork
    rcases hfork with heq | hfork | hfork
    · obtain ⟨-, rfl, rfl⟩ := fork.inj heq
      exact ⟨lo, hi, hlt, rfl, rfl⟩
    · exact ihl hfork
    · exact ihr hfork

/-- Every leaf has the name that is twice its place among the leaves. -/
theorem leaf_mem_ofRange (h : lo < hi) {k : Nat} (hlo : lo ≤ k) (hhi : k < hi) :
    leaf ⟨2 * k⟩ (k + 1) ∈ (ofRange rule lo hi).subtrees := by
  induction lo, hi, h using ofRange_induction rule with
  | one lo =>
    obtain rfl : k = lo := by omega
    rw [ofRange_leaf rule (by omega)]
    exact List.mem_singleton_self _
  | split lo hi hlt ihl ihr =>
    rw [ofRange_fork rule hlt, subtrees_fork, List.mem_cons, List.mem_append]
    by_cases hk : k < rule.cut lo hi
    · exact Or.inr (Or.inl (ihl hlo hk))
    · exact Or.inr (Or.inr (ihr (by omega) hhi))

namespace Proper

variable {t : Tree} (h : t.Proper)
include h

/-- The nodes that are put down fill every place of the table once. -/
theorem placed_perm : (t.placed.map fun c => c.1.raw).Perm (List.range t.size) := by
  rw [placed, List.map_map]
  exact (t.rightFirst_perm.map _).trans h.names_perm

/-- The table that the cells are put down in holds the cells of the tree. -/
theorem putDown_placed :
    ∃ table, t.placed.foldlM putDown (.replicate t.size none) = .ok table ∧
      table.toList.mapM filled = .ok ((ofTree t).subtrees.map cell).toList := by
  have hplaced := h.placed_perm
  have hnodup : (t.placed.map fun c => c.1.raw).Nodup := hplaced.nodup_iff.2 List.nodup_range
  have hcovers : ∀ i < t.size, i ∈ t.placed.map fun c => c.1.raw :=
    fun i hi => hplaced.mem_iff.2 (List.mem_range.2 hi)
  refine ⟨_, foldlM_putDown fun c hc => ?_, ?_⟩
  · have hmem : c.1.raw ∈ t.placed.map fun c => c.1.raw := List.mem_map_of_mem hc
    rw [Array.size_replicate]
    exact List.mem_range.1 (hplaced.mem_iff.1 hmem)
  · -- the trees in another order are entered at their names
    have htable : fill (fun c : VtreeId × Cell => c.1.raw) Prod.snd t.placed
        (.replicate t.size t.cell) = (ofTree t).subtrees.map cell := by
      rw [h.map_subtrees_ofTree cell t.cell, ← fill_perm t.rightFirst_perm
        ((t.rightFirst_perm.map _).nodup_iff.2 h.raw_nodup), fill, fill, placed, List.foldl_map]
    rw [mapM_filled_fill hnodup hcovers t.cell, htable]

end Proper
end Tree

/-! ## The vtree of a rule -/

/-- What it means that a rule generates a vtree over `1, …, n` without a fault on the way: the cut
of every range leaves leaves on both sides, every place is filled once, and the table is accepted.
The vtree is as large as it should be, and every node has its in-order position for a name. -/
structure Generates (rule : Split) (n : Nat) (v : Vtree) : Prop where
  generate : generate rule n = .ok v
  placed_once : ∃ cells, plan rule.cut [(0, n)] = .ok cells ∧
    (cells.map fun c => c.1.raw).Perm (List.range (2 * n - 1))
  planted : plant rule.cut n = .ok v.listing
  consistent : v.Consistent
  numNodes : v.numNodes = 2 * n - 1
  numVars : v.numVars = n
  inOrder : v.NumberedInOrder
  leafOf : ∀ var, 1 ≤ var → var ≤ n → v.leafOf var = .ok ⟨2 * (var - 1)⟩

variable {n : Nat}

/-- The table of the ranges and the tree of the rule are one vtree. -/
theorem plant_eq (rule : Split) (hpos : 1 ≤ n) (hword : n ≤ pow2 31) :
    plant rule.cut n = .ok (ofTree (.ofRange rule 0 n)).listing := by
  have hpow : pow2 32 = 2 * pow2 31 := by decide
  have hproper := Tree.proper_ofRange rule hpos
  have hsize : (Tree.ofRange rule 0 n).size = 2 * n - 1 := Tree.size_ofRange rule hpos
  obtain ⟨table, hput, hfilled⟩ := hproper.putDown_placed
  rw [hsize] at hput
  have hplan : plan rule.cut [(0, n)] = .ok (Tree.ofRange rule 0 n).placed := by
    rw [Tree.plan_ofRange rule hpos hword, plan, Except.map, List.append_nil]
  rw [plant, if_neg (by omega), hplan, ok_bind, hput, ok_bind, hfilled, ok_bind,
    Array.toArray_toList, Tree.rangeName_ofRange rule hpos hword,
    hproper.assemble_eq (by omega), ok_bind]
  rfl

/-- Every rule generates a vtree over `1, …, n` whose names are words. -/
theorem generates_of_le (rule : Split) (hpos : 1 ≤ n) (hword : n ≤ pow2 31) :
    Generates rule n (ofTree (.ofRange rule 0 n)) := by
  have hproper := Tree.proper_ofRange rule hpos
  have hsize : (Tree.ofRange rule 0 n).size = 2 * n - 1 := Tree.size_ofRange rule hpos
  have hgenerate : Vtree.generate rule n = .ok (ofTree (.ofRange rule 0 n)) := by
    rw [Vtree.generate, if_neg (by omega)]
  constructor
  case generate => exact hgenerate
  case placed_once =>
    refine ⟨(Tree.ofRange rule 0 n).placed, ?_, ?_⟩
    · rw [Tree.plan_ofRange rule hpos hword, plan, Except.map, List.append_nil]
    · rw [← hsize]
      exact hproper.placed_perm
  case planted => exact plant_eq rule hpos hword
  case consistent => exact Proper.consistent ⟨_, hproper, rfl⟩
  case numNodes => rw [numNodes_ofTree, hsize]
  case numVars => rw [numVars_ofTree, Tree.varCount_ofRange rule hpos, Nat.sub_zero]
  case inOrder => exact numberedInOrder_generate hgenerate
  case leafOf =>
    intro var hvar hle
    have hleaf := Tree.leaf_mem_ofRange rule hpos (k := var - 1) (Nat.zero_le _) (by omega)
    rw [Nat.sub_add_cancel hvar] at hleaf
    exact (leafOf_ofTree hproper var _).2 hleaf

/-! ## The three shapes -/

variable {v : Vtree} {p i : VtreeId} {l r : Tree}

/-- A rule generates one vtree only. -/
theorem Generates.eq_ofTree {rule : Split} (h : Generates rule n v) :
    1 ≤ n ∧ v = ofTree (.ofRange rule 0 n) := by
  have hgenerate := h.generate
  rw [Vtree.generate] at hgenerate
  split at hgenerate
  · exact absurd hgenerate (by simp)
  · next hn => exact ⟨Nat.pos_of_ne_zero hn, (Except.ok.inj hgenerate).symm⟩

/-- Every fork of a generated vtree is a range that the rule has cut, with its sides at their
names. -/
theorem Generates.exists_cut {rule : Split} (h : Generates rule n v)
    (hfork : v.subtree? p = some (.fork i l r)) :
    v.subtree? l.id = some l ∧ v.subtree? r.id = some r ∧
    ∃ a b, a + 1 < b ∧ l = .ofRange rule a (rule.cut a b) ∧ r = .ofRange rule (rule.cut a b) b := by
  have hproper := proper_generate h.generate
  obtain ⟨hl, hr⟩ := hproper.subtree?_sides hfork
  obtain ⟨hpos, rfl⟩ := h.eq_ofTree
  exact ⟨hl, hr, Tree.fork_mem_ofRange rule hpos (hproper.mem_root hfork)⟩

/-- The two sides of a fork of a balanced vtree differ by at most one variable. -/
theorem Generates.varCount_middle (h : Generates .middle n v)
    (hfork : v.subtree? p = some (.fork i l r)) :
    ∃ a b, v.varCount l.id = .ok a ∧ v.varCount r.id = .ok b ∧ a ≤ b + 1 ∧ b ≤ a + 1 := by
  obtain ⟨hl, hr, a, b, hlt, rfl, rfl⟩ := h.exists_cut hfork
  have hcut : Split.middle.cut a b = (a + b) / 2 := rfl
  refine ⟨_, _, by rw [varCount, subtree_eq_ok.2 hl]; rfl,
    by rw [varCount, subtree_eq_ok.2 hr]; rfl, ?_⟩
  rw [Tree.varCount_ofRange _ (by omega), Tree.varCount_ofRange _ (by omega)]
  omega

/-- The left side of a fork of a right-linear vtree is a leaf. -/
theorem Generates.isLeaf_first (h : Generates .first n v)
    (hfork : v.subtree? p = some (.fork i l r)) : l.isLeaf = true := by
  obtain ⟨-, -, a, b, hlt, rfl, -⟩ := h.exists_cut hfork
  rw [show Split.first.cut a b = a + 1 from rfl, Tree.ofRange_leaf _ (Nat.lt_irrefl _)]
  rfl

/-- The right side of a fork of a left-linear vtree is a leaf. -/
theorem Generates.isLeaf_last (h : Generates .last n v)
    (hfork : v.subtree? p = some (.fork i l r)) : r.isLeaf = true := by
  obtain ⟨-, -, a, b, hlt, -, rfl⟩ := h.exists_cut hfork
  rw [show Split.last.cut a b = b - 1 from rfl, Tree.ofRange_leaf _ (by omega)]
  rfl

/-- The three rules generate vtrees over every number of variables for which the names are words:
in the balanced one the sides of a fork differ by at most one variable, in the right-linear one
every left side is a leaf and in the left-linear one every right side. -/
theorem generates_shapes (hpos : 1 ≤ n) (hword : n < pow2 31) :
    (∃ v, balanced n = .ok v ∧ Generates .middle n v ∧
      ∀ p i l r, v.subtree? p = some (.fork i l r) →
        ∃ a b, v.varCount l.id = .ok a ∧ v.varCount r.id = .ok b ∧ a ≤ b + 1 ∧ b ≤ a + 1) ∧
    (∃ v, rightLinear n = .ok v ∧ Generates .first n v ∧
      ∀ p i l r, v.subtree? p = some (.fork i l r) → l.isLeaf = true) ∧
    ∃ v, leftLinear n = .ok v ∧ Generates .last n v ∧
      ∀ p i l r, v.subtree? p = some (.fork i l r) → r.isLeaf = true := by
  have hle := Nat.le_of_lt hword
  have hmiddle := generates_of_le .middle hpos hle
  have hfirst := generates_of_le .first hpos hle
  have hlast := generates_of_le .last hpos hle
  exact ⟨⟨_, hmiddle.generate, hmiddle, fun _ _ _ _ => hmiddle.varCount_middle⟩,
    ⟨_, hfirst.generate, hfirst, fun _ _ _ _ => hfirst.isLeaf_first⟩,
    ⟨_, hlast.generate, hlast, fun _ _ _ _ => hlast.isLeaf_last⟩⟩

/-- Five variables: the roots are where the rules cut, and the leaf of the third variable is the same
in all shapes. -/
theorem generates_shapes_five :
    (∃ v, balanced 5 = .ok v ∧ v.numNodes = 9 ∧ v.root.id = ⟨3⟩ ∧ v.leafOf 3 = .ok ⟨4⟩) ∧
    (∃ v, rightLinear 5 = .ok v ∧ v.numNodes = 9 ∧ v.root.id = ⟨1⟩ ∧ v.leafOf 3 = .ok ⟨4⟩) ∧
    ∃ v, leftLinear 5 = .ok v ∧ v.numNodes = 9 ∧ v.root.id = ⟨7⟩ ∧ v.leafOf 3 = .ok ⟨4⟩ := by
  have hroot : ∀ {rule : Split} {v : Vtree}, Generates rule 5 v →
      v.root.id = ⟨2 * rule.cut 0 5 - 1⟩ := by
    intro rule v h
    obtain ⟨-, rfl⟩ := h.eq_ofTree
    rw [root_ofTree, Tree.ofRange_fork rule (by decide)]
    rfl
  obtain ⟨⟨v, hv, hmiddle, -⟩, ⟨w, hw, hfirst, -⟩, ⟨x, hx, hlast, -⟩⟩ :=
    generates_shapes (n := 5) (by decide) (by decide)
  exact ⟨⟨v, hv, hmiddle.numNodes, hroot hmiddle, hmiddle.leafOf 3 (by decide) (by decide)⟩,
    ⟨w, hw, hfirst.numNodes, hroot hfirst, hfirst.leafOf 3 (by decide) (by decide)⟩,
    ⟨x, hx, hlast.numNodes, hroot hlast, hlast.leafOf 3 (by decide) (by decide)⟩⟩

end Sentential.Vtree
