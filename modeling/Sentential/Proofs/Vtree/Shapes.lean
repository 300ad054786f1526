import Mathlib.Data.List.Nodup
import Mathlib.Data.List.Range
import Sentential.Proofs.Vtree.Tables
import Sentential.Vtree.Generate

/-!
# Generated trees are proper

`Tree.ofRange` numbers the nodes of the leaves `[lo, hi)` by their in-order positions, which are
`2 lo, …, 2 hi - 2`. Read from left to right the names are therefore consecutive numbers, and so
are the variables; both facts are one induction along the splits (`inOrder_ofRange`,
`leafVars_ofRange`).
-/

namespace Sentential.Vtree

namespace Tree

/-- The names in order are the names of all trees within. -/
theorem inOrder_perm (t : Tree) : t.inOrder.Perm (t.subtrees.map Tree.id) := by
  induction t with
  | leaf id var => exact .refl _
  | fork id l r ihl ihr =>
    rw [inOrder, subtrees_fork, List.map_cons, List.map_append]
    exact List.perm_middle.trans ((ihl.append ihr).cons id)

variable (rule : Split) {lo hi : Nat}

theorem ofRange_fork (h : lo + 1 < hi) :
    ofRange rule lo hi = fork ⟨2 * rule.cut lo hi - 1⟩ (ofRange rule lo (rule.cut lo hi))
      (ofRange rule (rule.cut lo hi) hi) := by
  rw [ofRange, dif_pos h]

theorem ofRange_leaf (h : ¬ lo + 1 < hi) : ofRange rule lo hi = leaf ⟨2 * lo⟩ (lo + 1) := by
  rw [ofRange, dif_neg h]

/-- What holds of single leaves, and of a range if it holds of the two ranges it is split into,
holds of every range that is not empty. -/
theorem ofRange_induction {motive : (lo hi : Nat) → lo < hi → Prop}
    (one : ∀ lo, motive lo (lo + 1) (Nat.lt_succ_self lo))
    (split : ∀ lo hi (hlt : lo + 1 < hi),
      motive lo (rule.cut lo hi) (rule.within lo hi hlt).1 →
      motive (rule.cut lo hi) hi (rule.within lo hi hlt).2 → motive lo hi (by omega))
    (lo hi : Nat) (h : lo < hi) : motive lo hi h := by
  induction hn : hi - lo using Nat.strongRecOn generalizing lo hi with
  | ind n ih =>
    by_cases hlt : lo + 1 < hi
    · obtain ⟨hlo, hhi⟩ := rule.within lo hi hlt
      exact split lo hi hlt (ih _ (by omega) _ _ hlo rfl) (ih _ (by omega) _ _ hhi rfl)
    · obtain rfl : hi = lo + 1 := by omega
      exact one lo

theorem varCount_ofRange (h : lo < hi) : (ofRange rule lo hi).varCount = hi - lo := by
  induction lo, hi, h using ofRange_induction rule with
  | one lo =>
    rw [ofRange_leaf rule (by omega), varCount]
    omega
  | split lo hi hlt ihl ihr =>
    obtain ⟨hlo, hhi⟩ := rule.within lo hi hlt
    rw [ofRange_fork rule hlt, varCount, ihl, ihr]
    omega

theorem size_ofRange (h : lo < hi) : (ofRange rule lo hi).size = 2 * (hi - lo) - 1 := by
  have hsize := (ofRange rule lo hi).size_add_one
  rw [varCount_ofRange rule h] at hsize
  omega

theorem inOrder_ofRange (h : lo < hi) : (ofRange rule lo hi).inOrder.map VtreeId.raw
    = List.range' (2 * lo) (2 * (hi - lo) - 1) := by
  induction lo, hi, h using ofRange_induction rule with
  | one lo =>
    rw [ofRange_leaf rule (by omega), show 2 * (lo + 1 - lo) - 1 = 1 by omega]
    rfl
  | split lo hi hlt ihl ihr =>
    obtain ⟨hlo, hhi⟩ := rule.within lo hi hlt
    have hcount : 2 * (hi - lo) - 1
        = (2 * (rule.cut lo hi - lo) - 1) + (1 + (2 * (hi - rule.cut lo hi) - 1)) := by omega
    rw [ofRange_fork rule hlt, inOrder, List.map_append, List.map_cons, ihl, ihr, hcount,
      ← List.range'_append_1, ← List.range'_append_1]
    have hroot : 2 * lo + (2 * (rule.cut lo hi - lo) - 1) = 2 * rule.cut lo hi - 1 := by omega
    have hright : 2 * rule.cut lo hi - 1 + 1 = 2 * rule.cut lo hi := by omega
    rw [hroot, hright]
    rfl

theorem leafVars_ofRange (h : lo < hi) :
    (ofRange rule lo hi).leafVars = List.range' (lo + 1) (hi - lo) := by
  induction lo, hi, h using ofRange_induction rule with
  | one lo =>
    rw [ofRange_leaf rule (by omega), show lo + 1 - lo = 1 by omega]
    rfl
  | split lo hi hlt ihl ihr =>
    obtain ⟨hlo, hhi⟩ := rule.within lo hi hlt
    have hcount : hi - lo = (rule.cut lo hi - lo) + (hi - rule.cut lo hi) := by omega
    have hright : lo + 1 + (rule.cut lo hi - lo) = rule.cut lo hi + 1 := by omega
    rw [ofRange_fork rule hlt, leafVars, ihl, ihr, hcount, ← List.range'_append_1, hright]

/-- A generated tree is proper. -/
theorem proper_ofRange {n : Nat} (h : 0 < n) : (ofRange rule 0 n).Proper := by
  have hnames := inOrder_ofRange rule h
  have hperm := (ofRange rule 0 n).inOrder_perm
  have hvars := leafVars_ofRange rule h
  constructor
  case names_nodup =>
    have hnodup : ((ofRange rule 0 n).inOrder.map VtreeId.raw).Nodup := by
      rw [hnames]
      exact List.nodup_range'
    exact hperm.nodup_iff.1 (List.Nodup.of_map _ hnodup)
  case names_lt =>
    intro u hu
    have hmem : u.id.raw ∈ (ofRange rule 0 n).inOrder.map VtreeId.raw :=
      List.mem_map_of_mem (hperm.mem_iff.2 (List.mem_map_of_mem hu))
    rw [hnames, List.mem_range'_1] at hmem
    rw [size_ofRange rule h]
    omega
  case vars_nodup =>
    rw [hvars]
    exact List.nodup_range'
  case vars_range =>
    intro var hvar
    rw [hvars, List.mem_range'_1] at hvar
    rw [varCount_ofRange rule h]
    omega

end Tree

/-- Every vtree that a rule generates is proper. -/
theorem proper_generate {rule : Split} {n : Nat} {v : Vtree} (h : generate rule n = .ok v) :
    v.Proper := by
  rw [generate] at h
  split at h
  · exact absurd h (by simp)
  · next hn =>
    injection h with h
    exact ⟨_, Tree.proper_ofRange rule (Nat.pos_of_ne_zero hn), h.symm⟩

/-- The vtree over two variables. -/
def pair : Vtree := .ofTree (.fork ⟨1⟩ (.leaf ⟨0⟩ 1) (.leaf ⟨2⟩ 2))

theorem balanced_two : balanced 2 = .ok pair := by
  have htree : Tree.ofRange .middle 0 2 = .fork ⟨1⟩ (.leaf ⟨0⟩ 1) (.leaf ⟨2⟩ 2) := by
    rw [Tree.ofRange_fork .middle (by decide)]
    show Tree.fork ⟨1⟩ (Tree.ofRange .middle 0 1) (Tree.ofRange .middle 1 2) = _
    rw [Tree.ofRange_leaf .middle (by decide), Tree.ofRange_leaf .middle (by decide)]
  unfold balanced generate
  rw [if_neg (by decide), htree]
  rfl

end Sentential.Vtree
