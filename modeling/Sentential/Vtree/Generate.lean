import Sentential.Vtree.Basic

/-!
# Generated vtrees

The three regular shapes over the variables `1, …, n` in this order. Each shape is a rule that
splits a range of variables in two; the node of a split is numbered by its place between the
leaves, so that all names are in-order positions: leaves have the even ones, and the node that
splits before leaf `m` has `2 m - 1`.
-/

namespace Sentential.Vtree

/-- A rule that splits every range `[lo, hi)` of at least two leaves into two non-empty
ranges. -/
structure Split where
  cut : Nat → Nat → Nat
  within : ∀ lo hi, lo + 1 < hi → lo < cut lo hi ∧ cut lo hi < hi

namespace Split

/-- In the middle. -/
def middle : Split := ⟨fun lo hi => (lo + hi) / 2, by intros; omega⟩

/-- Behind the first leaf. -/
def first : Split := ⟨fun lo _ => lo + 1, by intros; omega⟩

/-- Before the last leaf. -/
def last : Split := ⟨fun _ hi => hi - 1, by intros; omega⟩

end Split

/-- The tree over the leaves `[lo, hi)`, counted from zero. -/
def Tree.ofRange (rule : Split) (lo hi : Nat) : Tree :=
  if h : lo + 1 < hi then
    have := rule.within lo hi h
    let m := rule.cut lo hi
    .fork ⟨2 * m - 1⟩ (ofRange rule lo m) (ofRange rule m hi)
  else
    .leaf ⟨2 * lo⟩ (lo + 1)
termination_by hi - lo

/-- The vtree over the variables `1, …, n` that a rule gives. -/
def generate (rule : Split) (n : Nat) : Except Fault Vtree :=
  if n = 0 then .error .noVariables else .ok (ofTree (.ofRange rule 0 n))

/-- The two sides of every node differ by at most one variable. -/
def balanced (n : Nat) : Except Fault Vtree := generate .middle n

/-- Every left child is a leaf. -/
def rightLinear (n : Nat) : Except Fault Vtree := generate .first n

/-- Every right child is a leaf. -/
def leftLinear (n : Nat) : Except Fault Vtree := generate .last n

end Sentential.Vtree
