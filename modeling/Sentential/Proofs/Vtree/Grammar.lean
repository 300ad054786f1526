import Mathlib.Data.List.Count
import Mathlib.Data.List.Range
import Sentential.Proofs.Format.Grammar
import Sentential.Proofs.Vtree.Consistency

/-!
# The grammar of vtree files

What a vtree file is, in terms of its rows alone (`IsVtreeFile`): every row but the last is the
child of a row once, and the leaves hold the variables `1, …, n`. `ofFileText_iff_isVtreeFile`: the
reader accepts exactly these files, and the vtree that it answers with has the nodes that the rows
describe and is consistent.

The reader has trees at the numbers of the rows (`Grown`), and its checks are on the table of these
trees. That the checks say what the grammar says (`Listed.isOneTree_of_flaw?` and
`Listed.flaw?_of_isOneTree`) rests on the order of the rows in one direction only: a row refers to
rows above it, so the last one is no child, and from any other row one comes to the last by going to
parents, whose trees are larger.
-/

namespace Sentential.Vtree

open Format Text

/-! ## The grammar -/

/-- What a row describes: a leaf with its variable, or a fork with the numbers of its sides. -/
inductive VtreeItem where
  | leaf (var : Nat)
  | fork (left right : Nat)

namespace VtreeItem

/-- The numbers of the sides. -/
def children : VtreeItem → List Nat
  | leaf _ => []
  | fork left right => [left, right]

def var? : VtreeItem → Option Nat
  | leaf var => some var
  | fork .. => none

end VtreeItem

/-- The row gives a number to a leaf, or to a fork whose sides are rows above. -/
inductive IsVtreeRow (earlier : List (Nat × VtreeItem)) : List Field → Nat → VtreeItem → Prop
  | leaf {f x : Field} {i var : Nat} : readWord? f = some i → readWord? x = some var →
      IsVtreeRow earlier [['L'], f, x] i (.leaf var)
  | fork {f g h : Field} {i left right : Nat} : readWord? f = some i →
      readWord? g = some left → left ∈ earlier.map Prod.fst →
      readWord? h = some right → right ∈ earlier.map Prod.fst →
      IsVtreeRow earlier [['I'], f, g, h] i (.fork left right)

/-- The rows make one tree: every row but the last is the child of some row, and of no other and
not twice, and the leaves hold the variables `1, …, n`, each once. -/
structure IsOneTree (named : List (Nat × VtreeItem)) : Prop where
  child_once : ∀ x ∈ named.dropLast, (named.flatMap (·.2.children)).count x.1 = 1
  vars_perm : (named.filterMap (·.2.var?)).Perm
    (List.range' 1 (named.filterMap (·.2.var?)).length)

/-- The rows of a vtree file, which give these numbers to nodes. -/
structure IsVtreeFile (rows : List (List Field)) (named : List (Nat × VtreeItem)) : Prop where
  isFile : IsFile IsVtreeRow ["vtree".toList] rows named
  isOneTree : IsOneTree named

/-- The vtree has the nodes that the rows describe, the last one as its root. -/
structure HasRows (v : Vtree) (named : List (Nat × VtreeItem)) : Prop where
  root : ∀ i x, named.getLast? = some (i, x) → v.root.id = ⟨i⟩
  numNodes : v.numNodes = named.length
  leaf : ∀ i var, (i, .leaf var) ∈ named → v.subtree? ⟨i⟩ = some (.leaf ⟨i⟩ var)
  fork : ∀ i left right, (i, .fork left right) ∈ named → ∃ l r,
    v.subtree? ⟨i⟩ = some (.fork ⟨i⟩ l r) ∧ l.id = ⟨left⟩ ∧ r.id = ⟨right⟩

/-! ## The trees of the rows -/

variable {entries entries' : List (Nat × Tree)} {named : List (Nat × VtreeItem)} {n i : Nat}
  {t : Slots Tree} {u root : Tree} {r : Record}

/-- The tree with the number that the row describes, where these numbers have been given to
trees. -/
inductive IsTreeOf (entries : List (Nat × Tree)) : Nat × Tree → VtreeItem → Prop
  | leaf {i var : Nat} : IsTreeOf entries (i, .leaf ⟨i⟩ var) (.leaf var)
  | fork {i left right : Nat} {l r : Tree} : (left, l) ∈ entries → (right, r) ∈ entries →
      IsTreeOf entries (i, .fork ⟨i⟩ l r) (.fork left right)

/-- The rows so far have given their numbers to the trees that they describe. -/
def Grown (entries : List (Nat × Tree)) (named : List (Nat × VtreeItem)) : Prop :=
  List.Forall₂ (fun e x => e.1 = x.1 ∧ IsTreeOf entries e x.2) entries named

theorem IsTreeOf.mono {e : Nat × Tree} {x : VtreeItem} (h : IsTreeOf entries e x)
    (hsub : entries ⊆ entries') : IsTreeOf entries' e x := by
  cases h with
  | leaf => exact .leaf
  | fork hl hr => exact .fork (hsub hl) (hsub hr)

theorem IsTreeOf.id_eq {e : Nat × Tree} {x : VtreeItem} (h : IsTreeOf entries e x) :
    e.2.id = ⟨e.1⟩ := by
  cases h <;> rfl

/-! ## Reading the rows -/

theorem readTree_leaf {line : Nat} {f x : Field} {var : Nat} (hx : readWord? x = some var) :
    readTree t ⟨line, [['L'], f, x]⟩ i = .ok (.leaf ⟨i⟩ var) := by
  have hvar : field readWord? .variable ⟨line, [['L'], f, x]⟩ 2 = .ok var :=
    field_eq_ok.2 ⟨x, rfl, hx⟩
  have hcount : expectFields 3 ⟨line, [['L'], f, x]⟩ = .ok () := expectFields_eq_ok.2 rfl
  show (do expectFields 3 _; _) = _
  rw [hcount, ok_bind, hvar]
  rfl

theorem readTree_fork {line : Nat} {f g h : Field} {left right : Nat} {l r : Tree}
    (hg : readWord? g = some left) (hh : readWord? h = some right)
    (hl : t.get line left = .ok l) (hr : t.get line right = .ok r) :
    readTree t ⟨line, [['I'], f, g, h]⟩ i = .ok (.fork ⟨i⟩ l r) := by
  have hleft : field readWord? .leftChild ⟨line, [['I'], f, g, h]⟩ 2 = .ok left :=
    field_eq_ok.2 ⟨g, rfl, hg⟩
  have hright : field readWord? .rightChild ⟨line, [['I'], f, g, h]⟩ 3 = .ok right :=
    field_eq_ok.2 ⟨h, rfl, hh⟩
  have hcount : expectFields 4 ⟨line, [['I'], f, g, h]⟩ = .ok () := expectFields_eq_ok.2 rfl
  show (do expectFields 4 _; _) = _
  rw [hcount, ok_bind, hleft, ok_bind, hl, ok_bind, hright, ok_bind, hr]
  rfl

namespace Grown

theorem keys_eq (h : Grown entries named) : entries.map Prod.fst = named.map Prod.fst := by
  rw [← List.forall₂_eq_eq_eq, List.forall₂_map_left_iff, List.forall₂_map_right_iff]
  exact List.Forall₂.imp (fun _ _ hx => hx.1) h

theorem concat (h : Grown entries named) {x : VtreeItem} (hu : IsTreeOf entries (i, u) x) :
    Grown (entries ++ [(i, u)]) (named ++ [(i, x)]) := by
  have hsub : entries ⊆ entries ++ [(i, u)] := List.subset_append_left _ _
  exact List.rel_append (List.Forall₂.imp (fun _ _ hx => ⟨hx.1, hx.2.mono hsub⟩) h)
    (.cons ⟨rfl, hu.mono hsub⟩ .nil)

/-- A row that a tree is made of is a row of the grammar. -/
theorem isVtreeRow_of_readTree (h : Grown entries named) (ht : t.Holds n entries)
    (hid : field readWord? .id r 1 = .ok i) (hu : readTree t r i = .ok u) :
    ∃ x, IsVtreeRow named r.fields i x ∧ IsTreeOf entries (i, u) x := by
  obtain ⟨f, hf, hread⟩ := field_eq_ok.1 hid
  have hmem : ∀ {k : Nat} {l : Tree}, (k, l) ∈ entries → k ∈ named.map Prod.fst := by
    intro k l hl
    rw [← h.keys_eq]
    exact List.mem_map_of_mem hl
  rw [readTree] at hu
  split at hu
  · next htag =>
    obtain ⟨_, hcount, hu⟩ := bind_eq_ok.1 hu
    obtain ⟨var, hvar, hu⟩ := bind_eq_ok.1 hu
    obtain ⟨x, hx, hreadx⟩ := field_eq_ok.1 hvar
    obtain rfl := Except.ok.inj hu
    rw [fields_eq_of_tag htag (by simp), drop_eq_of_getElem? hf, drop_eq_of_getElem? hx,
      List.drop_eq_nil_of_le (Nat.le_of_eq (expectFields_eq_ok.1 hcount))]
    exact ⟨.leaf var, .leaf hread hreadx, .leaf⟩
  · next htag =>
    obtain ⟨_, hcount, hu⟩ := bind_eq_ok.1 hu
    obtain ⟨left, hleft, hu⟩ := bind_eq_ok.1 hu
    obtain ⟨l, hl, hu⟩ := bind_eq_ok.1 hu
    obtain ⟨right, hright, hu⟩ := bind_eq_ok.1 hu
    obtain ⟨r', hr, hu⟩ := bind_eq_ok.1 hu
    obtain ⟨g, hg, hreadg⟩ := field_eq_ok.1 hleft
    obtain ⟨g', hg', hreadg'⟩ := field_eq_ok.1 hright
    obtain rfl := Except.ok.inj hu
    rw [fields_eq_of_tag htag (by simp), drop_eq_of_getElem? hf, drop_eq_of_getElem? hg,
      drop_eq_of_getElem? hg', List.drop_eq_nil_of_le (Nat.le_of_eq (expectFields_eq_ok.1 hcount))]
    have hl := ht.get_eq_ok.1 hl
    have hr := ht.get_eq_ok.1 hr
    exact ⟨.fork left right, .fork hread hreadg (hmem hl) hreadg' (hmem hr), .fork hl hr⟩
  · exact absurd hu (by simp)

/-- A tree is made of a row of the grammar. -/
theorem readTree_of_isVtreeRow (h : Grown entries named) (ht : t.Holds n entries) {x : VtreeItem}
    (hrow : IsVtreeRow named r.fields i x) : field readWord? .id r 1 = .ok i ∧
      ∃ u, readTree t r i = .ok u ∧ IsTreeOf entries (i, u) x := by
  have hget : ∀ {k : Nat}, k ∈ named.map Prod.fst → ∃ l, (k, l) ∈ entries := by
    intro k hk
    rw [← h.keys_eq] at hk
    obtain ⟨⟨k', l⟩, hmem, rfl⟩ := List.mem_map.1 hk
    exact ⟨l, hmem⟩
  obtain ⟨line, fs⟩ := r
  simp only at hrow
  cases hrow with
  | leaf hread hx => exact ⟨field_eq_ok.2 ⟨_, rfl, hread⟩, _, readTree_leaf hx, .leaf⟩
  | fork hread hg hleft hh hright =>
    obtain ⟨l, hl⟩ := hget hleft
    obtain ⟨r, hr⟩ := hget hright
    exact ⟨field_eq_ok.2 ⟨_, rfl, hread⟩, _,
      readTree_fork hg hh (ht.get_eq_ok.2 hl) (ht.get_eq_ok.2 hr), .fork hl hr⟩

end Grown

/-- The reader follows the grammar row by row. -/
theorem follows_readTree : Follows (fun (_ : Unit) t r id => (readTree t r id, ())) IsVtreeRow
    (fun _ => True) fun _ entries named => Grown entries named := by
  constructor
  case keys_eq => exact fun h => h.keys_eq
  case sound =>
    intro s s' entries named t n r i u h ht hid hbuild
    obtain ⟨x, hrow, hu⟩ := h.isVtreeRow_of_readTree ht hid (congrArg Prod.fst hbuild)
    exact ⟨x, hrow, h.concat hu⟩
  case complete =>
    intro s entries named t n r i x h ht hrow _
    obtain ⟨hid, u, hu, hx⟩ := h.readTree_of_isVtreeRow ht hrow
    exact ⟨hid, u, (), Prod.ext hu rfl, h.concat hx⟩

/-! ## Children -/

/-- A row refers to rows above it, so no row refers to the last one. -/
theorem children_subset_dropLast {rows : List (List Field)} (h : AreRows IsVtreeRow [] rows named) :
    ∀ c ∈ named.flatMap (·.2.children), c ∈ named.dropLast.map Prod.fst := by
  intro c hc
  obtain ⟨⟨i, x⟩, hmem, hcx⟩ := List.mem_flatMap.1 hc
  obtain ⟨k, hk⟩ := List.mem_iff_getElem?.1 hmem
  obtain ⟨fs, -, hrow⟩ := h.exists_row hk
  rw [List.nil_append] at hrow
  have hprefix : named.take k ⊆ named.dropLast := by
    have hlt := (List.getElem?_eq_some_iff.1 hk).1
    rw [List.dropLast_eq_take]
    exact (List.take_prefix_take_left (by omega)).subset
  suffices hearlier : c ∈ (named.take k).map Prod.fst from List.map_subset _ hprefix hearlier
  cases hrow with
  | leaf => exact absurd hcx (by simp [VtreeItem.children])
  | fork _ _ hleft _ hright =>
    simp only [VtreeItem.children, List.mem_cons, List.not_mem_nil, or_false] at hcx
    rcases hcx with rfl | rfl
    · exact hleft
    · exact hright

/-- The trees of all rows, in the order of their numbers. -/
structure Listed (trees : List Tree) (entries : List (Nat × Tree))
    (named : List (Nat × VtreeItem)) : Prop where
  grown : Grown entries named
  getElem? : ∀ i u, trees[i]? = some u ↔ (i, u) ∈ entries
  keys_nodup : (named.map Prod.fst).Nodup

namespace Listed

variable {trees : List Tree} (h : Listed trees entries named)
include h

theorem id_eq (hmem : (i, u) ∈ entries) : u.id = ⟨i⟩ := by
  obtain ⟨⟨j, x⟩, -, -, hx⟩ := exists_right_of_mem h.grown hmem
  exact hx.id_eq

theorem perm : trees.Perm (entries.map Prod.snd) := by
  have hnumbered : ∀ (i : Nat) (u : Tree), trees[i]? = some u → u.id.raw = i := by
    intro i u hi
    rw [h.id_eq ((h.getElem? i u).1 hi)]
  have hentries : (entries.map Prod.snd).Nodup := by
    have hkeys := h.keys_nodup
    rw [← h.grown.keys_eq] at hkeys
    refine hkeys.of_map.map_on fun x hx y hy hxy => ?_
    have hid := (h.id_eq hx).symm.trans ((congrArg Tree.id hxy).trans (h.id_eq hy))
    exact Prod.ext (VtreeId.mk.inj hid) hxy
  rw [List.perm_ext_iff_of_nodup (nodup_of_numbered hnumbered) hentries]
  intro u
  rw [List.mem_iff_getElem?]
  simp [h.getElem?]

theorem mem_iff : u ∈ trees ↔ ∃ i, (i, u) ∈ entries := by
  rw [List.mem_iff_getElem?]
  simp [h.getElem?]

/-- The sides of the trees are those of the rows. -/
theorem children_perm :
    (trees.flatMap Tree.children).Perm ((named.flatMap (·.2.children)).map VtreeId.mk) := by
  have hrows : ∀ {es : List (Nat × Tree)} {xs : List (Nat × VtreeItem)},
      List.Forall₂ (fun e x => e.1 = x.1 ∧ IsTreeOf entries e x.2) es xs →
      (es.map Prod.snd).flatMap Tree.children = (xs.flatMap (·.2.children)).map VtreeId.mk := by
    intro es xs hes
    induction hes with
    | nil => rfl
    | @cons e x es xs hx _ ih =>
      rw [List.map_cons, List.flatMap_cons, List.flatMap_cons, List.map_append, ih]
      congr 1
      obtain ⟨i, x⟩ := x
      obtain ⟨-, hx⟩ := hx
      cases hx with
      | leaf => rfl
      | fork hl hr => simp [Tree.children, VtreeItem.children, h.id_eq hl, h.id_eq hr]
  rw [← hrows h.grown]
  exact h.perm.flatMap_right _

theorem vars_perm : (trees.filterMap Tree.var?).Perm (named.filterMap (·.2.var?)) := by
  have hrows : ∀ {es : List (Nat × Tree)} {xs : List (Nat × VtreeItem)},
      List.Forall₂ (fun e x => e.1 = x.1 ∧ IsTreeOf entries e x.2) es xs →
      (es.map Prod.snd).filterMap Tree.var? = xs.filterMap (·.2.var?) := by
    intro es xs hes
    induction hes with
    | nil => rfl
    | @cons e x es xs hx _ ih =>
      rw [List.map_cons, List.filterMap_cons, List.filterMap_cons, ih]
      obtain ⟨i, x⟩ := x
      obtain ⟨-, hx⟩ := hx
      cases hx <;> rfl
  rw [← hrows h.grown]
  exact h.perm.filterMap _

theorem shelf : Shelf trees := by
  constructor
  case numbered =>
    intro i u hi
    rw [h.id_eq ((h.getElem? i u).1 hi)]
  case closed =>
    intro i l r hmem
    obtain ⟨j, hj⟩ := h.mem_iff.1 hmem
    obtain ⟨⟨k, x⟩, -, -, hx⟩ := exists_right_of_mem h.grown hj
    cases hx with
    | fork hl hr => exact ⟨h.mem_iff.2 ⟨_, hl⟩, h.mem_iff.2 ⟨_, hr⟩⟩

theorem table (hunshared : (trees.flatMap Tree.children).Nodup) : Table trees := ⟨h.shelf, hunshared⟩

section

variable {m : Nat} (hlast : entries.getLast? = some (m, root))
include hlast

theorem root_mem : root ∈ trees := h.mem_iff.2 ⟨m, List.mem_of_getLast? hlast⟩

theorem keys_eq_append : named.map Prod.fst = named.dropLast.map Prod.fst ++ [m] := by
  obtain ⟨⟨k, x⟩, hx, rfl, -⟩ := exists_getLast? h.grown hlast
  obtain ⟨front, rfl⟩ := List.getLast?_eq_some_iff.1 hx
  rw [List.dropLast_concat, List.map_append]
  rfl

/-- The rows but the last are those of the trees other than the root. -/
theorem mem_dropLast_iff {k : Nat} :
    k ∈ named.dropLast.map Prod.fst ↔ ∃ u ∈ trees, u ≠ root ∧ u.id = ⟨k⟩ := by
  have hkeys := h.keys_eq_append hlast
  have hnodup := h.keys_nodup
  rw [hkeys, List.nodup_append] at hnodup
  have hm : (m, root) ∈ entries := List.mem_of_getLast? hlast
  constructor
  · intro hk
    have hmem : k ∈ entries.map Prod.fst := by
      rw [h.grown.keys_eq, hkeys]
      exact List.mem_append_left _ hk
    obtain ⟨⟨k', u⟩, hu, rfl⟩ := List.mem_map.1 hmem
    refine ⟨u, h.mem_iff.2 ⟨k', hu⟩, ?_, h.id_eq hu⟩
    rintro rfl
    have hid := VtreeId.mk.inj ((h.id_eq hu).symm.trans (h.id_eq hm))
    exact hnodup.2.2 k' hk m (List.mem_singleton_self m) hid
  · rintro ⟨u, hu, hne, hid⟩
    obtain ⟨j, hj⟩ := h.mem_iff.1 hu
    obtain rfl : j = k := VtreeId.mk.inj ((h.id_eq hj).symm.trans hid)
    have hmem : j ∈ named.map Prod.fst := by
      rw [← h.grown.keys_eq]
      exact List.mem_map_of_mem hj
    rw [hkeys, List.mem_append, List.mem_singleton] at hmem
    rcases hmem with hmem | rfl
    · exact hmem
    · -- there is only one tree at the last number
      exact absurd (Option.some_inj.1 (((h.getElem? j u).2 hj).symm.trans ((h.getElem? j root).2 hm)))
        hne

/-- Trees without a flaw come from rows that make one tree. -/
theorem isOneTree_of_flaw? (hflaw : flaw? trees root = none) : IsOneTree named := by
  obtain ⟨⟨-, hunshared⟩, hsize, hrange, hvars⟩ := flaw?_eq_none.1 hflaw
  have htable := h.table hunshared
  have hperm := htable.subtrees_perm (h.root_mem hlast) hsize
  constructor
  case child_once =>
    intro x hx
    obtain ⟨u, hu, hne, hid⟩ := (h.mem_dropLast_iff hlast).1 (List.mem_map_of_mem hx)
    have hnodup : (named.flatMap (·.2.children)).Nodup :=
      (h.children_perm.nodup_iff.1 hunshared).of_map
    apply List.count_eq_one_of_mem hnodup
    -- a tree within the root is a side of a tree, and with that among the children
    rcases Tree.eq_or_side_of_mem (hperm.mem_iff.2 hu) with heq | ⟨i, l, r, hfork, hside⟩
    · exact absurd heq hne
    · have hchild : u.id ∈ trees.flatMap Tree.children := by
        refine List.mem_flatMap.2 ⟨_, hperm.subset hfork, ?_⟩
        rcases hside with rfl | rfl <;> simp [Tree.children]
      rw [h.children_perm.mem_iff, hid] at hchild
      obtain ⟨c, hc, heq⟩ := List.mem_map.1 hchild
      rwa [← VtreeId.mk.inj heq]
  case vars_perm =>
    have hleaf : root.leafVars.Perm (trees.filterMap Tree.var?) := by
      rw [← Tree.filterMap_var?]
      exact hperm.filterMap _
    have hcount : (named.filterMap (·.2.var?)).length = root.varCount := by
      rw [← h.vars_perm.length_eq, ← hleaf.length_eq, Tree.length_leafVars]
    refine ((h.vars_perm.nodup_iff.1 hvars).subperm fun var hvar => ?_).perm_of_length_le (by simp)
    have := hrange var (h.vars_perm.mem_iff.2 hvar)
    rw [hcount, List.mem_range'_1]
    omega

/-- Rows that make one tree leave no flaw. -/
theorem flaw?_of_isOneTree {rows : List (List Field)} (hrows : AreRows IsVtreeRow [] rows named)
    (hone : IsOneTree named) : flaw? trees root = none := by
  have hchild : ∀ {k : Nat}, (⟨k⟩ : VtreeId) ∈ trees.flatMap Tree.children ↔
      k ∈ named.flatMap (·.2.children) := by
    intro k
    rw [h.children_perm.mem_iff, List.mem_map_of_injective fun a b hab => VtreeId.mk.inj hab]
  have honce : ∀ k ∈ named.dropLast.map Prod.fst, (named.flatMap (·.2.children)).count k = 1 := by
    intro k hk
    obtain ⟨x, hx, rfl⟩ := List.mem_map.1 hk
    exact hone.child_once x hx
  have hunshared : (trees.flatMap Tree.children).Nodup := by
    rw [h.children_perm.nodup_iff]
    refine List.Nodup.map (fun a b hab => VtreeId.mk.inj hab) (List.nodup_iff_count_le_one.2 fun k => ?_)
    by_cases hk : k ∈ named.flatMap (·.2.children)
    · exact Nat.le_of_eq (honce k (children_subset_dropLast hrows k hk))
    · rw [List.count_eq_zero.2 hk]
      exact Nat.zero_le 1
  have htable := h.table hunshared
  have hroot := h.root_mem hlast
  have hsubset : trees ⊆ root.subtrees := by
    refine htable.subset_subtrees fun u hu hne => ?_
    have hcount := honce u.id.raw ((h.mem_dropLast_iff hlast).2 ⟨u, hu, hne, rfl⟩)
    exact List.mem_flatMap.1 (hchild.2 (List.count_pos_iff.1 (hcount ▸ Nat.one_pos)))
  have hsize : root.size = trees.length := by
    apply Nat.le_antisymm (htable.size_le hroot)
    rw [← Tree.length_subtrees]
    exact (htable.nodup.subperm hsubset).length_le
  have hleaf : root.leafVars.Perm (named.filterMap (·.2.var?)) := by
    rw [← Tree.filterMap_var?]
    exact ((htable.subtrees_perm hroot hsize).filterMap _).trans h.vars_perm
  refine flaw?_eq_none.2 ⟨⟨fun hmem => ?_, hunshared⟩, hsize, fun var hvar => ?_, ?_⟩
  · have hlastkey := children_subset_dropLast hrows _ (hchild.1 hmem)
    obtain ⟨u, hu, hne, hid⟩ := (h.mem_dropLast_iff hlast).1 hlastkey
    exact hne (htable.eq_of_id_eq hu hroot hid)
  · rw [h.vars_perm.mem_iff, hone.vars_perm.mem_iff, List.mem_range'_1, ← hleaf.length_eq,
      Tree.length_leafVars] at hvar
    omega
  · rw [h.vars_perm.nodup_iff, hone.vars_perm.nodup_iff]
    exact List.nodup_range'

/-- The vtree of the root has the nodes that the rows describe. -/
theorem hasRows (hproper : root.Proper) (hperm : root.subtrees.Perm trees) :
    (ofTree root).HasRows named := by
  have hget : ∀ {i : Nat} {x : VtreeItem}, (i, x) ∈ named → ∃ u, (ofTree root).subtree? ⟨i⟩ = some u ∧
      IsTreeOf entries (i, u) x := by
    intro i x hx
    obtain ⟨⟨j, u⟩, hu, rfl, htree⟩ := exists_right_of_mem (List.Forall₂.flip h.grown) hx
    refine ⟨u, (subtree?_ofTree hproper _ u).2 ⟨hperm.mem_iff.2 (h.mem_iff.2 ⟨j, hu⟩), ?_⟩, htree⟩
    exact htree.id_eq
  constructor
  case root =>
    intro i x hx
    obtain ⟨e, he, hkey, -⟩ := exists_getLast? (List.Forall₂.flip h.grown) hx
    obtain rfl := Option.some_inj.1 (he.symm.trans hlast)
    obtain rfl : m = i := hkey
    exact h.id_eq (List.mem_of_getLast? hlast)
  case numNodes =>
    rw [numNodes_ofTree, ← Tree.length_subtrees, hperm.length_eq, h.perm.length_eq, List.length_map,
      List.Forall₂.length_eq h.grown]
  case leaf =>
    intro i var hx
    obtain ⟨u, hu, htree⟩ := hget hx
    cases htree with
    | leaf => exact hu
  case fork =>
    intro i left right hx
    obtain ⟨u, hu, htree⟩ := hget hx
    cases htree with
    | fork hl hr => exact ⟨_, _, hu, h.id_eq hl, h.id_eq hr⟩

end

end Listed

/-! ## Files -/

variable {text : List Char} {v : Vtree}

/-- A vtree is read if the rows are and the trees of the rows have no flaw. -/
theorem ofFileText_eq_ok : ofFileText text = .ok v ↔ ∃ n rs t root,
    readHeader ["vtree".toList] text = .ok (n, rs) ∧
    readNodes (fun (_ : Unit) t r id => (readTree t r id, ())) rs () (.ofCount n) = (.ok t, ()) ∧
    t.finish = .ok root ∧ flaw? (t.slots.toList.filterMap fun o => o) root = none ∧
    v = ofTree root := by
  rw [ofFileText]
  constructor
  · intro h
    obtain ⟨⟨n, rs⟩, hheader, h⟩ := bind_eq_ok.1 h
    obtain ⟨t, ht, h⟩ := bind_eq_ok.1 h
    obtain ⟨root, hroot, h⟩ := bind_eq_ok.1 h
    refine ⟨n, rs, t, root, hheader, Prod.ext ht rfl, hroot, ?_⟩
    split at h
    · exact absurd h (by simp)
    · next hflaw => exact ⟨hflaw, (Except.ok.inj h).symm⟩
  · rintro ⟨n, rs, t, root, hheader, ht, hroot, hflaw, rfl⟩
    rw [hheader, ok_bind]
    simp only
    rw [ht, ok_bind, hroot, ok_bind]
    simp only [show flaw? (t.slots.toList.filterMap id) root = none from hflaw]
    rfl

/-- The table of a text that was read up to its end lists the trees of all rows. -/
theorem listed (ht : t.Holds n entries) (hgrown : Grown entries named)
    (hfinish : t.finish = .ok root) :
    Listed (t.slots.toList.filterMap fun o => o) entries named := by
  refine ⟨hgrown, fun i u => ht.getElem?_nodes (ht.finish_eq_ok.1 hfinish).1, ?_⟩
  rw [← hgrown.keys_eq]
  exact ht.nodup

/-- A text that is read is a file of the grammar. -/
theorem exists_isVtreeFile (h : ofFileText text = .ok v) :
    (∃ named, IsVtreeFile (rows text) named) ∧ v.Proper := by
  obtain ⟨n, rs, t, root, hheader, hread, hfinish, hflaw, rfl⟩ := ofFileText_eq_ok.1 h
  obtain ⟨entries, named, hfile, ht, hgrown, hroot⟩ :=
    follows_readTree.isFile_of_read .nil hheader hread hfinish
  obtain ⟨⟨m, root⟩, hlast, rfl⟩ := Option.map_eq_some_iff.1 hroot
  have hlisted := listed ht hgrown hfinish
  obtain ⟨⟨-, hunshared⟩, hsize, hrange, hvars⟩ := flaw?_eq_none.1 hflaw
  exact ⟨⟨named, hfile, hlisted.isOneTree_of_flaw? hlast hflaw⟩, _,
    (hlisted.table hunshared).proper (hlisted.root_mem hlast) hsize hrange hvars, rfl⟩

/-- A file of the grammar is read as a vtree with the nodes of its rows. -/
theorem ofFileText_of_isVtreeFile (h : IsVtreeFile (rows text) named) :
    ∃ v, ofFileText text = .ok v ∧ v.HasRows named := by
  obtain ⟨n, rs, t, s', entries, root, hheader, hread, hfinish, ht, hgrown, hroot⟩ :=
    follows_readTree.read_of_isFile (s := ()) .nil (fun _ _ => trivial) h.isFile
  obtain ⟨⟨m, root⟩, hlast, rfl⟩ := Option.map_eq_some_iff.1 hroot
  have hlisted := listed ht hgrown hfinish
  obtain ⟨tag, f, rest, -, -, -, -, hrows, -⟩ := h.isFile
  have hflaw := hlisted.flaw?_of_isOneTree hlast hrows h.isOneTree
  obtain ⟨⟨-, hunshared⟩, hsize, hrange, hvars⟩ := flaw?_eq_none.1 hflaw
  have htable := hlisted.table hunshared
  have hroot := hlisted.root_mem hlast
  exact ⟨_, ofFileText_eq_ok.2 ⟨n, rs, t, _, hheader, hread, hfinish, hflaw, rfl⟩,
    hlisted.hasRows hlast (htable.proper hroot hsize hrange hvars) (htable.subtrees_perm hroot hsize)⟩

/-- Every vtree that is read from a text is proper. -/
theorem proper_ofFileText (h : ofFileText text = .ok v) : v.Proper := (exists_isVtreeFile h).2

/-- The texts that the reader accepts are the files of the grammar. The vtree that it answers with
has the nodes that the rows describe, and its tables agree with each other. -/
theorem ofFileText_iff_isVtreeFile (text : List Char) :
    ((∃ v, ofFileText text = .ok v) ↔ ∃ named, IsVtreeFile (rows text) named) ∧
    ∀ v, ofFileText text = .ok v → v.Consistent ∧
      ∀ named, IsVtreeFile (rows text) named → v.HasRows named := by
  refine ⟨⟨fun ⟨v, hv⟩ => (exists_isVtreeFile hv).1, fun ⟨named, h⟩ => ?_⟩, fun v hv => ?_⟩
  · obtain ⟨v, hv, -⟩ := ofFileText_of_isVtreeFile h
    exact ⟨v, hv⟩
  · refine ⟨(proper_ofFileText hv).consistent, fun named h => ?_⟩
    obtain ⟨v', hv', hrows⟩ := ofFileText_of_isVtreeFile h
    obtain rfl := Except.ok.inj (hv.symm.trans hv')
    exact hrows

/-- A file for the two variables `x₂` and `x₁` in this order, with the root numbered in between. -/
def crossedText : List Char := "c two leaves\nvtree 3\nL 2 1\n\nL 0 2\nI 1 0 2\n".toList

/-- What the rows of `crossedText` describe. -/
def crossedItems : List (Nat × VtreeItem) := [(2, .leaf 1), (0, .leaf 2), (1, .fork 0 2)]

theorem isVtreeFile_crossedText : IsVtreeFile (rows crossedText) crossedItems := by
  have hzero : readWord? ['0'] = some 0 := by decide
  have hone : readWord? ['1'] = some 1 := by decide
  have htwo : readWord? ['2'] = some 2 := by decide
  constructor
  case isFile =>
    refine ⟨"vtree".toList, ['3'], [[['L'], ['2'], ['1']], [['L'], ['0'], ['2']],
      [['I'], ['1'], ['0'], ['2']]], by decide +kernel, by simp, by decide, by decide, ?_, by decide⟩
    exact .cons (.leaf htwo hone) (.cons (.leaf hzero htwo)
      (.cons (.fork hone hzero (by simp) htwo (by simp)) (.nil _)))
  case isOneTree => exact ⟨by decide, by decide⟩

theorem ofFileText_iff_isVtreeFile_crossedText : ∃ v, ofFileText crossedText = .ok v ∧
    v.Consistent ∧ v.HasRows crossedItems := by
  obtain ⟨hiff, hanswer⟩ := ofFileText_iff_isVtreeFile crossedText
  obtain ⟨v, hv⟩ := hiff.2 ⟨_, isVtreeFile_crossedText⟩
  obtain ⟨hconsistent, hrows⟩ := hanswer v hv
  exact ⟨v, hv, hconsistent, hrows _ isVtreeFile_crossedText⟩

end Sentential.Vtree
