import Sentential.Proofs.Outcome
import Sentential.Store.Indexing

/-!
# Stores that hold all of another store

`s.Extends s'`: the store `s'` has the vtree of `s` and holds every node of `s` under its id,
perhaps among more. Whatever is found by looking at nodes of `s` is then found in `s'` as well; in
particular what is decided about the elements of a node when it is made stays true.
-/

namespace Sentential.Store

variable {W : Type} [Weight W] {s s' s'' : Store W} {id : NodeId}

/-! ## Looking at nodes -/

theorem entry_eq_ok {e : Entry W} : s.entry id = .ok e ↔ s.entries[id.raw]? = some e := by
  rw [entry]
  split <;> simp_all

theorem kind_eq_ok {k : Kind} : s.kind id = .ok k ↔ ∃ e, s.entry id = .ok e ∧ e.kind = k := by
  rw [kind, bind_eq_ok]
  simp

theorem elements_eq_ok {es : List Element} :
    s.elements id = .ok es ↔ ∃ e, s.entry id = .ok e ∧ e.elements = es := by
  rw [elements, bind_eq_ok]
  simp

theorem isFalse_eq_ok {b : Bool} : s.isFalse id = .ok b ↔ ∃ e, s.entry id = .ok e ∧ e.isFalse = b := by
  rw [isFalse, bind_eq_ok]
  simp

theorem kind_of_entry {e : Entry W} (he : s.entry id = .ok e) : s.kind id = .ok e.kind :=
  kind_eq_ok.2 ⟨e, he, rfl⟩

theorem elements_of_entry {e : Entry W} (he : s.entry id = .ok e) : s.elements id = .ok e.elements :=
  elements_eq_ok.2 ⟨e, he, rfl⟩

theorem elements_of_kind {k : Kind} (hkind : s.kind id = .ok k) :
    s.elements id = .ok k.elements := by
  obtain ⟨e, he, rfl⟩ := kind_eq_ok.1 hkind
  exact elements_of_entry he

theorem vtreeOf_bottom (hkind : s.kind id = .ok .bottom) : s.vtreeOf id = .ok none := by
  unfold vtreeOf
  rw [hkind]
  rfl

theorem vtreeOf_top {leaf : Option VtreeId} (hkind : s.kind id = .ok (.top leaf)) :
    s.vtreeOf id = .ok leaf := by
  unfold vtreeOf
  rw [hkind]
  rfl

theorem vtreeOf_literal {l : Literal} {leaf : VtreeId} (hkind : s.kind id = .ok (.literal l))
    (hleaf : s.vtree.leafOf l.var = .ok leaf) : s.vtreeOf id = .ok (some leaf) := by
  unfold vtreeOf
  rw [hkind, ok_bind]
  simp only
  rw [hleaf]
  rfl

theorem vtreeOf_decision {v : VtreeId} {es : List Element}
    (hkind : s.kind id = .ok (.decision v es)) : s.vtreeOf id = .ok (some v) := by
  unfold vtreeOf
  rw [hkind]
  rfl

/-- The id is the name of a node. -/
def Knows (s : Store W) (id : NodeId) : Prop := id.raw < s.numNodes

instance (s : Store W) (id : NodeId) : Decidable (s.Knows id) :=
  inferInstanceAs (Decidable (id.raw < s.numNodes))

theorem knows_iff : s.Knows id ↔ ∃ e, s.entry id = .ok e := by
  simp only [entry_eq_ok, Knows, numNodes]
  constructor
  · intro h
    exact ⟨_, Array.getElem?_eq_getElem h⟩
  · rintro ⟨e, he⟩
    exact (Array.getElem?_eq_some_iff.1 he).1

theorem knows_of_entry {e : Entry W} (h : s.entry id = .ok e) : s.Knows id := knows_iff.2 ⟨e, h⟩

theorem knows_iff_kind : s.Knows id ↔ ∃ k, s.kind id = .ok k := by
  constructor
  · intro h
    obtain ⟨e, he⟩ := knows_iff.1 h
    exact ⟨e.kind, kind_of_entry he⟩
  · rintro ⟨k, hk⟩
    obtain ⟨e, he, -⟩ := kind_eq_ok.1 hk
    exact knows_of_entry he

theorem knows_of_kind {k : Kind} (h : s.kind id = .ok k) : s.Knows id := knows_iff_kind.2 ⟨k, h⟩

theorem knows_of_vtreeOf {v : Option VtreeId} (h : s.vtreeOf id = .ok v) : s.Knows id := by
  obtain ⟨k, hk, -⟩ := bind_eq_ok.1 h
  exact knows_of_kind hk

/-! ## Extensions -/

/-- The store `s'` holds every node of `s` under its id. -/
structure Extends (s s' : Store W) : Prop where
  vtree : s'.vtree = s.vtree
  kept : ∀ {i : Nat} {e : Entry W}, s.entries[i]? = some e → s'.entries[i]? = some e

namespace Extends

protected theorem refl (s : Store W) : s.Extends s := ⟨rfl, fun h => h⟩

protected theorem trans (h : s.Extends s') (h' : s'.Extends s'') : s.Extends s'' :=
  ⟨h'.vtree.trans h.vtree, fun he => h'.kept (h.kept he)⟩

variable (h : s.Extends s')
include h

theorem entry {e : Entry W} (he : s.entry id = .ok e) : s'.entry id = .ok e :=
  entry_eq_ok.2 (h.kept (entry_eq_ok.1 he))

theorem knows (hid : s.Knows id) : s'.Knows id := by
  obtain ⟨e, he⟩ := knows_iff.1 hid
  exact knows_of_entry (h.entry he)

theorem numNodes_le : s.numNodes ≤ s'.numNodes := by
  refine Nat.le_of_not_lt fun hlt => ?_
  have hknown : s.Knows ⟨s'.numNodes⟩ := hlt
  exact Nat.lt_irrefl _ (h.knows hknown)

theorem kind {k : Kind} (hk : s.kind id = .ok k) : s'.kind id = .ok k := by
  obtain ⟨e, he, rfl⟩ := kind_eq_ok.1 hk
  exact kind_eq_ok.2 ⟨e, h.entry he, rfl⟩

theorem elements {es : List Element} (hes : s.elements id = .ok es) : s'.elements id = .ok es := by
  obtain ⟨e, he, rfl⟩ := elements_eq_ok.1 hes
  exact elements_eq_ok.2 ⟨e, h.entry he, rfl⟩

theorem isFalse {b : Bool} (hb : s.isFalse id = .ok b) : s'.isFalse id = .ok b := by
  obtain ⟨e, he, rfl⟩ := isFalse_eq_ok.1 hb
  exact isFalse_eq_ok.2 ⟨e, h.entry he, rfl⟩

theorem isPositive {e : Element} {b : Bool} (hb : s.isPositive e = .ok b) :
    s'.isPositive e = .ok b := by
  obtain ⟨p, hp, hb⟩ := bind_eq_ok.1 hb
  rw [Store.isPositive, h.isFalse hp, ok_bind]
  cases p with
  | true => exact hb
  | false =>
    obtain ⟨q, hq, hb⟩ := bind_eq_ok.1 hb
    simp only [Bool.false_eq_true, if_false]
    rw [h.isFalse hq, ok_bind]
    exact hb

theorem nonePositive {es : List Element} {b : Bool} (hb : s.nonePositive es = .ok b) :
    s'.nonePositive es = .ok b := by
  induction es with
  | nil => exact hb
  | cons e es ih =>
    obtain ⟨p, hp, hb⟩ := bind_eq_ok.1 hb
    rw [Store.nonePositive, h.isPositive hp, ok_bind]
    cases p with
    | true => exact hb
    | false => exact ih hb

theorem neverHolds {k : Kind} {b : Bool} (hb : s.neverHolds k = .ok b) :
    s'.neverHolds k = .ok b := by
  cases k with
  | decision v es => exact h.nonePositive hb
  | bottom => exact hb
  | top leaf => exact hb
  | literal l => exact hb

theorem vtreeOf {v : Option VtreeId} (hv : s.vtreeOf id = .ok v) : s'.vtreeOf id = .ok v := by
  obtain ⟨k, hk, hv⟩ := bind_eq_ok.1 hv
  rw [Store.vtreeOf, h.kind hk, ok_bind, h.vtree]
  exact hv

end Extends

/-! ## Appending one node -/

/-- The store with one more node. -/
def append (s : Store W) (n : Node W) (isFalse : Bool) : Store W :=
  { s with entries := s.entries.push ⟨n, isFalse⟩ }

variable {n : Node W} {b : Bool}

theorem extends_append (s : Store W) (n : Node W) (b : Bool) : s.Extends (s.append n b) := by
  refine ⟨rfl, fun {i e} he => ?_⟩
  have hlt := (Array.getElem?_eq_some_iff.1 he).1
  show (s.entries.push _)[i]? = some e
  rw [Array.getElem?_push, if_neg (Nat.ne_of_lt hlt), he]

theorem entry_append_self : (s.append n b).entry ⟨s.numNodes⟩ = .ok ⟨n, b⟩ := by
  rw [entry_eq_ok]
  exact Array.getElem?_push_size

/-- A node of the longer store is the new one or an old one. -/
theorem entry_append {e : Entry W} (h : (s.append n b).entry id = .ok e) :
    (id = ⟨s.numNodes⟩ ∧ e = ⟨n, b⟩) ∨ s.entry id = .ok e := by
  have hid : (s.entries.push ⟨n, b⟩)[id.raw]? = some e := entry_eq_ok.1 h
  rw [Array.getElem?_push] at hid
  split at hid
  · next heq => exact Or.inl ⟨congrArg NodeId.mk heq, (Option.some_inj.1 hid).symm⟩
  · exact Or.inr (entry_eq_ok.2 hid)

theorem push_eq (s : Store W) (n : Node W) : s.push n =
    match s.neverHolds n.kind with
    | .error e => (.error e, s)
    | .ok b => (.ok ⟨s.numNodes⟩, s.append n b) := rfl

end Sentential.Store
