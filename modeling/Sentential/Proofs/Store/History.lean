import Sentential.Format.Psdd
import Sentential.Format.Sdd
import Sentential.Format.Vtree
import Sentential.Proofs.Format.Reading
import Sentential.Proofs.Store.Step
import Sentential.Proofs.Store.Tables
import Sentential.Proofs.Vtree.Grammar
import Sentential.Proofs.Vtree.Shapes
import Sentential.Proofs.Weight.Extreme

/-!
# What stores go through

A store is made over a vtree and then changes through calls: of the operations that make one node,
and of the readers, which call these operations for the lines of a text. A call can be refused at
any point and leaves what it has made by then.

* `Reached s`: the store has come about through calls with any arguments;
* `Built s`: it has come about through calls whose ids were ids of the store.

`Reached.sound` and `Built.closed` are what proofs use of a history.
-/

namespace Sentential

open Format

/-! ## Calls -/

/-- A call of an operation of a store, with its arguments. -/
inductive Call (W : Type) [Weight W] where
  | literal (value : Int)
  | lookup (elements : List Element) (vtree : VtreeId)
  | newTop (variableIndex : Nat) (θ : Theta W)
  | newDecision (elements : List Element) (vtree : VtreeId) (θ : Theta W)
  | readSdd (text : List Char)
  | readPsdd (text : List Char)

namespace Call

variable {W : Type} [Weight W]

/-- What the call answers, and the store behind it. -/
def perform (s : Store W) : Call W → Except FormatError NodeId × Store W
  | literal value => (liftM (s.literal value), s)
  | lookup es v => (liftM (s.lookup es v).1, (s.lookup es v).2)
  | newTop var θ => (liftM (s.newTop var θ).1, (s.newTop var θ).2)
  | newDecision es v θ => (liftM (s.newDecision es v θ).1, (s.newDecision es v θ).2)
  | readSdd text => s.readSdd text
  | readPsdd text => s.readPsdd text

/-- The elements that the caller names. -/
def elements : Call W → List Element
  | lookup es _ => es
  | newDecision es _ _ => es
  | _ => []

end Call

/-- The vtrees that a caller can get hold of, whether or not they are `Addressable`. -/
inductive Vtree.Obtained : Vtree → Prop
  | balanced {n : Nat} {v : Vtree} : Vtree.balanced n = .ok v → Obtained v
  | rightLinear {n : Nat} {v : Vtree} : Vtree.rightLinear n = .ok v → Obtained v
  | leftLinear {n : Nat} {v : Vtree} : Vtree.leftLinear n = .ok v → Obtained v
  | read {text : List Char} {v : Vtree} : Vtree.ofFileText text = .ok v → Obtained v

theorem Vtree.Obtained.proper {v : Vtree} (h : v.Obtained) : v.Proper := by
  cases h with
  | balanced h => exact proper_generate h
  | rightLinear h => exact proper_generate h
  | leftLinear h => exact proper_generate h
  | read h => exact proper_ofFileText h

namespace Store

variable {W : Type} [Weight W] {s s' : Store W} {id : NodeId}
  {allowed : Store W → List Element → Prop}

/-- The store has come about through calls whose elements were allowed. -/
inductive ReachedBy (allowed : Store W → List Element → Prop) : Store W → Prop
  | start {v : Vtree} : v.Obtained → ReachedBy allowed (ofVtree v)
  | call {s : Store W} (c : Call W) :
      ReachedBy allowed s → allowed s c.elements → ReachedBy allowed (c.perform s).2

/-- The store has come about through calls with any arguments. -/
def Reached (s : Store W) : Prop := ReachedBy (fun _ _ => True) s

/-- The store has come about through calls whose ids were ids of the store. -/
def Built (s : Store W) : Prop := ReachedBy KnowsBelow s

/-! ## Readers only call operations -/

/-- What every line of a text delivers the whole text delivers: nodes are made one after the other,
and the answer is a node with a property `p` that nodes keep as the store grows. -/
theorem readText_provides {tags : List Text.Field}
    {build : Store W → Slots NodeId → Text.Record → Nat → Except FormatError NodeId × Store W}
    {p : Store W → NodeId → Prop} (hmono : ∀ s s' id, s.Extends s' → p s id → p s' id)
    (hbuild : ∀ s' t r i, Steps allowed s s' → t.All (p s') →
      Steps allowed s' (build s' t r i).2 ∧
        ∀ id, (build s' t r i).1 = .ok id → p (build s' t r i).2 id)
    (text : List Char) : Steps allowed s (readText tags build s text).2 ∧
      ∀ id, (readText tags build s text).1 = .ok id → p (readText tags build s text).2 id := by
  unfold readText
  cases readHeader tags text with
  | error e => exact ⟨.refl, fun id h => absurd h (by simp)⟩
  | ok header =>
    obtain ⟨declared, rs⟩ := header
    -- a refused line may have made nodes, so it counts as well
    have hrefused : ∀ s₁ t r i e s₂, (Steps allowed s s₁ ∧ t.All (p s₁)) →
        build s₁ t r i = (.error e, s₂) → Steps allowed s s₂ := by
      intro s₁ t r i e s₂ h hb
      have hd := hbuild s₁ t r i h.1 h.2
      rw [hb] at hd
      exact h.1.trans hd.1
    have hbuilt : ∀ s₁ t r i id s₂, (Steps allowed s s₁ ∧ t.All (p s₁)) →
        build s₁ t r i = (.ok id, s₂) → Steps allowed s s₂ ∧
          ∀ t', t.set r.line i id = .ok t' → Steps allowed s s₂ ∧ t'.All (p s₂) := by
      intro s₁ t r i id s₂ h hb
      have hd := hbuild s₁ t r i h.1 h.2
      rw [hb] at hd
      refine ⟨h.1.trans hd.1, fun t' hset => ⟨h.1.trans hd.1, ?_⟩⟩
      exact (h.2.imp fun x hx => hmono s₁ s₂ x hd.1.extends hx).set (hd.2 id rfl) hset
    have hkeeps := readNodes_keeps (fun s' t => Steps allowed s s' ∧ t.All (p s'))
      (fun s' => Steps allowed s s') (fun s' t h => h.1) hrefused hbuilt
      rs s (.ofCount declared) ⟨.refl, Slots.all_ofCount _ declared⟩
    refine ⟨hkeeps.1, fun id hid => ?_⟩
    obtain ⟨t, ht, hfinish⟩ := bind_eq_ok.1 hid
    exact (hkeeps.2 t ht).2.last id (Slots.finish_eq_ok.1 hfinish).2

/-- A reader whose lines each deliver delivers. -/
theorem readText_delivers {tags : List Text.Field}
    {build : Store W → Slots NodeId → Text.Record → Nat → Except FormatError NodeId × Store W}
    (hbuild : ∀ s' t r i, Steps allowed s s' → t.All s'.Knows → Delivers allowed s' (build s' t r i))
    (text : List Char) : Delivers allowed s (readText tags build s text) :=
  readText_provides (p := Knows) (fun _ _ _ hext hid => hext.knows hid) hbuild text

theorem Delivers.lift {outcome : Except Fault NodeId × Store W} (h : Delivers allowed s outcome) :
    Delivers allowed s ((liftM outcome.1 : Except FormatError NodeId), outcome.2) :=
  ⟨h.1, fun id hid => h.2 id (format_liftM_eq_ok.1 hid)⟩

theorem forall_nodesBelow_cons {p : NodeId → Prop} {e : Element} {es : List Element} :
    (∀ x ∈ Indexing.nodesBelow (e :: es), p x) ↔
      (p e.prime ∧ p e.sub) ∧ ∀ x ∈ Indexing.nodesBelow es, p x := by
  simp [Indexing.nodesBelow, and_assoc]

theorem knowsBelow_cons {e : Element} {es : List Element} :
    s.KnowsBelow (e :: es) ↔ (s.Knows e.prime ∧ s.Knows e.sub) ∧ s.KnowsBelow es :=
  forall_nodesBelow_cons

section

variable {p : NodeId → Prop} {t : Slots NodeId} (h : t.All p) {r : Text.Record}
include h

theorem readElement_all {i : Nat} {e : Element} (he : readElement t r i = .ok e) :
    p e.prime ∧ p e.sub := by
  unfold readElement at he
  obtain ⟨m, -, he⟩ := bind_eq_ok.1 he
  obtain ⟨prime, hprime, he⟩ := bind_eq_ok.1 he
  obtain ⟨n, -, he⟩ := bind_eq_ok.1 he
  obtain ⟨sub, hsub, he⟩ := bind_eq_ok.1 he
  obtain rfl := Except.ok.inj he
  exact ⟨h.slots m prime (Slots.get_eq_ok.1 hprime), h.slots n sub (Slots.get_eq_ok.1 hsub)⟩

theorem readElements_all {size i : Nat} {es : List Element}
    (hes : readElements t r i size = .ok es) : ∀ x ∈ Indexing.nodesBelow es, p x := by
  induction size generalizing i es with
  | zero =>
    obtain rfl := Except.ok.inj hes
    exact fun x hx => absurd hx (by simp [Indexing.nodesBelow])
  | succ size ih =>
    unfold readElements at hes
    obtain ⟨e, he, hes⟩ := bind_eq_ok.1 hes
    obtain ⟨rest, hrest, hes⟩ := bind_eq_ok.1 hes
    obtain rfl := Except.ok.inj hes
    exact forall_nodesBelow_cons.2 ⟨readElement_all h he, ih hrest⟩

theorem readWeighted_all {size i : Nat} {es : List (Element × W)}
    (hes : readWeighted t r i size = .ok es) :
    ∀ x ∈ Indexing.nodesBelow (es.map Prod.fst), p x := by
  induction size generalizing i es with
  | zero =>
    obtain rfl := Except.ok.inj hes
    exact fun x hx => absurd hx (by simp [Indexing.nodesBelow])
  | succ size ih =>
    unfold readWeighted at hes
    obtain ⟨e, he, hes⟩ := bind_eq_ok.1 hes
    obtain ⟨w, -, hes⟩ := bind_eq_ok.1 hes
    obtain ⟨rest, hrest, hes⟩ := bind_eq_ok.1 hes
    obtain rfl := Except.ok.inj hes
    exact forall_nodesBelow_cons.2 ⟨readElement_all h he, ih hrest⟩

end

theorem readFork_eq_ok {r : Text.Record} {v : VtreeId} {left right : Vtree.Tree}
    (h : s.readFork r = .ok (v, left, right)) :
    ∃ i, s.vtree.subtree? v = some (.fork i left right) := by
  unfold readFork at h
  obtain ⟨position, -, h⟩ := bind_eq_ok.1 h
  split at h
  · next i l r' hsub =>
    simp only [pure_eq, Except.ok.injEq, Prod.mk.injEq] at h
    obtain ⟨rfl, rfl, rfl⟩ := h
    exact ⟨i, hsub⟩
  · exact absurd h (by simp)
  · exact absurd h (by simp)

/-- The parts of a decision line are read one after the other, and what has been read is checked
against the sides of its fork. -/
theorem readFork_bind_iff {α : Type} (s : Store W) (r : Text.Record) (width : Nat)
    (parse : Nat → Except FormatError (List α))
    (check : Vtree.Tree → Vtree.Tree → List α → Except Fault Bool) (e : FormatError) {v : VtreeId}
    {xs : List α} :
    (do
      let (v, left, right) ← s.readFork r
      let size ← readSize width r
      let xs ← parse size
      unless ← check left right xs do
        throw e
      return (v, xs)) = Except.ok (v, xs) ↔
    ∃ left right size, s.readFork r = .ok (v, left, right) ∧ readSize width r = .ok size ∧
      parse size = .ok xs ∧ check left right xs = .ok true := by
  constructor
  · intro h
    obtain ⟨⟨u, left, right⟩, hfork, h⟩ := bind_eq_ok.1 h
    obtain ⟨size, hsize, h⟩ := bind_eq_ok.1 h
    obtain ⟨ys, hys, h⟩ := bind_eq_ok.1 h
    obtain ⟨b, hcheck, h⟩ := bind_eq_ok.1 h
    cases b with
    | false => exact absurd h (by simp)
    | true =>
      obtain ⟨rfl, rfl⟩ : u = v ∧ ys = xs := by simpa using h
      exact ⟨left, right, size, hfork, hsize, hys, format_liftM_eq_ok.1 hcheck⟩
  · rintro ⟨left, right, size, hfork, hsize, hxs, hcheck⟩
    rw [hfork, ok_bind]
    simp only
    rw [hsize, ok_bind, hxs, ok_bind, hcheck]
    rfl

/-- A decision line is read if each of its parts is and the elements fit the two sides. -/
theorem readDecision_parts {t : Slots NodeId} {r : Text.Record} {i : Nat} {v : VtreeId}
    {es : List Element} : s.readDecision t r i = .ok (v, es) ↔
      ∃ left right size, s.readFork r = .ok (v, left, right) ∧ readSize 2 r = .ok size ∧
        readElements t r 4 size = .ok es ∧
        allElements (s.fits left.id) (s.fits right.id) es = .ok true :=
  readFork_bind_iff s r 2 (readElements t r 4)
    (fun left right => allElements (s.fits left.id) (s.fits right.id)) (.misplaced r.line i)

/-- A line that is read as a decision names a fork whose sides its elements fit under, and nodes of
the table. -/
theorem readDecision_eq_ok {t : Slots NodeId} {r : Text.Record} {i : Nat} {v : VtreeId}
    {es : List Element} (h : s.readDecision t r i = .ok (v, es)) :
    (∃ j left right, s.vtree.subtree? v = some (.fork j left right) ∧
      allElements (s.fits left.id) (s.fits right.id) es = .ok true) ∧
    ∀ p : NodeId → Prop, t.All p → ∀ x ∈ Indexing.nodesBelow es, p x := by
  obtain ⟨left, right, size, hfork, -, hes, hall⟩ := readDecision_parts.1 h
  obtain ⟨j, hsub⟩ := readFork_eq_ok hfork
  exact ⟨⟨j, left, right, hsub, hall⟩, fun p ht => readElements_all ht hes⟩

theorem readWeightedDecision_iff {t : Slots NodeId} {r : Text.Record} {i : Nat} {v : VtreeId}
    {es : List (Element × W)} : s.readWeightedDecision t r i = .ok (v, es) ↔
      ∃ left right size, s.readFork r = .ok (v, left, right) ∧ readSize 3 r = .ok size ∧
        readWeighted t r 4 size = .ok es ∧
        allElements (s.sitsAt left.id) (s.sitsAt right.id) (es.map Prod.fst) = .ok true :=
  readFork_bind_iff s r 3 (readWeighted t r 4)
    (fun left right es => allElements (s.sitsAt left.id) (s.sitsAt right.id) (es.map Prod.fst))
    (.misplaced r.line i)

/-- A line that is read as a decision with weights names a fork whose sides its elements sit at,
and nodes of the table. -/
theorem readWeightedDecision_eq_ok {t : Slots NodeId} {r : Text.Record} {i : Nat} {v : VtreeId}
    {es : List (Element × W)} (h : s.readWeightedDecision t r i = .ok (v, es)) :
    (∃ j left right, s.vtree.subtree? v = some (.fork j left right) ∧
      allElements (s.sitsAt left.id) (s.sitsAt right.id) (es.map Prod.fst) = .ok true) ∧
    ∀ p : NodeId → Prop, t.All p → ∀ x ∈ Indexing.nodesBelow (es.map Prod.fst), p x := by
  obtain ⟨left, right, size, hfork, -, hes, hall⟩ := readWeightedDecision_iff.1 h
  obtain ⟨j, hsub⟩ := readFork_eq_ok hfork
  exact ⟨⟨j, left, right, hsub, hall⟩, fun p ht => readWeighted_all ht hes⟩

theorem readLiteral_isLiteral {r : Text.Record} {i : Nat} (h : s.readLiteral r i = .ok id) :
    s.IsLiteral id := by
  unfold readLiteral at h
  obtain ⟨l, -, h⟩ := bind_eq_ok.1 h
  split at h
  · exact absurd h (by simp)
  · next node hnode =>
    obtain ⟨position, -, h⟩ := bind_eq_ok.1 h
    obtain ⟨leaf, -, h⟩ := bind_eq_ok.1 h
    split at h
    · exact absurd h (by simp)
    · obtain rfl := Except.ok.inj h
      exact ⟨l, hnode⟩

theorem IsLiteral.knows (hs : s.Sound) (h : s.IsLiteral id) : s.Knows id :=
  Nat.lt_of_lt_of_le h.lt hs.base.baseCount_le

/-- The plain lines of both formats name terminals and literals. -/
theorem readSddPlain_eq_ok {r : Text.Record} {i : Nat} (h : s.readSddPlain r i = .ok id) :
    id = .bottom ∨ id = .top ∨ s.IsLiteral id := by
  unfold readSddPlain at h
  split at h
  · obtain ⟨_, -, h⟩ := bind_eq_ok.1 h
    exact Or.inl (Except.ok.inj h).symm
  · obtain ⟨_, -, h⟩ := bind_eq_ok.1 h
    exact Or.inr (Or.inl (Except.ok.inj h).symm)
  · obtain ⟨_, -, h⟩ := bind_eq_ok.1 h
    exact Or.inr (Or.inr (readLiteral_isLiteral h))
  · exact absurd h (by simp)

theorem readSddPlain_knows (hs : s.Sound) {r : Text.Record} {i : Nat}
    (h : s.readSddPlain r i = .ok id) : s.Knows id := by
  rcases readSddPlain_eq_ok h with rfl | rfl | hliteral
  · exact knows_of_entry hs.base.entry_bottom
  · exact knows_of_entry hs.base.entry_top
  · exact hliteral.knows hs

theorem readPsddPlain_eq_ok {r : Text.Record} {i : Nat} (h : s.readPsddPlain r i = .ok id) :
    id = .bottom ∨ s.IsLiteral id := by
  unfold readPsddPlain at h
  split at h
  · obtain ⟨_, -, h⟩ := bind_eq_ok.1 h
    exact Or.inl (Except.ok.inj h).symm
  · obtain ⟨_, -, h⟩ := bind_eq_ok.1 h
    exact Or.inr (readLiteral_isLiteral h)
  · exact absurd h (by simp)

theorem readPsddPlain_knows (hs : s.Sound) {r : Text.Record} {i : Nat}
    (h : s.readPsddPlain r i = .ok id) : s.Knows id := by
  rcases readPsddPlain_eq_ok h with rfl | hliteral
  · exact knows_of_entry hs.base.entry_bottom
  · exact hliteral.knows hs

theorem knowsBelow_nil (s : Store W) : s.KnowsBelow [] :=
  fun x hx => absurd hx (by simp [Indexing.nodesBelow])

/-- What a line is built by: a decision is looked up, and nothing is made for the other lines. -/
theorem buildSdd_cases {t : Slots NodeId} {r : Text.Record} {i : Nat}
    (h : s.buildSdd t r i = (.ok id, s')) :
    (∃ v es, tag r = ['D'] ∧ s.readDecision t r i = .ok (v, es) ∧
      s.lookup es v = (.ok id, s')) ∨
    (s.readSddPlain r i = .ok id ∧ s' = s) := by
  unfold buildSdd at h
  split at h
  · next htag =>
    cases hline : s.readDecision t r i with
    | error e => exact absurd h (by simp [hline])
    | ok d =>
      obtain ⟨v, es⟩ := d
      simp only [hline] at h
      obtain ⟨hid, hs'⟩ := Prod.mk.inj h
      exact .inl ⟨v, es, htag, rfl, Prod.ext (format_liftM_eq_ok.1 hid) hs'⟩
  · obtain ⟨hplain, hs'⟩ := Prod.mk.inj h
    exact .inr ⟨hplain, hs'.symm⟩

/-- With weights that are refused nothing is made. -/
theorem withTheta_eq_ok {θ : Except Fault (Theta W)}
    {make : Theta W → Except Fault NodeId × Store W} (h : s.withTheta θ make = (.ok id, s')) :
    ∃ θ', θ = .ok θ' ∧ make θ' = (.ok id, s') := by
  unfold withTheta at h
  cases θ with
  | error e => exact absurd h (by simp)
  | ok θ' =>
    obtain ⟨hid, hs'⟩ := Prod.mk.inj h
    exact ⟨θ', rfl, Prod.ext (format_liftM_eq_ok.1 hid) hs'⟩

/-- What a line of a probabilistic diagram is built by: a TRUE node and a decision are made with
the weights of the line, and nothing is made for the other lines. -/
theorem buildPsdd_cases {t : Slots NodeId} {r : Text.Record} {i : Nat}
    (h : s.buildPsdd t r i = (.ok id, s')) :
    (∃ var l θ, tag r = ['T'] ∧ s.readTop r i = .ok (var, l) ∧
      Theta.bernoulli (Weight.exp l) = .ok θ ∧ s.newTop var θ = (.ok id, s')) ∨
    (∃ v es θ, tag r = ['D'] ∧ s.readWeightedDecision t r i = .ok (v, es) ∧
      Theta.ofWeights (es.map Prod.snd) = .ok θ ∧
      s.newDecision (es.map Prod.fst) v θ = (.ok id, s')) ∨
    (s.readPsddPlain r i = .ok id ∧ s' = s) := by
  unfold buildPsdd at h
  split at h
  · next htag =>
    cases hline : s.readTop r i with
    | error e => exact absurd h (by simp [hline])
    | ok d =>
      obtain ⟨var, l⟩ := d
      rw [hline] at h
      obtain ⟨θ, hθ, hmake⟩ := withTheta_eq_ok h
      exact .inl ⟨var, l, θ, htag, rfl, hθ, hmake⟩
  · split at h
    · next htag =>
      cases hline : s.readWeightedDecision t r i with
      | error e => exact absurd h (by simp [hline])
      | ok d =>
        obtain ⟨v, es⟩ := d
        rw [hline] at h
        obtain ⟨θ, hθ, hmake⟩ := withTheta_eq_ok h
        exact .inr (.inl ⟨v, es, θ, htag, rfl, hθ, hmake⟩)
    · obtain ⟨hplain, hs'⟩ := Prod.mk.inj h
      exact .inr (.inr ⟨hplain, hs'.symm⟩)

/-- A reader may name its ids: they are all ids of the store. -/
def AllowsKnown (allowed : Store W → List Element → Prop) : Prop :=
  ∀ s es, s.KnowsBelow es → allowed s es

theorem delivers_plain {plain : Except FormatError NodeId}
    (h : ∀ id, plain = .ok id → s.Knows id) : Delivers allowed s (plain, s) := ⟨.refl, h⟩

section

variable (hallowed : AllowsKnown allowed)
include hallowed

theorem buildSdd_delivers (hs : s.Sound) {t : Slots NodeId} (hnames : t.All s.Knows)
    (r : Text.Record) (i : Nat) : Delivers allowed s (s.buildSdd t r i) := by
  unfold buildSdd
  split
  · cases hd : s.readDecision t r i with
    | error e => exact delivers_error s e
    | ok d =>
      have hknown := (readDecision_eq_ok hd).2 s.Knows hnames
      exact (lookup_delivers hs d.1 (hallowed s d.2 hknown)).lift
  · exact delivers_plain fun id => readSddPlain_knows hs

theorem readSdd_delivers (hs : s.Sound) (text : List Char) :
    Delivers allowed s (s.readSdd text) :=
  readText_delivers (fun _ _ r i hsteps hnames =>
    buildSdd_delivers hallowed (hsteps.sound hs) hnames r i) text

theorem buildPsdd_delivers (hs : s.Sound) {t : Slots NodeId} (hnames : t.All s.Knows)
    (r : Text.Record) (i : Nat) : Delivers allowed s (s.buildPsdd t r i) := by
  -- weights that are refused leave the store alone
  have hwith : ∀ (θ : Except Fault (Theta W)) (f : Theta W → Except Fault NodeId × Store W),
      (∀ θ, Delivers allowed s (f θ)) → Delivers allowed s (s.withTheta θ f) := by
    intro θ f hf
    unfold withTheta
    cases θ with
    | error e => exact delivers_error s _
    | ok θ => exact (hf θ).lift
  unfold buildPsdd
  split
  · cases s.readTop r i with
    | error e => exact delivers_error s e
    | ok d => exact hwith _ _ fun θ => newTop_delivers d.1 θ (hallowed s [] (knowsBelow_nil s))
  · split
    · cases hd : s.readWeightedDecision t r i with
      | error e => exact delivers_error s e
      | ok d =>
        have hknown := (readWeightedDecision_eq_ok hd).2 s.Knows hnames
        exact hwith _ _ fun θ => newDecision_delivers d.1 θ (hallowed s _ hknown)
    · exact delivers_plain fun id => readPsddPlain_knows hs

theorem readPsdd_delivers (hs : s.Sound) (text : List Char) :
    Delivers allowed s (s.readPsdd text) :=
  readText_delivers (fun _ _ r i hsteps hnames =>
    buildPsdd_delivers hallowed (hsteps.sound hs) hnames r i) text

/-! ## Histories -/

/-- Every call makes nodes one after the other and answers with a node of the store. -/
theorem perform_delivers (hs : s.Sound) (c : Call W) (hc : allowed s c.elements) :
    Delivers allowed s (c.perform s) := by
  cases c with
  | literal value =>
    refine delivers_plain fun id hid => ?_
    have hid := format_liftM_eq_ok.1 hid
    unfold Store.literal at hid
    split at hid
    · next id' hid' =>
      obtain rfl := Except.ok.inj hid
      exact Nat.lt_of_lt_of_le (literal_lt hid') hs.base.baseCount_le
    · exact absurd hid (by simp)
  | lookup es v => exact (lookup_delivers hs v hc).lift
  | newTop var θ => exact (newTop_delivers var θ hc).lift
  | newDecision es v θ => exact (newDecision_delivers v θ hc).lift
  | readSdd text => exact readSdd_delivers hallowed hs text
  | readPsdd text => exact readPsdd_delivers hallowed hs text

end

/-- Whatever ids a call is given, all it does is to make nodes. -/
theorem Sound.anySteps_perform (hs : s.Sound) (c : Call W) : AnySteps s (c.perform s).2 :=
  (perform_delivers (fun _ _ _ => trivial) hs c trivial).1

theorem sound_ofVtree {v : Vtree} (h : v.Proper) : (ofVtree v : Store W).Sound := by
  constructor
  case vtree => exact h
  case base => exact .refl _
  case made =>
    intro id e he hle
    have hlt : id.raw < (ofVtree v : Store W).numNodes := knows_of_entry he
    rw [numNodes_ofVtree] at hlt
    exact absurd hlt (Nat.not_lt_of_le hle)
  case flags =>
    intro id e he
    rcases (entry_ofVtree v id e).1 he with ⟨-, rfl⟩ | ⟨-, rfl⟩ | ⟨l, -, -, rfl⟩ <;> rfl
  case shared =>
    intro v' es id
    constructor
    · intro h
      exact absurd h (by simp [ofVtree])
    · intro h
      obtain ⟨b, he⟩ := h
      rcases (entry_ofVtree v id _).1 he with ⟨-, heq⟩ | ⟨-, heq⟩ | ⟨l, -, -, heq⟩ <;>
        exact absurd heq (by simp)

theorem ReachedBy.sound (hallowed : AllowsKnown allowed) (h : ReachedBy allowed s) : s.Sound := by
  induction h with
  | start hv => exact sound_ofVtree hv.proper
  | call c _ hc ih => exact (perform_delivers hallowed ih c hc).1.sound ih

/-- A store that has come about through any calls is sound. -/
theorem Reached.sound (h : s.Reached) : s.Sound :=
  ReachedBy.sound (fun _ _ _ => trivial) h

theorem Built.sound (h : s.Built) : s.Sound := ReachedBy.sound (fun _ _ h => h) h

/-- In a store that was built from its own ids the elements of a node are older than the node. -/
theorem Built.closed (h : s.Built) : s.Closed := by
  induction h with
  | @start v hv =>
    intro id es hes x hx
    obtain ⟨e, he, rfl⟩ := elements_eq_ok.1 hes
    rcases (entry_ofVtree v id e).1 he with ⟨-, rfl⟩ | ⟨-, rfl⟩ | ⟨l, -, -, rfl⟩ <;>
      exact absurd hx (by simp [Node.elements, Kind.elements, Indexing.nodesBelow])
  | call c hs hc ih => exact (perform_delivers (fun _ _ h => h) (Built.sound hs) c hc).1.closed ih

/-- Calls with ids of the store are calls. -/
theorem Built.reached (h : s.Built) : s.Reached := by
  induction h with
  | start hv => exact .start hv
  | call c _ _ ih => exact .call c ih trivial

/-- A construction is a call, unless it is refused for its weights. -/
theorem ReachedBy.construct (h : ReachedBy allowed s) (c : Construction W)
    (hc : allowed s c.elements) : ReachedBy allowed (c.perform s).2 := by
  have hweights : ∀ (ws : List W) (make : Theta W → Except Fault NodeId × Store W),
      (∀ θ, ReachedBy allowed (make θ).2) → ReachedBy allowed (s.withWeights ws make).2 := by
    intro ws make hmake
    unfold withWeights
    cases Theta.ofWeights ws with
    | error e => exact h
    | ok θ => exact hmake θ
  cases c with
  | literal value => exact h
  | var word => exact h
  | lookup es v => exact .call (.lookup es v) h hc
  | newTop x ws => exact hweights ws _ fun θ => .call (.newTop x θ) h hc
  | newDecision es v ws => exact hweights ws _ fun θ => .call (.newDecision es v θ) h hc

/-- What is made in a store is made by a construction. -/
theorem Step.exists_construction (h : Step allowed s s') :
    ∃ c : Construction W, allowed s c.elements ∧ (c.perform s).2 = s' := by
  cases h with
  | @make n b hmade hflag hallowed hfresh =>
    cases hmade with
    | @top var leaf θ hleaf hθ =>
      obtain rfl : false = b := Except.ok.inj hflag
      refine ⟨.newTop var θ.weights, hallowed, ?_⟩
      rw [Construction.perform, withWeights_weights, newTop_made hleaf hθ]
    | @decision v es theta hfork hθ =>
      cases theta with
      | none =>
        refine ⟨.lookup es v, hallowed, ?_⟩
        rw [Construction.perform, lookup_made hfork (hfresh rfl) hflag]
      | some θ =>
        refine ⟨.newDecision es v θ.weights, hallowed, ?_⟩
        rw [Construction.perform, withWeights_weights, newDecision_made hfork (hθ θ rfl) hflag]

theorem Built.step (h : s.Built) (hstep : Step KnowsBelow s s') : s'.Built := by
  obtain ⟨c, hc, rfl⟩ := hstep.exists_construction
  exact ReachedBy.construct h c hc

/-! ## A small store -/

/-- The elements of `x₁ ∧ x₂`, the second of which never holds. -/
def conjunction : List Element := [⟨⟨2⟩, ⟨3⟩⟩, ⟨⟨4⟩, .bottom⟩]

/-- The same elements with a TRUE node in place of `x₁`. -/
def weightedConjunction : List Element := [⟨⟨7⟩, ⟨3⟩⟩, ⟨⟨4⟩, .bottom⟩]

/-- A store over two variables with a decision at id 6, a TRUE node at id 7, and a decision with
weights over the TRUE node at id 8. -/
def sample : Store Extreme :=
  (((ofVtree .pair).make ⟨.decision ⟨1⟩ conjunction, none⟩ false).make
    ⟨.top (some ⟨0⟩), some ⟨[.zero, .one], by decide⟩⟩ false).make
    ⟨.decision ⟨1⟩ weightedConjunction, some ⟨[.one, .zero], by decide⟩⟩ false

theorem built_sample : sample.Built := by
  have hfork : Vtree.pair.IsFork ⟨1⟩ := ⟨_, _, _, rfl⟩
  have hstart : (ofVtree Vtree.pair : Store Extreme).Built := .start (.balanced Vtree.balanced_two)
  have hone := hstart.step (.make (n := ⟨.decision ⟨1⟩ conjunction, none⟩) (b := false)
    (.decision hfork fun θ hθ => absurd hθ (by simp)) rfl (by decide)
    fun _ => Std.HashMap.getElem?_empty)
  have hleaf : Vtree.pair.leafOf 1 = .ok ⟨0⟩ := rfl
  have htwo := hone.step (.make (n := ⟨.top (some ⟨0⟩), some ⟨[.zero, .one], by decide⟩⟩)
    (b := false) (.top hleaf rfl) rfl (by decide) fun h => absurd h (by simp))
  exact htwo.step (.make (.decision hfork fun θ hθ => Option.some_inj.1 hθ ▸ rfl) rfl (by decide)
    fun h => absurd h (by simp))

end Store
end Sentential
