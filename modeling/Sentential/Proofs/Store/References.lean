import Sentential.Proofs.Store.Traversable

/-!
# The ids that constructors look at

The operations that make decisions do not validate the ids that they are given. What they do is to
decide whether the new node never holds, and for that they look at ids from left to right, only until
the answer is known (`lookedAt`). An id that is looked at and has no node refuses the call; an id
that is not looked at is let in, whatever it is.

`Reached.checksReferences` says what that amounts to. No node refers to itself or to a later node
through an id that was looked at. Through other ids it may, and then a traversal from it may have no
end or find no node (`creates_foreign`). It is the callers who keep the ids in the store, and a
decision that is made of nodes that can be traversed can be traversed from then on.
-/

namespace Sentential.Store

open Indexing

variable {W : Type} [Weight W] {s s' : Store W} {id x : NodeId} {es : List Element} {b : Bool}
  {n : Node W}

/-! ## Looking at ids -/

/-- The ids that are looked at to decide whether one of the elements is positive: the primes from
left to right, the sub of a prime that can hold, and nothing behind the first element that is
positive or names an unknown id there. -/
def lookedAt (s : Store W) : List Element → List NodeId
  | [] => []
  | e :: es =>
    match s.isFalse e.prime with
    | .ok true => e.prime :: s.lookedAt es
    | .ok false =>
      match s.isFalse e.sub with
      | .ok true => e.prime :: e.sub :: s.lookedAt es
      | _ => [e.prime, e.sub]
    | .error _ => [e.prime]

theorem isFalse_of_unknown (h : ¬ s.Knows id) : s.isFalse id = .error .outOfRange := by
  unfold Store.isFalse entry
  rw [Array.getElem?_eq_none (Nat.le_of_not_lt h)]
  rfl

section

variable {e : Element}

theorem lookedAt_of_false_prime (hp : s.isFalse e.prime = .ok true) :
    s.lookedAt (e :: es) = e.prime :: s.lookedAt es := by
  rw [lookedAt, hp]

theorem lookedAt_of_false_sub (hp : s.isFalse e.prime = .ok false)
    (hq : s.isFalse e.sub = .ok true) :
    s.lookedAt (e :: es) = e.prime :: e.sub :: s.lookedAt es := by
  rw [lookedAt, hp, hq]

theorem lookedAt_of_not_false_sub (hp : s.isFalse e.prime = .ok false)
    (hq : s.isFalse e.sub ≠ .ok true) : s.lookedAt (e :: es) = [e.prime, e.sub] := by
  simp [lookedAt, hp]

theorem lookedAt_of_unknown (hp : ¬ s.Knows e.prime) : s.lookedAt (e :: es) = [e.prime] := by
  rw [lookedAt, isFalse_of_unknown hp]

theorem isPositive_of_false_prime (hp : s.isFalse e.prime = .ok true) :
    s.isPositive e = .ok false := by
  rw [isPositive, hp]
  rfl

theorem nonePositive_cons {p : Bool} (h : s.isPositive e = .ok p) :
    s.nonePositive (e :: es) = if p then .ok false else s.nonePositive es := by
  rw [nonePositive, h, ok_bind]
  cases p <;> rfl

end

/-- Either all ids that are looked at are known and there is an answer, or one of them is not. -/
theorem nonePositive_cases (s : Store W) (es : List Element) :
    ((∃ b, s.nonePositive es = .ok b) ∧ ∀ x ∈ s.lookedAt es, s.Knows x) ∨
      (s.nonePositive es = .error .outOfRange ∧ ∃ x ∈ s.lookedAt es, ¬ s.Knows x) := by
  induction es with
  | nil => exact Or.inl ⟨⟨true, rfl⟩, fun x hx => absurd hx (by simp [lookedAt])⟩
  | cons e es ih =>
    by_cases hprime : s.Knows e.prime
    · obtain ⟨p, hp⟩ := exists_isFalse hprime
      cases p with
      | true =>
        -- the sub is passed over
        rw [nonePositive_cons (isPositive_of_false_prime hp), lookedAt_of_false_prime hp,
          List.forall_mem_cons, List.exists_mem_cons_iff]
        exact ih.imp (fun h => ⟨h.1, hprime, h.2⟩) fun h => ⟨h.1, Or.inr h.2⟩
      | false =>
        by_cases hsub : s.Knows e.sub
        · obtain ⟨q, hq⟩ := exists_isFalse hsub
          rw [nonePositive_cons (isPositive_eq hp hq)]
          cases q with
          | true =>
            rw [lookedAt_of_false_sub hp hq, List.forall_mem_cons, List.forall_mem_cons,
              List.exists_mem_cons_iff, List.exists_mem_cons_iff]
            exact ih.imp (fun h => ⟨h.1, hprime, hsub, h.2⟩) fun h => ⟨h.1, Or.inr (Or.inr h.2)⟩
          | false =>
            rw [lookedAt_of_not_false_sub hp (by simp [hq])]
            exact Or.inl ⟨⟨false, rfl⟩, by simp [hprime, hsub]⟩
        · have hq := isFalse_of_unknown hsub
          rw [lookedAt_of_not_false_sub hp (by simp [hq])]
          exact Or.inr ⟨by simp [nonePositive, isPositive, hp, hq], e.sub, by simp, hsub⟩
    · have hp := isFalse_of_unknown hprime
      rw [lookedAt_of_unknown hprime]
      exact Or.inr ⟨by simp [nonePositive, isPositive, hp], e.prime, by simp, hprime⟩

theorem knows_of_lookedAt (h : s.nonePositive es = .ok b) : ∀ x ∈ s.lookedAt es, s.Knows x := by
  rcases s.nonePositive_cases es with ⟨-, hknown⟩ | ⟨herror, -⟩
  · exact hknown
  · exact absurd (h.symm.trans herror) (by simp)

theorem nonePositive_of_unknown (hx : x ∈ s.lookedAt es) (hunknown : ¬ s.Knows x) :
    s.nonePositive es = .error .outOfRange := by
  rcases s.nonePositive_cases es with ⟨-, hknown⟩ | ⟨herror, -⟩
  · exact absurd (hknown x hx) hunknown
  · exact herror

/-- As the store grows the same ids are looked at. -/
theorem Extends.lookedAt_eq (h : s.Extends s') (hknown : ∀ x ∈ s.lookedAt es, s.Knows x) :
    s'.lookedAt es = s.lookedAt es := by
  induction es with
  | nil => rfl
  | cons e es ih =>
    by_cases hprime : s.Knows e.prime
    · obtain ⟨p, hp⟩ := exists_isFalse hprime
      cases p with
      | true =>
        rw [lookedAt_of_false_prime hp, List.forall_mem_cons] at hknown
        rw [lookedAt_of_false_prime hp, lookedAt_of_false_prime (h.isFalse hp), ih hknown.2]
      | false =>
        by_cases hq : s.isFalse e.sub = .ok true
        · rw [lookedAt_of_false_sub hp hq, List.forall_mem_cons, List.forall_mem_cons] at hknown
          rw [lookedAt_of_false_sub hp hq, lookedAt_of_false_sub (h.isFalse hp) (h.isFalse hq),
            ih hknown.2.2]
        · -- the sub is known, so it has the same flag later
          rw [lookedAt_of_not_false_sub hp hq] at hknown
          have hq' := h.isFalse (isFalse_of_not (hknown e.sub (by simp)) hq)
          rw [lookedAt_of_not_false_sub hp hq,
            lookedAt_of_not_false_sub (h.isFalse hp) (by simp [hq'])]
    · rw [lookedAt_of_unknown hprime] at hknown
      exact absurd (hknown e.prime (List.mem_singleton_self _)) hprime

/-! ## Nodes look back -/

/-- Every node refers to older nodes through the ids that are looked at. -/
def LooksBack (s : Store W) : Prop :=
  ∀ id es, s.elements id = .ok es → ∀ x ∈ s.lookedAt es, x.raw < id.raw

/-- Where there is a flag all ids that are looked at are known. -/
theorem knows_of_neverHolds {k : Kind} (h : s.neverHolds k = .ok b) :
    ∀ x ∈ s.lookedAt k.elements, s.Knows x := by
  cases k with
  | decision v es => exact knows_of_lookedAt h
  | _ => exact fun x hx => absurd hx (by simp [Kind.elements, lookedAt])

theorem LooksBack.make (h : s.LooksBack) (hs : s.Sound) (hflag : s.neverHolds n.kind = .ok b) :
    (s.make n b).LooksBack := by
  intro id es hes x hx
  have hext := extends_make s n b
  obtain ⟨e, he, rfl⟩ := elements_eq_ok.1 hes
  rcases entry_make he with ⟨rfl, rfl⟩ | hold
  · have hknown := knows_of_neverHolds hflag
    exact hknown x (hext.lookedAt_eq hknown ▸ hx)
  · have hknown := knows_of_neverHolds (hs.flags hold)
    exact h id _ (elements_of_entry hold) x (hext.lookedAt_eq hknown ▸ hx)

theorem Steps.looksBack {allowed : Store W → List Element → Prop} (h : Steps allowed s s')
    (hs : s.Sound) (hback : s.LooksBack) : s'.LooksBack := by
  induction h with
  | refl => exact hback
  | tail hsteps hstep ih =>
    cases hstep with
    | make _ hflag _ _ => exact ih.make (Steps.sound hsteps hs) hflag

theorem Reached.looksBack (h : s.Reached) : s.LooksBack := by
  induction h with
  | @start v _ =>
    intro id es hes x hx
    obtain ⟨e, he, rfl⟩ := elements_eq_ok.1 hes
    rcases (entry_ofVtree v id e).1 he with ⟨-, rfl⟩ | ⟨-, rfl⟩ | ⟨l, -, -, rfl⟩ <;>
      exact absurd hx (by simp [Node.elements, Kind.elements, lookedAt])
  | @call s c hs _ ih =>
    have hsound : s.Sound := Reached.sound hs
    exact (hsound.anySteps_perform c).looksBack hsound ih

/-! ## Constructors -/

/-- A call of one of the two constructors of decisions has made the node `id`. -/
inductive Creates (s : Store W) (es : List Element) (id : NodeId) (s' : Store W) : Prop
  | lookup {v : VtreeId} : s.lookup es v = (.ok id, s') → ¬ s.Knows id → Creates s es id s'
  | newDecision {v : VtreeId} {θ : Theta W} :
      s.newDecision es v θ = (.ok id, s') → Creates s es id s'

theorem Creates.exists_make (h : s.Creates es id s') (hs : s.Sound) : ∃ n b,
    n.elements = es ∧ s.nonePositive es = .ok b ∧ id = ⟨s.numNodes⟩ ∧ s' = s.make n b := by
  cases h with
  | @lookup v hlookup hnew =>
    obtain ⟨-, ⟨hfound, rfl⟩ | ⟨-, rfl, b, hflag, rfl⟩⟩ := lookup_cases hlookup
    · obtain ⟨b, he⟩ := (hs.shared v es id).1 hfound
      exact absurd (knows_of_entry he) hnew
    · exact ⟨_, b, rfl, hflag, rfl, rfl⟩
  | newDecision hmake =>
    obtain ⟨-, -, rfl, b, hflag, rfl⟩ := newDecision_cases hmake
    exact ⟨_, b, rfl, hflag, rfl, rfl⟩

theorem Creates.sound (h : s.Creates es id s') (hs : s.Sound) : s'.Sound := by
  cases h with
  | lookup hlookup _ => exact (hs.anySteps_lookup hlookup).sound hs
  | newDecision hmake => exact (anySteps_newDecision hmake).sound hs

/-- The store `s'` has come about from `s` through further calls with any arguments. -/
inductive Evolves (s : Store W) : Store W → Prop
  | refl : Evolves s s
  | call {s' : Store W} (c : Call W) : Evolves s s' → Evolves s (c.perform s').2

theorem Evolves.extends_sound (h : s.Evolves s') (hs : s.Sound) : s.Extends s' ∧ s'.Sound := by
  induction h with
  | refl => exact ⟨.refl s, hs⟩
  | @call s' c _ ih =>
    have hsteps := ih.2.anySteps_perform c
    exact ⟨ih.1.trans hsteps.extends, hsteps.sound ih.2⟩

/-- Numbering the nodes below a root and listing those of its circuit come to an end, with nodes of
the store. -/
def Traverses (s : Store W) (root : NodeId) : Prop :=
  (∃ ix, s.indexing root = .ok ix) ∧ ∃ order, s.positiveOrder root = .ok order

theorem Traversable.traverses (h : s.Traversable id) : s.Traverses id := by
  obtain ⟨order, hnumbering⟩ := h.exists_numbering
  obtain ⟨b, order', hpositive⟩ := h.exists_positive
  exact ⟨⟨_, hnumbering.indexing⟩, ⟨_, hpositive.positiveOrder⟩⟩

/-- What the constructors of a store make sure of, whatever ids they are given. -/
structure ChecksReferences (s : Store W) : Prop where
  /-- A new node has the next id, and all ids that were looked at had nodes. -/
  known : ∀ es id s', s.Creates es id s' → id = ⟨s.numNodes⟩ ∧ ∀ x ∈ s.lookedAt es, s.Knows x
  /-- A decision that would have to be made is refused for an unknown id that is looked at. -/
  lookupRefused : ∀ es v x, s.vtree.IsFork v → s.unique[(v, es)]? = none → x ∈ s.lookedAt es →
    ¬ s.Knows x → s.lookup es v = (.error .outOfRange, s)
  newDecisionRefused : ∀ es v (θ : Theta W) x, s.vtree.IsFork v → θ.length = es.length →
    x ∈ s.lookedAt es → ¬ s.Knows x → s.newDecision es v θ = (.error .outOfRange, s)
  /-- No node refers to itself or to a later one through an id that is looked at. -/
  older : ∀ id es, s.elements id = .ok es → ∀ x ∈ s.lookedAt es, x.raw < id.raw
  /-- The loop of a traversal ends exactly if all that is reached are nodes and none lies below
  itself. -/
  ends : ∀ root, (∃ log ix, Rounds s.elements [.visit root] .empty log [] ix) ↔
    ∀ x, s.Reaches root x → s.Knows x ∧ ¬ Relation.TransGen s.Refers x x
  traverses : ∀ root, (∃ log ix, Rounds s.elements [.visit root] .empty log [] ix) →
    s.Traverses root
  /-- A node over nodes that can be traversed is traversed in all later stores. -/
  kept : ∀ es id s', s.Creates es id s' →
    (∀ x ∈ nodesBelow es, ∃ log ix, Rounds s.elements [.visit x] .empty log [] ix) →
    ∀ s'', s'.Evolves s'' → s''.Traverses id
  /-- If callers keep to the ids of the store every node is traversed. -/
  own : s.Built → ∀ root, s.Knows root → s.Traverses root

theorem traversable_iff_rounds {root : NodeId} : s.Traversable root ↔
    ∃ log ix, Rounds s.elements [.visit root] .empty log [] ix := by
  rw [traversable_iff, exists_comm]
  exact exists_congr fun ix => indexing_eq_ok_iff

/-- Whatever ids the calls were given that a store has come about through: its constructors let in
no unknown id that they look at, and a traversal fails or goes on forever only where ids that nobody
looked at lead nowhere or back. -/
theorem Reached.checksReferences (h : s.Reached) : s.ChecksReferences := by
  have hs : s.Sound := h.sound
  constructor
  case known =>
    intro es id s' hcreates
    obtain ⟨n, b, -, hflag, hid, -⟩ := hcreates.exists_make hs
    exact ⟨hid, knows_of_lookedAt hflag⟩
  case lookupRefused =>
    exact fun es v x hfork hnone hx hunknown =>
      lookup_refused hfork hnone (nonePositive_of_unknown hx hunknown)
  case newDecisionRefused =>
    exact fun es v θ x hfork hθ hx hunknown =>
      newDecision_refused hfork hθ (nonePositive_of_unknown hx hunknown)
  case older => exact h.looksBack
  case ends => exact fun root => traversable_iff_rounds.symm
  case traverses => exact fun root hrounds => (traversable_iff_rounds.2 hrounds).traverses
  case kept =>
    intro es id s' hcreates hbelow s'' hevolves
    have hext := (hevolves.extends_sound (hcreates.sound hs)).1
    obtain ⟨n, b, rfl, -, rfl, rfl⟩ := hcreates.exists_make hs
    have hmade : (s.make n b).Traversable ⟨s.numNodes⟩ :=
      traversable_make fun x hx => traversable_iff_rounds.2 (hbelow x hx)
    exact (hmade.mono hext).traverses
  case own => exact fun hbuilt root hroot => (Closed.traversable hbuilt.closed hroot).traverses

/-! ## Foreign ids -/

/-- A store over two variables with a decision whose sub has no node. -/
def danglingStore : Store Extreme :=
  (ofVtree .pair).make ⟨.decision ⟨1⟩ [⟨.bottom, ⟨99⟩⟩], none⟩ true

/-- A store over two variables with a decision that is its own sub. -/
def loopingStore : Store Extreme :=
  (ofVtree .pair).make ⟨.decision ⟨1⟩ [⟨.bottom, ⟨6⟩⟩], none⟩ true

theorem creates_behind_bottom (x : NodeId) : (ofVtree .pair : Store Extreme).Creates
    [⟨.bottom, x⟩] ⟨6⟩ ((ofVtree .pair).make ⟨.decision ⟨1⟩ [⟨.bottom, x⟩], none⟩ true) :=
  .lookup (lookup_made ⟨_, _, _, rfl⟩ Std.HashMap.getElem?_empty rfl) (by decide)

/-- The constructors have let in the foreign id: it stands behind the terminal that never holds. -/
theorem checksReferences_danglingStore : danglingStore.Reached ∧ danglingStore.ChecksReferences ∧
    danglingStore.elements ⟨6⟩ = .ok [⟨.bottom, ⟨99⟩⟩] ∧
    danglingStore.lookedAt [⟨.bottom, ⟨99⟩⟩] = [.bottom] := by
  have hlookup : (ofVtree .pair : Store Extreme).lookup [⟨.bottom, ⟨99⟩⟩] ⟨1⟩
      = (.ok ⟨6⟩, danglingStore) := lookup_made ⟨_, _, _, rfl⟩ Std.HashMap.getElem?_empty rfl
  have hreached : danglingStore.Reached := by
    have hcall := ReachedBy.call (.lookup [⟨.bottom, ⟨99⟩⟩] ⟨1⟩)
      (ReachedBy.start (.balanced Vtree.balanced_two) : (ofVtree .pair : Store Extreme).Reached)
      trivial
    rwa [Call.perform, hlookup] at hcall
  exact ⟨hreached, hreached.checksReferences, rfl, rfl⟩

/-- Not every prime and sub of a new decision has a node: the sub of a prime that never holds may be
an id that nobody knows, and a traversal from the decision is out of range; or it may be the id that
the decision itself gets, and a traversal from it has no end. -/
theorem creates_foreign : (ofVtree .pair : Store Extreme).Reached ∧
    (ofVtree .pair : Store Extreme).Creates [⟨.bottom, ⟨99⟩⟩] ⟨6⟩ danglingStore ∧
    ¬ (ofVtree .pair : Store Extreme).KnowsBelow [⟨.bottom, ⟨99⟩⟩] ∧
    danglingStore.indexing ⟨6⟩ = .error .outOfRange ∧
    (ofVtree .pair : Store Extreme).Creates [⟨.bottom, ⟨6⟩⟩] ⟨6⟩ loopingStore ∧
    ¬ (ofVtree .pair : Store Extreme).KnowsBelow [⟨.bottom, ⟨6⟩⟩] ∧
    loopingStore.Refers ⟨6⟩ ⟨6⟩ ∧
    ∀ log ix, ¬ Rounds loopingStore.elements [.visit ⟨6⟩] .empty log [] ix := by
  refine ⟨.start (.balanced Vtree.balanced_two), creates_behind_bottom _, by decide, ?_,
    creates_behind_bottom _, by decide, ⟨_, rfl, by decide⟩, fun log ix hrounds => ?_⟩
  · -- the terminal has its number when the unknown id is visited
    have hnew : ∀ {id : NodeId} {order : List NodeId}, id ∉ order →
        ¬ (ofList order).positions.contains id = true := fun hid h =>
      hid ((contains_ofList _ _).1 h)
    have hrounds : Rounds danglingStore.elements [.visit ⟨6⟩] (ofList [])
        [some ⟨6⟩, some .bottom, none] [.visit ⟨99⟩, .finish ⟨6⟩] (ofList [.bottom]) :=
      .cons (.expand (hnew (by simp)) rfl) (.cons (.expand (hnew (by simp)) rfl)
        (.cons (.finish (hnew (by simp))) (.nil _ _)))
    have hlength : danglingStore.walkLength = 3 + (6 + 1) := rfl
    unfold indexing
    rw [hlength]
    refine (hrounds.run_eq 7).trans ?_
    rw [run, if_neg (hnew (by decide))]
    rfl
  · have hself : loopingStore.Refers ⟨6⟩ ⟨6⟩ := ⟨_, rfl, by decide⟩
    exact (traversable_of_rounds hrounds _ .refl).2 (.single hself)

end Sentential.Store
