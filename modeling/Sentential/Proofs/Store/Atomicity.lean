import Sentential.Proofs.Store.Continuation
import Sentential.Proofs.Store.Tables

/-!
# Constructions that are refused

A construction changes the tables of a store step by step, and a refusal undoes nothing, so what was
written by then would stay. Nothing ever is. An operation looks first, and looking writes nothing
(`Looks`); it writes last, and writing is not refused (`Writes`). Whatever the arguments are, a
refused construction therefore leaves the tables as they were (`Construction.atomic`), and a session
goes on as if it had not been tried (`Store.refusesWithoutTrace`).
-/

namespace Sentential

variable {W : Type} [Weight W] {α β : Type}

namespace Effect

/-! ## Writing -/

/-- The computation is not refused. -/
def Writes (a : Effect W α) : Prop := ∀ t, ∃ x t', a.run t = (.ok x, t')

/-- The computation has written nothing if it is refused. -/
def Atomic (a : Effect W α) : Prop := ∀ t e t', a.run t = (.error e, t') → t' = t

theorem writes_pure (x : α) : Writes (pure x : Effect W α) := fun t => ⟨_, _, run_pure x t⟩

theorem writes_modify (f : Tables W → Tables W) : Writes (modify f : Effect W PUnit) :=
  fun t => ⟨_, _, run_modify f t⟩

theorem writes_get : Writes (get : Effect W (Tables W)) := fun t => ⟨_, _, run_get t⟩

theorem Writes.bind {a : Effect W α} {f : α → Effect W β} (ha : Writes a)
    (hf : ∀ x, Writes (f x)) : Writes (a >>= f) := by
  intro t
  obtain ⟨x, t', hx⟩ := ha t
  rw [run_bind, hx]
  exact hf x t'

theorem Looks.atomic {a : Effect W α} (ha : Looks a) : Atomic a := by
  intro t e t' h
  obtain ⟨r, hr⟩ := ha t
  exact (Prod.mk.inj (hr.symm.trans h)).2.symm

theorem Writes.atomic {a : Effect W α} (ha : Writes a) : Atomic a := by
  intro t e t' h
  obtain ⟨x, t₁, hx⟩ := ha t
  exact absurd (hx.symm.trans h) (by simp)

/-- What is refused while it looks has written nothing yet. -/
theorem Looks.bind_atomic {a : Effect W α} {f : α → Effect W β} (ha : Looks a)
    (hf : ∀ x, Atomic (f x)) : Atomic (a >>= f) := by
  intro t e t' h
  obtain ⟨r, hr⟩ := ha t
  rw [run_bind, hr] at h
  cases r with
  | ok x => exact hf x t e t' h
  | error e' => exact (Prod.mk.inj h).2.symm

/-- What is not refused any more leaves nothing half done. -/
theorem Atomic.bind_writes {a : Effect W α} {f : α → Effect W β} (ha : Atomic a)
    (hf : ∀ x, Writes (f x)) : Atomic (a >>= f) := by
  intro t e t' h
  rw [run_bind] at h
  rcases hr : run a t with ⟨e' | x, t₁⟩
  · rw [hr] at h
    obtain ⟨-, rfl⟩ := Prod.mk.inj h
    exact ha t e' t₁ hr
  · obtain ⟨y, t₂, hy⟩ := hf x t₁
    rw [hr] at h
    exact absurd (hy.symm.trans h) (by simp)

/-! ## Looking comes first -/

theorem writes_append (n : Node W) (isFalse : Bool) : Writes (append n isFalse) :=
  writes_get.bind fun _ => (writes_modify _).bind fun _ => (writes_modify _).bind fun _ =>
    writes_pure _

theorem atomic_push (n : Node W) : Atomic (push n) :=
  (looks_neverHolds n.kind).bind_atomic fun isFalse => (writes_append n isFalse).atomic

theorem atomic_lookup (es : List Element) (v : VtreeId) : Atomic (lookup es v : Effect W NodeId) := by
  refine (looks_expectFork v).bind_atomic fun _ => looks_get.bind_atomic fun t => ?_
  cases t.unique[(v, es)]? with
  | some id => exact (looks_pure id).atomic
  | none =>
    exact (atomic_push _).bind_writes fun id => (writes_modify _).bind fun _ => writes_pure id

theorem atomic_newTop (var : Nat) (θ : Theta W) : Atomic (newTop var θ) :=
  (looks_insist _ _).bind_atomic fun _ => looks_get.bind_atomic fun _ =>
    (looks_answer _).bind_atomic fun _ => atomic_push _

theorem atomic_newDecision (es : List Element) (v : VtreeId) (θ : Theta W) :
    Atomic (newDecision es v θ) :=
  (looks_insist _ _).bind_atomic fun _ => (looks_expectFork v).bind_atomic fun _ => atomic_push _

end Effect

namespace Construction

open Effect

/-- A construction that is refused has written nothing, whatever the tables and its arguments. -/
theorem atomic (c : Construction W) : Atomic c.act := by
  cases c with
  | literal value => exact (looks_literal value).atomic
  | var word => exact (looks_literal _).atomic
  | lookup es v => exact atomic_lookup es v
  | newTop x ws => exact (looks_answer _).bind_atomic fun θ => atomic_newTop x θ
  | newDecision es v ws => exact (looks_answer _).bind_atomic fun θ => atomic_newDecision es v θ

end Construction

namespace Store

variable {s : Store W}

/-- A construction that is refused leaves the store as it was. -/
theorem perform_refused {c : Construction W} {e : Fault} (h : (c.perform s).1 = .error e) :
    (c.perform s).2 = s := by
  have hrun := s.run_act c
  unfold tabled at hrun
  rw [h] at hrun
  exact tables_injective (c.atomic _ _ _ hrun)

/-! ## Sessions -/

end Store

/-- What a session asks of a store: a construction, or that a text is read. -/
inductive Request (W : Type) [Weight W] where
  | construct (c : Construction W)
  | readSdd (text : List Char)
  | readPsdd (text : List Char)

namespace Request

def perform (s : Store W) : Request W → Except Format.FormatError NodeId × Store W
  | construct c => (liftM (c.perform s).1, (c.perform s).2)
  | readSdd text => s.readSdd text
  | readPsdd text => s.readPsdd text

/-- Whether the request is a construction that was refused. Texts that are refused do not count:
what they describe up to the flaw has been made. -/
def isRefused : Request W × Except Format.FormatError NodeId → Bool
  | (construct _, .error _) => true
  | _ => false

end Request

namespace Store

variable {s : Store W}

/-- Performs one request after the other: the requests with their answers, and the store in the
end. -/
def session (s : Store W) :
    List (Request W) → List (Request W × Except Format.FormatError NodeId) × Store W
  | [] => ([], s)
  | r :: rs =>
    let (answer, s') := r.perform s
    let (log, last) := s'.session rs
    ((r, answer) :: log, last)

theorem session_cons (s : Store W) (r : Request W) (rs : List (Request W)) :
    s.session (r :: rs) = ((r, (r.perform s).1) :: ((r.perform s).2.session rs).1,
      ((r.perform s).2.session rs).2) := rfl

theorem perform_of_isRefused {r : Request W}
    (h : Request.isRefused (r, (r.perform s).1) = true) : (r.perform s).2 = s := by
  cases r with
  | construct c =>
    cases hc : (c.perform s).1 with
    | error e => exact perform_refused hc
    | ok id => simp [Request.perform, Request.isRefused, hc] at h
  | readSdd text => simp [Request.isRefused] at h
  | readPsdd text => simp [Request.isRefused] at h

/-- A session without the constructions that were refused in it gives all the other requests the
answers that they had, and ends with the same store. -/
theorem session_filter (s : Store W) (rs : List (Request W)) :
    s.session (((s.session rs).1.filter (!Request.isRefused ·)).map Prod.fst)
      = ((s.session rs).1.filter (!Request.isRefused ·), (s.session rs).2) := by
  induction rs generalizing s with
  | nil => rfl
  | cons r rs ih =>
    have hrest := ih (r.perform s).2
    rw [session_cons, List.filter_cons]
    cases hr : Request.isRefused (r, (r.perform s).1) with
    | true =>
      rw [perform_of_isRefused hr] at hrest ⊢
      exact hrest
    | false =>
      simp only [Bool.not_false, if_true, List.map_cons]
      rw [session_cons, hrest]

/-- What it means that constructions are refused without a trace. -/
structure RefusesWithoutTrace (s : Store W) : Prop where
  /-- The operations change a store as they change its tables step by step. -/
  tables : ∀ c : Construction W, c.act.run s.tables = tabled (c.perform s)
  /-- A refusal leaves all tables as they were before the first step, whatever they held. -/
  steps : ∀ (c : Construction W) (t t' : Tables W) (e : Fault),
    c.act.run t = (.error e, t') → t' = t
  /-- A refusal leaves the store as it was. -/
  refused : ∀ (c : Construction W) (e : Fault), (c.perform s).1 = .error e → (c.perform s).2 = s
  /-- A session goes on behind a refusal as if nothing had been tried: without the refused
  constructions it gives the same answers to all other requests, and ends with the same store. -/
  session : ∀ rs, s.session (((s.session rs).1.filter (!Request.isRefused ·)).map Prod.fst)
    = ((s.session rs).1.filter (!Request.isRefused ·), (s.session rs).2)

/-- Whatever a construction is given, it leaves no trace if it is refused, in any store. -/
theorem refusesWithoutTrace (s : Store W) : s.RefusesWithoutTrace :=
  ⟨s.run_act, fun c t t' e => c.atomic t e t', fun _ _ => perform_refused, s.session_filter⟩

/-- Constructions that the sample refuses, each for a reason of its own. The scan of the second one
passes over an unknown id before it comes upon one. -/
theorem refusesWithoutTrace_sample :
    (Construction.literal 3).perform sample = (.error (.literalRange 3 2), sample) ∧
    (Construction.newDecision [⟨.bottom, ⟨99⟩⟩, ⟨⟨2⟩, ⟨99⟩⟩] ⟨1⟩ [.one, .one]).perform sample
      = (.error .outOfRange, sample) ∧
    (Construction.newDecision [⟨⟨2⟩, ⟨3⟩⟩] ⟨0⟩ [.one]).perform sample
      = (.error .decisionAtLeaf, sample) ∧
    (Construction.newTop 1 [.minusInfinity, .one]).perform sample
      = (.error .negativeWeight, sample) ∧
    (Construction.newTop 1 [.one]).perform sample = (.error .truePair, sample) ∧
    (Construction.newTop 3 [.one, .one]).perform sample = (.error (.variableRange 3), sample) := by
  have hrefused := (refusesWithoutTrace sample).refused
  have hpair : ∀ (c : Construction Extreme) (e : Fault), (c.perform sample).1 = .error e →
      c.perform sample = (.error e, sample) := fun c e h => Prod.ext h (hrefused c e h)
  exact ⟨hpair _ _ rfl, hpair _ _ rfl, hpair _ _ rfl, hpair _ _ rfl, hpair _ _ rfl, hpair _ _ rfl⟩

end Store
end Sentential
