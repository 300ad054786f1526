import Mathlib.Logic.Basic
import Sentential.Proofs.Outcome
import Sentential.Proofs.Store.Extension

/-!
# The tables of a store

A store is four tables: the nodes, their flags, the decisions without weights, and the literals. The
operations that make a node look at these tables and then write to them, one table after the other
(`Effect`). A refusal stops an operation where it stands and undoes nothing, so what was written by
then would stay.

What a construction does to a store is what its steps do to the tables of the store
(`Store.run_act`), and a store is what its tables are (`Store.tables_injective`).
-/

namespace Sentential

variable {W : Type} [Weight W] {α β : Type}

/-- The tables of a store, each on its own, and the vtree that they are over. -/
structure Tables (W : Type) [Weight W] where
  vtree : Vtree
  nodes : Array (Node W)
  flags : Array Bool
  unique : Std.HashMap (VtreeId × List Element) NodeId
  literals : Array NodeId

/-- The tables of a store. The literals are the nodes behind the two terminals. -/
def Store.tables (s : Store W) : Tables W where
  vtree := s.vtree
  nodes := s.entries.map Entry.toNode
  flags := s.entries.map Entry.isFalse
  unique := s.unique
  literals := ((List.range (2 * s.varCount)).map fun i => ⟨i + 2⟩).toArray

/-- A computation on tables. Where it is refused the tables stay as they are at that point. -/
abbrev Effect (W : Type) [Weight W] (α : Type) : Type := ExceptT Fault (StateM (Tables W)) α

namespace Effect

/-- What the computation answers, and the tables behind it. -/
def run (a : Effect W α) (t : Tables W) : Except Fault α × Tables W := StateT.run (ExceptT.run a) t

/-! ## Looking -/

/-- The answer of a computation that needs no table. -/
def answer : Except Fault α → Effect W α
  | .ok a => pure a
  | .error e => throw e

/-- Insists on a condition. -/
def insist (p : Prop) [Decidable p] (e : Fault) : Effect W Unit := if p then pure () else throw e

/-- The entry of a table. -/
def entryAt (table : Tables W → Array α) (i : Nat) : Effect W α := do
  match (table (← get))[i]? with
  | some a => return a
  | none => throw .outOfRange

@[simp] theorem run_pure (x : α) (t : Tables W) : run (pure x) t = (.ok x, t) := rfl

@[simp] theorem run_throw (e : Fault) (t : Tables W) :
    run (throw e : Effect W α) t = (.error e, t) := rfl

@[simp] theorem run_get (t : Tables W) : run get t = (.ok t, t) := rfl

@[simp] theorem run_modify (f : Tables W → Tables W) (t : Tables W) :
    run (modify f) t = (.ok ⟨⟩, f t) := rfl

@[simp] theorem run_answer (r : Except Fault α) (t : Tables W) : run (answer r) t = (r, t) := by
  cases r <;> rfl

theorem run_bind (a : Effect W α) (f : α → Effect W β) (t : Tables W) :
    run (a >>= f) t = match run a t with
      | (.ok x, t') => run (f x) t'
      | (.error e, t') => (.error e, t') := by
  unfold run
  rw [ExceptT.run_bind, StateT.run_bind]
  show (match StateT.run (ExceptT.run a) t with | (r, t') => _) = _
  rcases StateT.run (ExceptT.run a) t with ⟨_ | _, t'⟩ <;> rfl

/-- The computation writes nothing, whether it is refused or not. -/
def Looks (a : Effect W α) : Prop := ∀ t, ∃ r, a.run t = (r, t)

theorem looks_pure (x : α) : Looks (pure x : Effect W α) := fun t => ⟨_, run_pure x t⟩

theorem looks_throw (e : Fault) : Looks (throw e : Effect W α) := fun t => ⟨_, run_throw e t⟩

theorem looks_get : Looks (get : Effect W (Tables W)) := fun t => ⟨_, run_get t⟩

theorem looks_answer (r : Except Fault α) : Looks (answer r : Effect W α) :=
  fun t => ⟨_, run_answer r t⟩

theorem Looks.bind {a : Effect W α} {f : α → Effect W β} (ha : Looks a) (hf : ∀ x, Looks (f x)) :
    Looks (a >>= f) := by
  intro t
  obtain ⟨r, hr⟩ := ha t
  rw [run_bind, hr]
  cases r with
  | ok x => exact hf x t
  | error e => exact ⟨_, rfl⟩

theorem looks_insist (p : Prop) [Decidable p] (e : Fault) : Looks (insist p e : Effect W Unit) := by
  unfold insist
  split
  · exact looks_pure ()
  · exact looks_throw e

theorem looks_entryAt (table : Tables W → Array α) (i : Nat) : Looks (entryAt table i) := by
  refine looks_get.bind fun t => ?_
  cases (table t)[i]? with
  | some a => exact looks_pure a
  | none => exact looks_throw .outOfRange

/-! ## The operations on tables -/

/-- Whether a node never holds. -/
def flag (id : NodeId) : Effect W Bool := entryAt Tables.flags id.raw

/-- Whether in every element the prime or the sub never holds; the scan ends where the answer is
known. -/
def nonePositive : List Element → Effect W Bool
  | [] => return true
  | e :: es => do
    if ← flag e.prime then nonePositive es
    else if ← flag e.sub then nonePositive es
    else return false

/-- Whether a node of this kind never holds. -/
def neverHolds : Kind → Effect W Bool
  | .bottom => return true
  | .decision _ es => nonePositive es
  | _ => return false

/-- Puts a node and its flag behind the others. -/
def append (n : Node W) (isFalse : Bool) : Effect W NodeId := do
  let id : NodeId := ⟨(← get).nodes.size⟩
  modify fun t => { t with nodes := t.nodes.push n }
  modify fun t => { t with flags := t.flags.push isFalse }
  return id

theorem run_append (n : Node W) (isFalse : Bool) (t : Tables W) : run (append n isFalse) t
    = (.ok ⟨t.nodes.size⟩, { t with nodes := t.nodes.push n, flags := t.flags.push isFalse }) := rfl

def push (n : Node W) : Effect W NodeId := do
  append n (← neverHolds n.kind)

/-- Insists that a vtree node has two sides. -/
def expectFork (v : VtreeId) : Effect W Unit := do
  let u ← answer ((← get).vtree.subtree v)
  insist (u.isLeaf = false) .decisionAtLeaf

def lookup (es : List Element) (v : VtreeId) : Effect W NodeId := do
  expectFork v
  match (← get).unique[(v, es)]? with
  | some id => return id
  | none =>
    let id ← push ⟨.decision v es, none⟩
    modify fun t => { t with unique := t.unique.insert (v, es) id }
    return id

def newTop (var : Nat) (θ : Theta W) : Effect W NodeId := do
  insist (θ.length = 2) .truePair
  let leaf ← answer ((← get).vtree.leafOf var)
  push ⟨.top (some leaf), some θ⟩

def newDecision (es : List Element) (v : VtreeId) (θ : Theta W) : Effect W NodeId := do
  insist (θ.length = es.length) .weightCount
  expectFork v
  push ⟨.decision v es, some θ⟩

/-- The node of a literal: the positive ones come first in the table. -/
def literal (l : Int) : Effect W NodeId := do
  let n := (← get).vtree.numVars
  insist (l ≠ 0 ∧ l.natAbs ≤ n) (.literalRange l n)
  entryAt Tables.literals (if 0 < l then l.natAbs - 1 else n + l.natAbs - 1)

/-! ## Looking comes first -/

theorem looks_flag (id : NodeId) : Looks (flag id : Effect W Bool) := looks_entryAt _ _

theorem looks_nonePositive (es : List Element) : Looks (nonePositive es : Effect W Bool) := by
  induction es with
  | nil => exact looks_pure true
  | cons e es ih =>
    refine (looks_flag e.prime).bind fun p => ?_
    cases p with
    | true => exact ih
    | false =>
      refine (looks_flag e.sub).bind fun q => ?_
      cases q with
      | true => exact ih
      | false => exact looks_pure false

theorem looks_neverHolds (k : Kind) : Looks (neverHolds k : Effect W Bool) := by
  cases k with
  | decision v es => exact looks_nonePositive es
  | _ => exact looks_pure _

theorem looks_expectFork (v : VtreeId) : Looks (expectFork v : Effect W Unit) :=
  looks_get.bind fun _ => (looks_answer _).bind fun _ => looks_insist _ _

theorem looks_literal (l : Int) : Looks (literal l : Effect W NodeId) :=
  looks_get.bind fun _ => (looks_insist _ _).bind fun _ => looks_entryAt _ _

end Effect

/-! ## Constructions -/

/-- A call of an operation that answers with one node, with its arguments as the caller gives
them. -/
inductive Construction (W : Type) [Weight W] where
  | literal (value : Int)
  | var (word : UInt32)
  | lookup (elements : List Element) (vtree : VtreeId)
  | newTop (variableIndex : Nat) (weights : List W)
  | newDecision (elements : List Element) (vtree : VtreeId) (weights : List W)

/-- Makes a node with weights, provided that they can be weights. -/
def Store.withWeights (s : Store W) (ws : List W)
    (make : Theta W → Except Fault NodeId × Store W) : Except Fault NodeId × Store W :=
  match Theta.ofWeights ws with
  | .error e => (.error e, s)
  | .ok θ => make θ

theorem Store.withWeights_weights (s : Store W) (θ : Theta W)
    (make : Theta W → Except Fault NodeId × Store W) : s.withWeights θ.weights make = make θ := by
  unfold withWeights Theta.ofWeights
  rw [dif_pos θ.nonneg]

namespace Construction

open Effect

/-- The construction in the store. -/
def perform (s : Store W) : Construction W → Except Fault NodeId × Store W
  | literal value => (s.literal value, s)
  | var word => (s.var word, s)
  | lookup es v => s.lookup es v
  | newTop x ws => s.withWeights ws (s.newTop x)
  | newDecision es v ws => s.withWeights ws (s.newDecision es v)

/-- The elements that the caller names. -/
def elements : Construction W → List Element
  | lookup es _ => es
  | newDecision es _ _ => es
  | _ => []

/-- The construction in the tables, step by step. -/
def act : Construction W → Effect W NodeId
  | literal value => Effect.literal value
  | var word => Effect.literal (Literal.signed word)
  | lookup es v => Effect.lookup es v
  | newTop x ws => do Effect.newTop x (← answer (Theta.ofWeights ws))
  | newDecision es v ws => do Effect.newDecision es v (← answer (Theta.ofWeights ws))

end Construction

/-! ## The store by its tables -/

namespace Store

open Effect

variable {s : Store W}

/-- An outcome of an operation, with the store told by its tables. -/
def tabled (outcome : Except Fault NodeId × Store W) : Except Fault NodeId × Tables W :=
  (outcome.1, outcome.2.tables)

theorem run_flag (id : NodeId) : (flag id).run s.tables = (s.isFalse id, s.tables) := by
  unfold flag entryAt
  rw [run_bind, run_get]
  unfold isFalse entry tables
  simp only [Array.getElem?_map]
  cases s.entries[id.raw]? <;> rfl

theorem run_nonePositive (es : List Element) :
    (Effect.nonePositive es).run s.tables = (s.nonePositive es, s.tables) := by
  induction es with
  | nil => rfl
  | cons e es ih =>
    unfold Effect.nonePositive
    rw [run_bind, run_flag, Store.nonePositive, isPositive]
    cases s.isFalse e.prime with
    | error e => rfl
    | ok p =>
      cases p with
      | true => exact ih
      | false =>
        simp only [Bool.false_eq_true, if_false, ok_bind]
        rw [run_bind, run_flag]
        cases s.isFalse e.sub with
        | error e => rfl
        | ok q =>
          cases q with
          | true => exact ih
          | false => rfl

theorem run_neverHolds (k : Kind) :
    (Effect.neverHolds k).run s.tables = (s.neverHolds k, s.tables) := by
  cases k with
  | decision v es => exact run_nonePositive es
  | _ => rfl

theorem run_push (n : Node W) : (Effect.push n).run s.tables = tabled (s.push n) := by
  unfold Effect.push
  rw [run_bind, run_neverHolds, push_eq]
  cases s.neverHolds n.kind with
  | error e => rfl
  | ok b =>
    simp only
    rw [run_append]
    simp [tabled, tables, Store.append, numNodes, varCount]

theorem run_expectFork (v : VtreeId) :
    (Effect.expectFork v).run s.tables = (s.expectFork v, s.tables) := by
  unfold Effect.expectFork Store.expectFork
  rw [run_bind, run_get]
  show Effect.run (answer (s.vtree.subtree v) >>= _) s.tables = _
  rw [run_bind, run_answer]
  cases s.vtree.subtree v with
  | error e => rfl
  | ok u => cases u <;> rfl

theorem run_lookup (es : List Element) (v : VtreeId) :
    (Effect.lookup es v).run s.tables = tabled (s.lookup es v) := by
  unfold Effect.lookup Store.lookup
  rw [run_bind, run_expectFork]
  cases s.expectFork v with
  | error e => rfl
  | ok _ =>
    simp only
    rw [run_bind, run_get]
    show Effect.run (match s.unique[(v, es)]? with | some id => _ | none => _) s.tables = _
    cases s.unique[(v, es)]? with
    | some id => rfl
    | none =>
      simp only
      rw [run_bind, run_push]
      rcases s.push ⟨.decision v es, none⟩ with ⟨e | id, s'⟩ <;> rfl

theorem run_newTop (x : Nat) (θ : Theta W) :
    (Effect.newTop x θ).run s.tables = tabled (s.newTop x θ) := by
  unfold Effect.newTop Store.newTop insist
  by_cases hθ : θ.length = 2
  · rw [if_pos hθ, if_neg (not_not.2 hθ), run_bind, run_pure]
    simp only
    rw [run_bind, run_get]
    show Effect.run (answer (s.vtree.leafOf x) >>= _) s.tables = _
    rw [run_bind, run_answer]
    cases s.vtree.leafOf x with
    | error e => rfl
    | ok leaf => exact run_push _
  · rw [if_neg hθ, if_pos hθ]
    rfl

theorem run_newDecision (es : List Element) (v : VtreeId) (θ : Theta W) :
    (Effect.newDecision es v θ).run s.tables = tabled (s.newDecision es v θ) := by
  unfold Effect.newDecision Store.newDecision insist
  by_cases hθ : θ.length = es.length
  · rw [if_pos hθ, if_neg (not_not.2 hθ), run_bind, run_pure]
    simp only
    rw [run_bind, run_expectFork]
    cases s.expectFork v with
    | error e => rfl
    | ok _ => exact run_push _
  · rw [if_neg hθ, if_pos hθ]
    rfl

theorem run_literal (l : Int) : (Effect.literal l).run s.tables = (s.literal l, s.tables) := by
  unfold Effect.literal Store.literal Store.literal? insist
  rw [run_bind, run_get]
  show Effect.run ((if l ≠ 0 ∧ l.natAbs ≤ s.varCount then _ else _) >>= _) s.tables = _
  by_cases hl : l ≠ 0 ∧ l.natAbs ≤ s.varCount
  · have hin : ¬ (l = 0 ∨ s.varCount < l.natAbs) := by omega
    -- the place of the literal in the table, two before its node
    obtain ⟨i, hi, hid, hlt⟩ : ∃ i, (if 0 < l then l.natAbs - 1 else s.varCount + l.natAbs - 1) = i ∧
        (if 0 < l then l.natAbs + 1 else s.varCount + l.natAbs + 1) = i + 2 ∧
        i < 2 * s.varCount := by
      refine ⟨_, rfl, ?_, ?_⟩ <;> split <;> omega
    simp only
    rw [if_pos hl, if_neg hin, run_bind, run_pure, hid]
    show Effect.run (entryAt Tables.literals
      (if 0 < l then l.natAbs - 1 else s.varCount + l.natAbs - 1)) s.tables = _
    rw [hi]
    unfold entryAt
    rw [run_bind, run_get]
    simp [tables, hlt]
  · have hout : l = 0 ∨ s.varCount < l.natAbs := by omega
    simp only
    rw [if_neg hl, if_pos hout, run_bind, run_throw]
    rfl

theorem run_withWeights {ws : List W} {f : Theta W → Effect W NodeId}
    {make : Theta W → Except Fault NodeId × Store W}
    (h : ∀ θ, (f θ).run s.tables = tabled (make θ)) :
    (answer (Theta.ofWeights ws) >>= f).run s.tables = tabled (s.withWeights ws make) := by
  unfold withWeights
  rw [run_bind, run_answer]
  cases Theta.ofWeights ws with
  | error e => rfl
  | ok θ => exact h θ

/-- What a construction does to a store it does to the tables of the store. -/
theorem run_act (s : Store W) (c : Construction W) : c.act.run s.tables = tabled (c.perform s) := by
  cases c with
  | literal value => exact run_literal value
  | var word => exact run_literal _
  | lookup es v => exact run_lookup es v
  | newTop x ws => exact run_withWeights (run_newTop x)
  | newDecision es v ws => exact run_withWeights (run_newDecision es v)

/-- A store is what its tables are. -/
theorem tables_injective {s s' : Store W} (h : s.tables = s'.tables) : s = s' := by
  obtain ⟨v, entries, unique⟩ := s
  obtain ⟨v', entries', unique'⟩ := s'
  obtain ⟨rfl, hnodes, hflags, rfl, -⟩ := Tables.mk.inj h
  have hentries : entries = entries' := by
    apply Array.ext_getElem?
    intro i
    have hnode := congrArg (·[i]?) hnodes
    have hflag := congrArg (·[i]?) hflags
    simp only [Array.getElem?_map] at hnode hflag
    cases hi : entries[i]? with
    | none =>
      rw [hi, Option.map_none] at hnode
      exact (Option.map_eq_none_iff.1 hnode.symm).symm
    | some e =>
      cases hi' : entries'[i]? with
      | none => simp [hi, hi'] at hnode
      | some e' =>
        obtain ⟨n, b⟩ := e
        obtain ⟨n', b'⟩ := e'
        rw [hi, hi'] at hnode hflag
        simp only [Option.map_some, Option.some_inj] at hnode hflag
        rw [hnode, hflag]
  rw [hentries]

end Store
end Sentential
