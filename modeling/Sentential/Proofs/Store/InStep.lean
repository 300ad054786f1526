import Sentential.Proofs.Store.History
import Sentential.Proofs.Store.Tables

/-!
# Tables that are in step

The tables of a store are written one after the other, so that they fit together is something that
every operation has to see to. `Tables.InStep` says how the flags and the literals fit to the nodes:
there is a flag for every node and none besides, and the table of literals has at every place the
node of that literal, while no node behind the first ones is a literal. It is true of the tables
that a store begins with, whose literals are put down one by one (`Tables.inStep_ofVtree`), and
every operation keeps it, whatever it is given and whether or not it is refused
(`Construction.keeps_inStep`).

The tables that constructions lead to are those of the stores that calls lead to
(`Tables.made_iff`). A reader calls the same operations, so it leads nowhere else.
-/

namespace Sentential

variable {W : Type} [Weight W] {α β : Type}

/-! ## What a computation keeps -/

namespace Effect

variable {p : Tables W → Prop}

/-- The computation keeps a property of the tables, whether it is refused or not. -/
def Keeps (p : Tables W → Prop) (a : Effect W α) : Prop := ∀ t, p t → p (a.run t).2

theorem Looks.keeps {a : Effect W α} (ha : Looks a) : Keeps p a := by
  intro t ht
  obtain ⟨r, hr⟩ := ha t
  rw [hr]
  exact ht

theorem Keeps.bind {a : Effect W α} {f : α → Effect W β} (ha : Keeps p a)
    (hf : ∀ x, Keeps p (f x)) : Keeps p (a >>= f) := by
  intro t ht
  have hnext := ha t ht
  rw [run_bind]
  rcases hr : a.run t with ⟨e | x, t'⟩ <;> rw [hr] at hnext
  · exact hnext
  · exact hf x t' hnext

theorem keeps_modify {f : Tables W → Tables W} (hf : ∀ t, p t → p (f t)) :
    Keeps p (modify f : Effect W PUnit) := hf

end Effect

/-! ## The tables that a store begins with -/

namespace Tables

/-- Puts the node of a literal behind the other nodes, and its id behind those of the other
literals. -/
def addLiteral (t : Tables W) (l : Literal) : Tables W :=
  { t with literals := t.literals.push ⟨t.nodes.size⟩, nodes := t.nodes.push ⟨.literal l, none⟩ }

/-- The tables of a store without made nodes: the terminals, then one literal after the other, and in
the end the flags, of which one is set. -/
def ofVtree (v : Vtree) : Tables W :=
  let t := (Store.literals v.numVars).foldl addLiteral
    ⟨v, #[⟨.bottom, none⟩, ⟨.top none, none⟩], #[], ∅, #[]⟩
  { t with flags := (Array.replicate t.nodes.size false).setIfInBounds NodeId.bottom.raw true }

theorem foldl_addLiteral (ls : List Literal) (t : Tables W) : ls.foldl addLiteral t =
    { t with
      nodes := t.nodes ++ (ls.map fun l => (⟨.literal l, none⟩ : Node W)).toArray
      literals := t.literals ++
        ((List.range ls.length).map fun i => (⟨t.nodes.size + i⟩ : NodeId)).toArray } := by
  induction ls generalizing t with
  | nil => simp
  | cons l ls ih =>
    rw [List.foldl_cons, ih, List.length_cons, List.range_succ_eq_map]
    simp [addLiteral, Function.comp_def, Nat.add_assoc, Nat.add_comm 1]

/-- The tables of a new store are written in one go or literal by literal. -/
theorem tables_ofVtree (v : Vtree) : (Store.ofVtree v : Store W).tables = ofVtree v := by
  have hlen := Store.length_literals v.numVars
  have hflags : (Store.ofVtree v : Store W).entries.map Entry.isFalse
      = (Array.replicate (2 + 2 * v.numVars) false).setIfInBounds 0 true := by
    rw [← List.toArray_replicate, List.setIfInBounds_toArray, Nat.add_comm 2, List.replicate_succ,
      List.set_cons_zero]
    simp [Store.ofVtree, Function.comp_def, hlen, List.replicate_succ]
  unfold ofVtree
  rw [foldl_addLiteral]
  unfold Store.tables
  rw [hflags]
  simp [Store.ofVtree, Store.varCount, hlen, Function.comp_def, NodeId.bottom, Nat.add_comm 2]

/-! ## The invariant -/

/-- The flags and the literals fit to the nodes. -/
structure InStep (t : Tables W) : Prop where
  /-- There is one flag for each node. -/
  flags : t.flags.size = t.nodes.size
  literals : t.literals.size = 2 * t.vtree.numVars
  /-- The literals have their nodes behind the two terminals, in the order of the table. -/
  place : ∀ (i : Nat) (l : Literal), (Store.literals t.vtree.numVars)[i]? = some l →
    t.literals[i]? = some ⟨i + 2⟩ ∧ t.nodes[i + 2]? = some ⟨.literal l, none⟩
  /-- No other node is a literal. -/
  first : ∀ (i : Nat) (n : Node W) (l : Literal), t.nodes[i]? = some n → n.kind = .literal l →
    2 ≤ i ∧ i < 2 * t.vtree.numVars + 2

theorem inStep_ofVtree (v : Vtree) : (ofVtree v : Tables W).InStep := by
  have hlen := Store.length_literals v.numVars
  unfold ofVtree
  rw [foldl_addLiteral]
  constructor
  case flags => simp
  case literals => simp [hlen]
  case place =>
    intro i l hl
    have hlt : i < 2 * v.numVars := by
      rw [← hlen]
      exact (List.getElem?_eq_some_iff.1 hl).1
    have hl : (Store.literals v.numVars)[i]? = some l := hl
    constructor
    · simp [hlen, hlt, Nat.add_comm 2]
    · simp [hl]
  case first =>
    intro i n l hn hkind
    match i with
    | 0 =>
      obtain rfl : ⟨.bottom, none⟩ = n := by simpa using hn
      exact absurd hkind (by simp)
    | 1 =>
      obtain rfl : ⟨.top none, none⟩ = n := by simpa using hn
      exact absurd hkind (by simp)
    | i + 2 =>
      have hget : ((Store.literals v.numVars).map fun l => (⟨.literal l, none⟩ : Node W))[i]?
          = some n := by simpa using hn
      have hlt := (List.getElem?_eq_some_iff.1 hget).1
      rw [List.length_map, hlen] at hlt
      show 2 ≤ i + 2 ∧ i + 2 < 2 * v.numVars + 2
      omega

/-! ## Operations keep it -/

namespace InStep

variable {t : Tables W} (h : t.InStep)
include h

theorem push {n : Node W} (hkind : ∀ l, n.kind ≠ .literal l) (b : Bool) :
    ({ t with nodes := t.nodes.push n, flags := t.flags.push b } : Tables W).InStep := by
  constructor
  case flags =>
    show (t.flags.push b).size = (t.nodes.push n).size
    rw [Array.size_push, Array.size_push, h.flags]
  case literals => exact h.literals
  case place =>
    intro i l hl
    obtain ⟨hid, hnode⟩ := h.place i l hl
    refine ⟨hid, ?_⟩
    have hlt := (Array.getElem?_eq_some_iff.1 hnode).1
    show (t.nodes.push n)[i + 2]? = _
    rw [Array.getElem?_push, if_neg (Nat.ne_of_lt hlt)]
    exact hnode
  case first =>
    intro i m l hm hl
    have hm : (t.nodes.push n)[i]? = some m := hm
    rw [Array.getElem?_push] at hm
    split at hm
    · obtain rfl := Option.some_inj.1 hm
      exact absurd hl (hkind l)
    · exact h.first i m l hm hl

omit h in
/-- The place of a literal among the literals, as it is computed from its value. -/
theorem getElem?_literals_place {n : Nat} {l : Literal} (hl : l.var ≤ n) :
    (Store.literals n)[if 0 < l.value then l.value.natAbs - 1 else n + l.value.natAbs - 1]?
      = some l := by
  have hnonzero := l.nonzero
  have hvar : l.value.natAbs ≤ n := hl
  rw [Store.getElem?_literals]
  split <;> omega

/-- Asking for a literal finds its node, which is the only one that the tables have for it. -/
theorem run_literal {l : Literal} {id : NodeId} :
    (Effect.literal l.value).run t = (.ok id, t) ↔ t.nodes[id.raw]? = some ⟨.literal l, none⟩ := by
  have hrun : l.var ≤ t.vtree.numVars → ∃ i, (Store.literals t.vtree.numVars)[i]? = some l ∧
      (Effect.literal l.value).run t = (.ok ⟨i + 2⟩, t) := by
    intro hl
    have hget := getElem?_literals_place hl
    refine ⟨_, hget, ?_⟩
    have hin : l.value ≠ 0 ∧ l.value.natAbs ≤ t.vtree.numVars := ⟨l.nonzero, hl⟩
    unfold Effect.literal Effect.insist Effect.entryAt
    simp only [Effect.run_bind, Effect.run_get, if_pos hin, Effect.run_pure, (h.place _ l hget).1]
  constructor
  · intro hfound
    by_cases hl : l.var ≤ t.vtree.numVars
    · obtain ⟨i, hget, hanswer⟩ := hrun hl
      rw [hanswer, Prod.mk.injEq, Except.ok.injEq] at hfound
      rw [← hfound.1]
      exact (h.place i l hget).2
    · have hout : ¬ (l.value ≠ 0 ∧ l.value.natAbs ≤ t.vtree.numVars) := fun hin => hl hin.2
      unfold Effect.literal Effect.insist at hfound
      simp [Effect.run_bind, Effect.run_get, if_neg hout] at hfound
  · intro hnode
    obtain ⟨hle, hlt⟩ := h.first _ _ l hnode rfl
    have hlen : (Store.literals t.vtree.numVars).length = 2 * t.vtree.numVars :=
      Store.length_literals _
    obtain ⟨l', hl'⟩ : ∃ l', (Store.literals t.vtree.numVars)[id.raw - 2]? = some l' :=
      ⟨_, List.getElem?_eq_getElem (by omega)⟩
    -- the literal that belongs at this place is the one that is there
    have hthere := (h.place _ l' hl').2
    rw [Nat.sub_add_cancel hle, hnode, Option.some_inj, Node.mk.injEq, Kind.literal.injEq] at hthere
    obtain rfl := hthere.1
    have hvalue := (Store.getElem?_literals _ _ _).1 hl'
    obtain ⟨i, hi, hanswer⟩ := hrun (by unfold Literal.var; omega)
    have hvalue' := (Store.getElem?_literals _ _ _).1 hi
    obtain rfl : id = ⟨i + 2⟩ := congrArg NodeId.mk (by omega)
    exact hanswer

end InStep

end Tables

namespace Effect

theorem keeps_push {n : Node W} (hkind : ∀ l, n.kind ≠ .literal l) :
    Keeps Tables.InStep (push n) := by
  refine (looks_neverHolds n.kind).keeps.bind fun b t ht => ?_
  rw [run_append]
  exact ht.push hkind b

theorem keeps_lookup (es : List Element) (v : VtreeId) :
    Keeps Tables.InStep (lookup es v : Effect W NodeId) := by
  refine (looks_expectFork v).keeps.bind fun _ => looks_get.keeps.bind fun t => ?_
  cases t.unique[(v, es)]? with
  | some id => exact (looks_pure id).keeps
  | none =>
    refine (keeps_push fun l => by simp).bind fun id => ?_
    exact (keeps_modify fun t ht => ⟨ht.flags, ht.literals, ht.place, ht.first⟩).bind fun _ =>
      (looks_pure id).keeps

theorem keeps_newTop (var : Nat) (θ : Theta W) : Keeps Tables.InStep (newTop var θ) :=
  (looks_insist _ _).keeps.bind fun _ => looks_get.keeps.bind fun _ =>
    (looks_answer _).keeps.bind fun _ => keeps_push fun l => by simp

theorem keeps_newDecision (es : List Element) (v : VtreeId) (θ : Theta W) :
    Keeps Tables.InStep (newDecision es v θ) :=
  (looks_insist _ _).keeps.bind fun _ => (looks_expectFork v).keeps.bind fun _ =>
    keeps_push fun l => by simp

end Effect

/-- A construction leaves the tables in step, whatever its arguments and its outcome. -/
theorem Construction.keeps_inStep (c : Construction W) : Effect.Keeps Tables.InStep c.act := by
  cases c with
  | literal value => exact (Effect.looks_literal value).keeps
  | var word => exact (Effect.looks_literal _).keeps
  | lookup es v => exact Effect.keeps_lookup es v
  | newTop x ws => exact (Effect.looks_answer _).keeps.bind fun θ => Effect.keeps_newTop x θ
  | newDecision es v ws =>
    exact (Effect.looks_answer _).keeps.bind fun θ => Effect.keeps_newDecision es v θ

/-! ## Every history -/

/-- The tables have come about through constructions with any arguments, some of which may have been
refused. -/
inductive Tables.Made : Tables W → Prop
  | start {v : Vtree} : v.Obtained → Made (ofVtree v)
  | act {t : Tables W} (c : Construction W) : Made t → Made (c.act.run t).2

/-- Tables that have come about through constructions are in step. -/
theorem Tables.Made.inStep {t : Tables W} (h : t.Made) : t.InStep := by
  induction h with
  | start _ => exact inStep_ofVtree _
  | act c _ ih => exact c.keeps_inStep _ ih

namespace Store

variable {s s' : Store W}

theorem Steps.made {allowed : Store W → List Element → Prop} (h : Steps allowed s s')
    (hs : s.tables.Made) : s'.tables.Made := by
  induction h with
  | refl => exact hs
  | @tail s₁ s₂ _ hstep ih =>
    obtain ⟨c, -, rfl⟩ := hstep.exists_construction
    have hnext := Tables.Made.act c ih
    rwa [run_act] at hnext

/-- The tables of a store have come about through constructions, also where texts were read. -/
theorem Reached.made (h : s.Reached) : s.tables.Made := by
  induction h with
  | @start v hv =>
    rw [Tables.tables_ofVtree]
    exact .start hv
  | call c hs _ ih => exact (Reached.sound hs).anySteps_perform c |>.made ih

end Store

/-- The tables that constructions lead to are those of the stores that calls lead to. -/
theorem Tables.made_iff {t : Tables W} : t.Made ↔ ∃ s : Store W, s.Reached ∧ s.tables = t := by
  constructor
  · intro h
    induction h with
    | @start v hv => exact ⟨_, .start hv, tables_ofVtree v⟩
    | act c _ ih =>
      obtain ⟨s, hs, rfl⟩ := ih
      exact ⟨(c.perform s).2, hs.construct c trivial, by rw [Store.run_act]; rfl⟩
  · rintro ⟨s, hs, rfl⟩
    exact hs.made

end Sentential
