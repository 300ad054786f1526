import Mathlib.Data.List.ReduceOption
import Sentential.Proofs.Outcome
import Sentential.Proofs.Walk.PostOrder

/-!
# The loop behind a walk

`Indexing.run` is a loop over a stack of tasks. Its rounds are taken apart here, without its fuel: a
`Round` works one task off, and `Rounds` keep a log of the nodes that they expand. The stack may hold
a node many times, to be visited and to be completed.

* `run_eq_ok_iff`: the loop comes to an end within its fuel if and only if there are that many
  rounds to the end, and there is only one way for them to go (`Rounds.sublog`);
* `Walks.rounds`: where there is a recursive walk the rounds follow it and expand what it lists;
* `Rounds.settled`: whatever the nodes refer to, a node gets its number when those below it have
  theirs (`Round.orderly`), and at its end the loop has numbered the root;
* `foldlM_postOrder`: the recursion that the loop stands for, as a program, lists the walk.
-/

namespace Sentential.Indexing

variable {elements : NodeId → Except Fault (List Element)} {tasks tasks' tasks₁ : List Task}
  {ix ix' ix₁ : Indexing} {log log' : List (Option NodeId)} {o o' : Option NodeId}
  {todo seen order : List NodeId} {id root : NodeId}

/-! ## Rounds -/

/-- One round takes the first task from the stack. A task for a node that has its number is dropped,
a completion gives a node its number, and a visit expands a node: it asks for its elements. -/
inductive Round (elements : NodeId → Except Fault (List Element)) :
    List Task → Indexing → Option NodeId → List Task → Indexing → Prop
  | drop {task : Task} {tasks : List Task} {ix : Indexing} :
      ix.positions.contains task.id = true → Round elements (task :: tasks) ix none tasks ix
  | finish {id : NodeId} {tasks : List Task} {ix : Indexing} :
      ¬ ix.positions.contains id = true →
      Round elements (.finish id :: tasks) ix none tasks (ix.push id)
  | expand {id : NodeId} {es : List Element} {tasks : List Task} {ix : Indexing} :
      ¬ ix.positions.contains id = true → elements id = .ok es →
      Round elements (.visit id :: tasks) ix (some id) (visits es ++ .finish id :: tasks) ix

/-- Rounds, one after the other. The log has an entry for each, with the node that it expands. -/
inductive Rounds (elements : NodeId → Except Fault (List Element)) :
    List Task → Indexing → List (Option NodeId) → List Task → Indexing → Prop
  | nil (tasks : List Task) (ix : Indexing) : Rounds elements tasks ix [] tasks ix
  | cons {tasks tasks₁ tasks' : List Task} {ix ix₁ ix' : Indexing} {o : Option NodeId}
      {log : List (Option NodeId)} : Round elements tasks ix o tasks₁ ix₁ →
      Rounds elements tasks₁ ix₁ log tasks' ix' → Rounds elements tasks ix (o :: log) tasks' ix'

theorem Rounds.append (h : Rounds elements tasks ix log tasks₁ ix₁)
    (h' : Rounds elements tasks₁ ix₁ log' tasks' ix') :
    Rounds elements tasks ix (log ++ log') tasks' ix' := by
  induction h with
  | nil => exact h'
  | cons hround _ ih => exact .cons hround (ih h')

/-- A round can go in one way only. -/
theorem Round.unique (h : Round elements tasks ix o tasks₁ ix₁)
    (h' : Round elements tasks ix o' tasks' ix') : o' = o ∧ tasks' = tasks₁ ∧ ix' = ix₁ := by
  cases h with
  | drop hold =>
    cases h' with
    | drop _ => exact ⟨rfl, rfl, rfl⟩
    | finish hnew => exact absurd hold hnew
    | expand hnew _ => exact absurd hold hnew
  | finish hnew =>
    cases h' with
    | drop hold => exact absurd hold hnew
    | finish _ => exact ⟨rfl, rfl, rfl⟩
  | expand hnew hes =>
    cases h' with
    | drop hold => exact absurd hold hnew
    | expand _ hes' =>
      obtain rfl := Except.ok.inj (hes.symm.trans hes')
      exact ⟨rfl, rfl, rfl⟩

/-- If some rounds empty the stack, all others from the same start are the first of these. -/
theorem Rounds.sublog (h : Rounds elements tasks ix log [] ix')
    (h' : Rounds elements tasks ix log' tasks' ix₁) : log' <+: log := by
  induction h' generalizing log with
  | nil => exact ⟨log, rfl⟩
  | cons hround' _ ih =>
    cases h with
    | nil => cases hround'
    | cons hround hrest =>
      obtain ⟨rfl, rfl, rfl⟩ := hround.unique hround'
      exact List.cons_prefix_cons.2 ⟨rfl, ih hrest⟩

/-- All rounds that empty the stack from the same start have the same result. -/
theorem Rounds.functional (h : Rounds elements tasks ix log [] ix')
    (h' : Rounds elements tasks ix log' [] ix₁) : ix' = ix₁ := by
  induction log generalizing log' tasks ix with
  | nil =>
    cases h
    cases h' with
    | nil => rfl
    | cons hround' _ => cases hround'
  | cons o log ih =>
    cases h with
    | cons hround hrest =>
      cases h' with
      | nil => cases hround
      | cons hround' hrest' =>
        obtain ⟨rfl, rfl, rfl⟩ := hround.unique hround'
        exact ih hrest hrest'

/-! ## The loop -/

theorem Round.run_eq (h : Round elements tasks ix o tasks' ix') (fuel : Nat) :
    run elements (fuel + 1) tasks ix = run elements fuel tasks' ix' := by
  cases h with
  | drop hold =>
    rw [run.eq_def]
    exact if_pos hold
  | finish hnew =>
    rw [run]
    exact if_neg hnew
  | expand hnew hes =>
    rw [run]
    simp only [hes]
    exact if_neg hnew

/-- Each round takes one unit of fuel. -/
theorem Rounds.run_eq (h : Rounds elements tasks ix log tasks' ix') (fuel : Nat) :
    run elements (log.length + fuel) tasks ix = run elements fuel tasks' ix' := by
  induction h with
  | nil => rw [List.length_nil, Nat.zero_add]
  | cons hround _ ih =>
    rw [List.length_cons, Nat.add_right_comm, hround.run_eq]
    exact ih

/-- If the loop comes to an end, its first round can be gone. -/
theorem exists_round_of_run {task : Task} {fuel : Nat}
    (h : run elements fuel (task :: tasks) ix = .ok ix') : ∃ fuel' o tasks₁ ix₁,
    fuel = fuel' + 1 ∧ Round elements (task :: tasks) ix o tasks₁ ix₁ := by
  cases fuel with
  | zero => exact absurd h (by simp [run])
  | succ fuel =>
    by_cases hold : ix.positions.contains task.id = true
    · exact ⟨fuel, _, _, _, rfl, .drop hold⟩
    · cases task with
      | finish id => exact ⟨fuel, _, _, _, rfl, .finish hold⟩
      | visit id =>
        cases hes : elements id with
        | error e =>
          rw [run, if_neg hold] at h
          simp only [hes] at h
          exact absurd h (by simp)
        | ok es => exact ⟨fuel, _, _, _, rfl, .expand hold hes⟩

/-- The loop comes to an end if it does so in at most as many rounds as it has fuel. -/
theorem run_eq_ok_iff {fuel : Nat} : run elements fuel tasks ix = .ok ix' ↔
    ∃ log, Rounds elements tasks ix log [] ix' ∧ log.length ≤ fuel := by
  constructor
  · intro h
    induction fuel generalizing tasks ix with
    | zero =>
      cases tasks with
      | nil =>
        obtain rfl : ix = ix' := Except.ok.inj h
        exact ⟨[], .nil _ _, Nat.le_refl _⟩
      | cons task tasks => exact absurd h (by simp [run])
    | succ fuel ih =>
      cases tasks with
      | nil =>
        obtain rfl : ix = ix' := Except.ok.inj h
        exact ⟨[], .nil _ _, Nat.zero_le _⟩
      | cons task tasks =>
        obtain ⟨fuel', o, tasks₁, ix₁, hfuel, hround⟩ := exists_round_of_run h
        rw [hround.run_eq fuel] at h
        obtain ⟨log, hrounds, hlen⟩ := ih h
        exact ⟨o :: log, .cons hround hrounds, Nat.succ_le_succ hlen⟩
  · rintro ⟨log, hrounds, hlen⟩
    obtain ⟨spare, rfl⟩ := Nat.exists_eq_add_of_le hlen
    rw [hrounds.run_eq]
    cases spare <;> rfl

/-! ## Rounds along a walk -/

/-- The rounds follow the recursive walk: they expand each node that it lists, in some order, and
are as many as there are visits to do and tasks of the nodes listed. -/
theorem Walks.rounds (h : Walks elements todo seen order) : ∃ added log, order = seen ++ added ∧
    log.reduceOption.Perm added ∧ log.length = todo.length + tasksOf elements added ∧
    ∀ tasks, Rounds elements (todo.map Task.visit ++ tasks) (ofList seen) log tasks
      (ofList order) := by
  induction h with
  | done seen =>
    exact ⟨[], [], (List.append_nil seen).symm, .nil, by simp [tasksOf], fun tasks => .nil _ _⟩
  | @skip id todo seen order hid _ ih =>
    obtain ⟨added, log, rfl, hperm, hlen, hrounds⟩ := ih
    refine ⟨added, none :: log, rfl, hperm, ?_, fun tasks => ?_⟩
    · rw [List.length_cons, List.length_cons, hlen]
      omega
    · exact .cons (.drop ((contains_ofList seen id).2 hid)) (hrounds tasks)
  | @enter id es todo seen inner order hid hes _ hnot _ ihin ih =>
    obtain ⟨inside, login, rfl, hpermin, hlenin, hroundsin⟩ := ihin
    obtain ⟨rest, log, rfl, hperm, hlen, hrounds⟩ := ih
    refine ⟨inside ++ [id] ++ rest, some id :: (login ++ none :: log), by simp, ?_, ?_,
      fun tasks => ?_⟩
    · -- the node is expanded before those below it, and listed behind them
      have hlog : (some id :: (login ++ none :: log)).reduceOption
          = id :: (login.reduceOption ++ log.reduceOption) := by
        rw [List.reduceOption_cons_of_some, List.reduceOption_append,
          List.reduceOption_cons_of_none]
      rw [hlog, List.append_assoc, List.singleton_append]
      exact ((hpermin.append hperm).cons id).trans List.perm_middle.symm
    · rw [List.length_cons, List.length_append, List.length_cons, hlenin, hlen, List.length_cons,
        length_nodesBelow, tasksOf_append, tasksOf_append, tasksOf_singleton hes]
      omega
    · have hexpand : ¬ (ofList seen).positions.contains id = true :=
        fun h => hid ((contains_ofList seen id).1 h)
      have hfinish : ¬ (ofList (seen ++ inside)).positions.contains id = true :=
        fun h => hnot ((contains_ofList (seen ++ inside) id).1 h)
      have hvisited := hroundsin (.finish id :: (todo.map Task.visit ++ tasks))
      rw [← visits_eq] at hvisited
      have hfinished : Round elements (.finish id :: (todo.map Task.visit ++ tasks))
          (ofList (seen ++ inside)) none (todo.map Task.visit ++ tasks)
          (ofList (seen ++ inside ++ [id])) := by
        rw [ofList_concat]
        exact .finish hfinish
      exact .cons (.expand hexpand hes) (hvisited.append (.cons hfinished (hrounds tasks)))

/-- With fuel for all tasks of the nodes that are listed, a walk from one node succeeds. -/
theorem run_root (h : Walks elements [root] [] order) {fuel : Nat}
    (hfuel : 1 + tasksOf elements order ≤ fuel) :
    run elements fuel [.visit root] empty = .ok (ofList order) := by
  obtain ⟨added, log, rfl, -, hlen, hrounds⟩ := h.rounds
  refine run_eq_ok_iff.2 ⟨log, hrounds [], ?_⟩
  rw [hlen]
  exact hfuel

/-! ## What the loop numbers -/

/-- The node has its number, or a task for it is on the stack. -/
def Awaits (tasks : List Task) (order : List NodeId) (id : NodeId) : Prop :=
  id ∈ order ∨ id ∈ tasks.map Task.id

/-- In the middle of the loop: the nodes below a numbered one have their numbers before it, and the
nodes below one that is to be completed have theirs or have their task further up the stack. -/
structure Orderly (elements : NodeId → Except Fault (List Element)) (tasks : List Task)
    (order : List NodeId) : Prop where
  settled : Settled elements order
  nodup : order.Nodup
  pending : ∀ above id below, tasks = above ++ .finish id :: below →
    ∃ es, elements id = .ok es ∧ ∀ x ∈ nodesBelow es, Awaits above order x

theorem map_id_visits (es : List Element) : (visits es).map Task.id = nodesBelow es := by
  rw [visits_eq, List.map_map]
  exact List.map_id _

/-- A task may go once its node has a number. -/
theorem Awaits.tail {task : Task} {order' : List NodeId} {x : NodeId}
    (h : Awaits (task :: tasks) order x) (hsub : order ⊆ order') (htask : task.id ∈ order') :
    Awaits tasks order' x := by
  rcases h with hx | hx
  · exact Or.inl (hsub hx)
  · rcases List.mem_cons.1 hx with rfl | hx
    · exact Or.inl htask
    · exact Or.inr hx

/-- A node that is expanded keeps a task, that of its completion. -/
theorem Awaits.expand {x : NodeId} (h : Awaits (.visit id :: tasks) order x)
    (above : List Task) : Awaits (above ++ .finish id :: tasks) order x := by
  refine h.imp_right fun hx => ?_
  rw [List.map_append, List.mem_append]
  exact Or.inr hx

/-- A completion on a stack that begins with visits stands behind these. -/
theorem eq_of_visits_append {es : List Element} {id' : NodeId} {above below : List Task}
    (h : visits es ++ .finish id :: tasks = above ++ .finish id' :: below) :
    (above = visits es ∧ id' = id) ∨
      ∃ between, above = visits es ++ .finish id :: between ∧
        tasks = between ++ .finish id' :: below := by
  rcases List.append_eq_append_iff.1 h with ⟨between, habove, hrest⟩ | ⟨between, hvisits, hrest⟩
  · cases between with
    | nil =>
      obtain ⟨hid, -⟩ := List.cons_eq_cons.1 hrest
      rw [List.append_nil] at habove
      exact Or.inl ⟨habove, (Task.finish.inj hid).symm⟩
    | cons task between =>
      obtain ⟨rfl, hbelow⟩ := List.cons_eq_cons.1 hrest
      exact Or.inr ⟨between, habove, hbelow⟩
  · cases between with
    | nil =>
      obtain ⟨hid, -⟩ := List.cons_eq_cons.1 hrest
      rw [List.append_nil] at hvisits
      exact Or.inl ⟨hvisits.symm, Task.finish.inj hid⟩
    | cons task between =>
      obtain ⟨rfl, -⟩ := List.cons_eq_cons.1 hrest
      rw [visits_eq] at hvisits
      have hmem : Task.finish id' ∈ (nodesBelow es).map Task.visit := by simp [hvisits]
      exact absurd hmem (by simp)

/-- One round keeps the order, and nothing that is to be numbered gets lost. -/
theorem Round.orderly (h : Round elements tasks (ofList order) o tasks' ix')
    (ho : Orderly elements tasks order) : ∃ order', ix' = ofList order' ∧
      Orderly elements tasks' order' ∧ ∀ x, Awaits tasks order x → Awaits tasks' order' x := by
  cases h with
  | @drop task _ _ hold =>
    have hmem : task.id ∈ order := (contains_ofList order task.id).1 hold
    have htail : ∀ tasks x, Awaits (task :: tasks) order x → Awaits tasks order x :=
      fun _ _ hx => hx.tail (List.Subset.refl order) hmem
    refine ⟨order, rfl, ⟨ho.settled, ho.nodup, fun above id below heq => ?_⟩, htail _⟩
    obtain ⟨es, hes, hbelow⟩ := ho.pending (task :: above) id below (congrArg _ heq)
    exact ⟨es, hes, fun x hx => htail above x (hbelow x hx)⟩
  | @finish id _ _ hnew =>
    have hnot : id ∉ order := fun h => hnew ((contains_ofList order id).2 h)
    have htail : ∀ tasks x, Awaits (.finish id :: tasks) order x →
        Awaits tasks (order ++ [id]) x := fun _ _ hx =>
      hx.tail (List.subset_append_left order [id])
        (List.mem_append_right _ (List.mem_singleton_self id))
    -- nothing stands above the completion, so the nodes below have their numbers
    obtain ⟨es, hes, hbelow⟩ := ho.pending [] id tasks' rfl
    have hsettled := ho.settled.concat hes fun x hx => (hbelow x hx).resolve_right (by simp)
    have hnodup : (order ++ [id]).Nodup :=
      List.nodup_append_comm.1 (List.nodup_cons.2 ⟨hnot, ho.nodup⟩)
    refine ⟨order ++ [id], (ofList_concat order id).symm,
      ⟨hsettled, hnodup, fun above id' below heq => ?_⟩, htail _⟩
    obtain ⟨es', hes', hbelow'⟩ := ho.pending (.finish id :: above) id' below (congrArg _ heq)
    exact ⟨es', hes', fun x hx => htail above x (hbelow' x hx)⟩
  | @expand id es _ _ hnew hes =>
    refine ⟨order, rfl, ⟨ho.settled, ho.nodup, fun above id' below heq => ?_⟩,
      fun x hx => hx.expand (visits es)⟩
    -- the completion in question is that of the expanded node or one further down
    rcases eq_of_visits_append heq with ⟨rfl, rfl⟩ | ⟨between, rfl, htasks⟩
    · refine ⟨es, hes, fun x hx => Or.inr ?_⟩
      rwa [map_id_visits]
    · obtain ⟨es', hes', hbelow⟩ := ho.pending (.visit id :: between) id' below (congrArg _ htasks)
      exact ⟨es', hes', fun x hx => (hbelow x hx).expand (visits es)⟩

theorem Rounds.orderly (h : Rounds elements tasks (ofList order) log tasks' ix')
    (ho : Orderly elements tasks order) : ∃ order', ix' = ofList order' ∧
      Orderly elements tasks' order' ∧ ∀ x, Awaits tasks order x → Awaits tasks' order' x := by
  induction log generalizing tasks order with
  | nil =>
    cases h
    exact ⟨order, rfl, ho, fun x hx => hx⟩
  | cons o log ih =>
    cases h with
    | cons hround hrest =>
      obtain ⟨order₁, rfl, ho₁, hawaits₁⟩ := hround.orderly ho
      obtain ⟨order', rfl, ho', hawaits'⟩ := ih hrest ho₁
      exact ⟨order', rfl, ho', fun x hx => hawaits' x (hawaits₁ x hx)⟩

/-- At the end of the loop the root has its number, and every numbered node has one behind the nodes
below it. -/
theorem Rounds.settled (h : Rounds elements [.visit root] empty log [] ix) :
    ∃ order, ix = ofList order ∧ Settled elements order ∧ order.Nodup ∧ root ∈ order := by
  have hstart : Orderly elements [.visit root] [] := by
    refine ⟨settled_nil elements, List.nodup_nil, fun above id below heq => ?_⟩
    rcases List.singleton_eq_append_iff.1 heq with ⟨-, heq⟩ | ⟨-, heq⟩
    · exact absurd heq (by simp)
    · exact absurd heq (by simp)
  have hempty : Rounds elements [.visit root] (ofList []) log [] ix := h
  obtain ⟨order, rfl, ho, hawaits⟩ := hempty.orderly hstart
  exact ⟨order, rfl, ho.settled, ho.nodup, (hawaits root (Or.inr (by simp [Task.id]))).resolve_right
    (by simp)⟩

/-! ## The recursion -/

/-- The recursion that the loop stands for: a node that has been listed is passed over, another one
is listed behind the nodes below it. The depth of the calls is bounded. -/
def postOrder (elements : NodeId → Except Fault (List Element)) :
    Nat → List NodeId → NodeId → Except Fault (List NodeId)
  | 0, seen, id => if id ∈ seen then .ok seen else .error .endless
  | depth + 1, seen, id =>
    if id ∈ seen then .ok seen
    else do
      let es ← elements id
      let inner ← (nodesBelow es).foldlM (postOrder elements depth) seen
      return inner ++ [id]

theorem postOrder_of_mem {depth : Nat} (h : id ∈ seen) :
    postOrder elements depth seen id = .ok seen := by
  cases depth with
  | zero => exact if_pos h
  | succ depth => exact if_pos h

/-- Where the nodes below a node have a lower rank, calls nested as deep as the rank of the nodes to
visit list the walk. -/
theorem foldlM_postOrder (h : Walks elements todo seen order) (rank : NodeId → Nat)
    (hrank : ∀ id es, elements id = .ok es → ∀ x ∈ nodesBelow es, rank x < rank id) (depth : Nat)
    (hdepth : ∀ id ∈ todo, rank id < depth) :
    todo.foldlM (postOrder elements depth) seen = .ok order := by
  induction h generalizing depth with
  | done seen => rfl
  | skip hid _ ih =>
    rw [List.foldlM_cons, postOrder_of_mem hid]
    exact ih depth fun x hx => hdepth x (List.mem_cons_of_mem _ hx)
  | @enter id es todo seen inner order hid hes _ _ _ ihin ih =>
    have hlt := hdepth id List.mem_cons_self
    obtain ⟨depth, rfl⟩ := Nat.exists_eq_add_of_le' (Nat.lt_of_le_of_lt (Nat.zero_le _) hlt)
    have hinner := ihin depth fun x hx =>
      Nat.lt_of_lt_of_le (hrank id es hes x hx) (Nat.le_of_lt_succ hlt)
    have hnode : postOrder elements (depth + 1) seen id = .ok (inner ++ [id]) := by
      rw [postOrder, if_neg hid, hes, ok_bind, hinner, ok_bind]
      rfl
    rw [List.foldlM_cons, hnode]
    exact ih _ fun x hx => hdepth x (List.mem_cons_of_mem _ hx)

end Sentential.Indexing
