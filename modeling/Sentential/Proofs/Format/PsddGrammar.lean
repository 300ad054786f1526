import Sentential.Proofs.Format.BuiltRows
import Sentential.Proofs.Format.Grammar
import Sentential.Proofs.Meaning.Marginalization

/-!
# The grammar of probabilistic diagram files

What a probabilistic diagram file is, in terms of its rows and of the vtree alone (`IsPsddFile`),
and what reading it does to a store (`Installed`): a new node for every row of a TRUE node and of a
decision, in the order of the rows, and nothing else. `Reached.readPsdd_iff_isPsddFile`: in any
state of a store the reader accepts exactly these files, and installs their rows.

The rows refer to each other by the numbers that they give. `Installed` therefore says which node
each number has been given to, and what is said of an element is said of the nodes of its numbers.
-/

namespace Sentential

open Format Text Indexing Vtree

/-! ## The grammar -/

/-- An element as a row writes it: the numbers of prime and sub, and the logarithm of the
weight. -/
structure PsddElement (W : Type) where
  prime : Nat
  sub : Nat
  log : W

/-- What a row describes. -/
inductive PsddItem (W : Type) where
  | bottom
  | literal (leaf : VtreeId) (l : Literal)
  | top (leaf : VtreeId) (log : W)
  | decision (v : VtreeId) (elements : List (PsddElement W))

namespace PsddItem

variable {W : Type}

/-- The vtree node that the node belongs to; the terminal belongs to none. -/
def place? : PsddItem W → Option VtreeId
  | bottom => none
  | literal leaf _ => some leaf
  | top leaf _ => some leaf
  | decision v _ => some v

/-- Whether a node is made for the row: terminals and literals are in every store. -/
def isMade : PsddItem W → Bool
  | bottom => false
  | literal .. => false
  | top .. => true
  | decision .. => true

end PsddItem

variable {W : Type} [Weight W]

/-- The number is that of an earlier row whose node belongs to the side or to no vtree node. -/
def SitsIn (earlier : List (Nat × PsddItem W)) (side : VtreeId) (i : Nat) : Prop :=
  ∃ x, (i, x) ∈ earlier ∧ ∀ v, x.place? = some v → v = side

/-- The fields are three for each element: the numbers of its prime and its sub, which sit at the
two sides, and the logarithm of its weight. -/
inductive AreWeighted (earlier : List (Nat × PsddItem W)) (left right : VtreeId) :
    List Field → List (PsddElement W) → Prop
  | nil : AreWeighted earlier left right [] []
  | cons {f g h : Field} {e : PsddElement W} {fs : List Field} {es : List (PsddElement W)} :
      readWord? f = some e.prime → SitsIn earlier left e.prime →
      readWord? g = some e.sub → SitsIn earlier right e.sub →
      Weight.read? h = some e.log → Weight.isLogProbability e.log = true →
      AreWeighted earlier left right fs es →
      AreWeighted earlier left right (f :: g :: h :: fs) (e :: es)

/-- The row gives a number to a node, which it describes with the numbers of the rows above. -/
inductive IsPsddRow (v : Vtree) (earlier : List (Nat × PsddItem W)) :
    List Field → Nat → PsddItem W → Prop
  | bottom {f : Field} {i : Nat} : readWord? f = some i → IsPsddRow v earlier [['F'], f] i .bottom
  | literal {f p g : Field} {i position : Nat} {l : Literal} :
      readWord? f = some i → readWord? p = some position →
      Decimal.readInteger? g = some l.value → l.var ≤ v.numVars →
      v.subtree? ⟨position⟩ = some (.leaf ⟨position⟩ l.var) →
      IsPsddRow v earlier [['L'], f, p, g] i (.literal ⟨position⟩ l)
  | top {f p x g : Field} {i position var : Nat} {log : W} :
      readWord? f = some i → readWord? p = some position → readWord? x = some var →
      1 ≤ var → var ≤ v.numVars → v.subtree? ⟨position⟩ = some (.leaf ⟨position⟩ var) →
      Weight.read? g = some log → Weight.isLogProbability log = true →
      IsPsddRow v earlier [['T'], f, p, x, g] i (.top ⟨position⟩ log)
  | decision {f p k : Field} {children : List Field} {i position : Nat} {fork : VtreeId}
      {left right : Tree} {es : List (PsddElement W)} :
      readWord? f = some i → readWord? p = some position →
      v.subtree? ⟨position⟩ = some (.fork fork left right) → readCount? k = some es.length →
      AreWeighted earlier left.id right.id children es →
      IsPsddRow v earlier (['D'] :: f :: p :: k :: children) i (.decision ⟨position⟩ es)

/-- The rows of a probabilistic diagram file, whose header may also be that of a diagram file, give
these numbers to nodes. -/
def IsPsddFile (v : Vtree) (rows : List (List Field)) (named : List (Nat × PsddItem W)) : Prop :=
  IsFile (IsPsddRow v) ["psdd".toList, "sdd".toList] rows named

theorem AreWeighted.isLogProbability {earlier : List (Nat × PsddItem W)} {left right : VtreeId}
    {fs : List Field} {es : List (PsddElement W)} (h : AreWeighted earlier left right fs es) :
    ∀ l ∈ es.map PsddElement.log, Weight.isLogProbability l = true := by
  induction h with
  | nil => simp
  | cons _ _ _ _ _ hlog _ ih =>
    rw [List.map_cons, List.forall_mem_cons]
    exact ⟨hlog, ih⟩

namespace Store

variable {s s' s₁ s₂ : Store W} {t : Slots NodeId} {r : Record} {n i : Nat} {a id : NodeId}
  {fs : List Field} {entries entries' : List (Nat × NodeId)} {named : List (Nat × PsddItem W)}
  {x : PsddItem W}

/-! ## What is installed -/

/-- All ids, ascending. -/
def nodeIds (s : Store W) : List NodeId := (List.range s.numNodes).map NodeId.mk

/-- The node that is described, where these numbers have been given to nodes: the one node that
every store has for a terminal or a literal, or a node with the exponentials of the logarithms as
its weights. -/
inductive IsNodeOf (s : Store W) (entries : List (Nat × NodeId)) : NodeId → PsddItem W → Prop
  | bottom {id : NodeId} : s.canonical? .bottom = some id → IsNodeOf s entries id .bottom
  | literal {id : NodeId} {leaf : VtreeId} {l : Literal} : s.canonical? (.literal l) = some id →
      s.vtree.leafOf l.var = .ok leaf → IsNodeOf s entries id (.literal leaf l)
  | top {id : NodeId} {leaf : VtreeId} {log : W} {θ : Theta W} {b : Bool} :
      s.entry id = .ok ⟨⟨.top (some leaf), some θ⟩, b⟩ →
      θ.weights = [Weight.complement (Weight.exp log), Weight.exp log] →
      IsNodeOf s entries id (.top leaf log)
  | decision {id v : _} {xs : List (PsddElement W)} {es : List Element} {θ : Theta W} {b : Bool} :
      s.entry id = .ok ⟨⟨.decision v es, some θ⟩, b⟩ →
      List.Forall₂ (fun x e => (x.prime, e.prime) ∈ entries ∧ (x.sub, e.sub) ∈ entries) xs es →
      θ.weights = xs.map (fun x => Weight.exp x.log) → IsNodeOf s entries id (.decision v xs)

/-- The nodes that have been made for rows, in the order of the rows. -/
def newNodes (entries : List (Nat × NodeId)) (named : List (Nat × PsddItem W)) : List NodeId :=
  ((entries.zip named).filter (·.2.2.isMade)).map (·.1.2)

/-- The rows have been installed in the store `s`: each number has been given to the node that its
row describes, the nodes that have been made are the new ones, and all else is as it was. -/
structure Installed (s s' : Store W) (entries : List (Nat × NodeId))
    (named : List (Nat × PsddItem W)) : Prop where
  extension : s.Extends s'
  unique : s'.unique = s.unique
  nodes : List.Forall₂ (fun e x => e.1 = x.1 ∧ s'.IsNodeOf entries e.2 x.2) entries named
  ids : s'.nodeIds = s.nodeIds ++ newNodes entries named

/-- One more row is installed. -/
structure Adds (s s' : Store W) (entries : List (Nat × NodeId)) (a : NodeId) (x : PsddItem W) :
    Prop where
  extension : s.Extends s'
  unique : s'.unique = s.unique
  node : s'.IsNodeOf entries a x
  ids : s'.nodeIds = s.nodeIds ++ if x.isMade then [a] else []

theorem nodeIds_make {m : Node W} {b : Bool} : (s.make m b).nodeIds = s.nodeIds ++ [⟨s.numNodes⟩] := by
  unfold nodeIds
  rw [numNodes_make, List.range_succ, List.map_append]
  rfl

omit [Weight W] in
theorem newNodes_concat (hlen : entries.length = named.length) :
    newNodes (entries ++ [(i, a)]) (named ++ [(i, x)])
      = newNodes entries named ++ if x.isMade then [a] else [] := by
  unfold newNodes
  rw [List.zip_append hlen, List.filter_append, List.map_append]
  cases hx : x.isMade <;> simp [hx]

namespace IsNodeOf

variable (h : s.IsNodeOf entries id x)
include h

theorem mono (hext : s.Extends s') (hsub : entries ⊆ entries') : s'.IsNodeOf entries' id x := by
  cases h with
  | bottom hid => exact .bottom hid
  | literal hid hleaf =>
    have hcount : s'.varCount = s.varCount := congrArg Vtree.numVars hext.vtree
    exact .literal ((literal?_congr hcount _).trans hid) (hext.vtree ▸ hleaf)
  | top he hθ => exact .top (hext.entry he) hθ
  | decision he hes hθ =>
    exact .decision (hext.entry he) (hes.imp fun _ _ hx => ⟨hsub hx.1, hsub hx.2⟩) hθ

theorem vtreeOf (hs : s.Sound) : s.vtreeOf id = .ok x.place? := by
  cases h with
  | bottom hid =>
    obtain ⟨b, he⟩ := hs.canonical?_eq_some.1 hid
    exact vtreeOf_bottom (kind_of_entry he)
  | literal hid hleaf =>
    obtain ⟨b, he⟩ := hs.canonical?_eq_some.1 hid
    exact vtreeOf_literal (kind_of_entry he) hleaf
  | top he => exact vtreeOf_top (kind_of_entry he)
  | decision he => exact vtreeOf_decision (kind_of_entry he)

theorem knows (hs : s.Sound) : s.Knows id := by
  exact knows_of_vtreeOf (h.vtreeOf hs)

theorem sitsAt_iff (hs : s.Sound) {side : VtreeId} :
    s.sitsAt side id = .ok true ↔ ∀ v, x.place? = some v → v = side := by
  unfold Store.sitsAt
  rw [h.vtreeOf hs, ok_bind]
  cases x.place? <;> simp

end IsNodeOf

theorem installed_nil (s : Store W) : s.Installed s [] [] :=
  ⟨.refl s, rfl, .nil, (List.append_nil _).symm⟩

theorem Installed.keys_eq (h : s.Installed s' entries named) :
    entries.map Prod.fst = named.map Prod.fst := by
  rw [← List.forall₂_eq_eq_eq, List.forall₂_map_left_iff, List.forall₂_map_right_iff]
  exact h.nodes.imp fun _ _ hx => hx.1

theorem Installed.concat (h : s.Installed s₁ entries named) (hadds : s₁.Adds s₂ entries a x) :
    s.Installed s₂ (entries ++ [(i, a)]) (named ++ [(i, x)]) := by
  have hsub : entries ⊆ entries ++ [(i, a)] := List.subset_append_left _ _
  constructor
  case extension => exact h.extension.trans hadds.extension
  case unique => exact hadds.unique.trans h.unique
  case nodes =>
    refine List.rel_append (h.nodes.imp fun _ _ hx => ⟨hx.1, hx.2.mono hadds.extension hsub⟩) ?_
    exact .cons ⟨rfl, hadds.node.mono (.refl s₂) hsub⟩ .nil
  case ids =>
    rw [hadds.ids, h.ids, newNodes_concat h.nodes.length_eq, List.append_assoc]

theorem adds_plain (hnode : s.IsNodeOf entries a x) (hx : x.isMade = false) :
    s.Adds s entries a x := ⟨.refl s, rfl, hnode, by simp [hx]⟩

theorem adds_make {k : Kind} {θ : Theta W} {b : Bool} (hx : x.isMade = true)
    (hnode : (s.make ⟨k, some θ⟩ b).IsNodeOf entries ⟨s.numNodes⟩ x) :
    s.Adds (s.make ⟨k, some θ⟩ b) entries ⟨s.numNodes⟩ x := by
  refine ⟨extends_make s _ _, ?_, hnode, by rw [nodeIds_make, hx]; rfl⟩
  show s.noted ⟨k, some θ⟩ = s.unique
  unfold noted
  split
  · next heq => exact absurd heq (by simp)
  · rfl

/-! ## Rows -/

/-- The element as a row writes it stands for the element of the nodes, with its weight. -/
def StandsFor (entries : List (Nat × NodeId)) (x : PsddElement W) (w : Element × W) : Prop :=
  ((x.prime, w.1.prime) ∈ entries ∧ (x.sub, w.1.sub) ∈ entries) ∧ Weight.exp x.log = w.2

theorem map_snd_of_standsFor {xs : List (PsddElement W)} {ws : List (Element × W)}
    (hall : List.Forall₂ (StandsFor entries) xs ws) :
    ws.map Prod.snd = xs.map fun x => Weight.exp x.log := by
  rw [eq_comm, ← List.forall₂_eq_eq_eq, List.forall₂_map_left_iff, List.forall₂_map_right_iff]
  exact hall.imp fun _ _ hx => hx.2

theorem isNodeOf_decision {v : VtreeId} {xs : List (PsddElement W)} {ys : List (Element × W)}
    {θ : Theta W} {b : Bool}
    (hall : List.Forall₂ (StandsFor entries) xs (ys.map fun y => (y.1, Weight.exp y.2)))
    (he : s.entry id = .ok ⟨⟨.decision v (ys.map Prod.fst), some θ⟩, b⟩)
    (hθ : θ.weights = ys.map fun y => Weight.exp y.2) : s.IsNodeOf entries id (.decision v xs) := by
  have hweights := map_snd_of_standsFor hall
  rw [List.map_map] at hweights
  refine .decision he (List.forall₂_map_right_iff.2 ?_) (hθ.trans hweights)
  exact (List.forall₂_map_right_iff.1 hall).imp fun _ _ hx => hx.1

section

variable (hs : s.Sound)
  (hnodes : List.Forall₂ (fun e x => e.1 = x.1 ∧ s.IsNodeOf entries e.2 x.2) entries named)
include hs hnodes

theorem knows_of_mem {k : Nat} (hmem : (k, id) ∈ entries) : s.Knows id := by
  obtain ⟨y, -, -, hy⟩ := exists_right_of_mem hnodes hmem
  exact hy.knows hs

/-- The number of a node that sits at a side is that of a row that does. -/
theorem sitsIn_of_mem {k : Nat} {side : VtreeId} (hmem : (k, id) ∈ entries)
    (hsits : s.sitsAt side id = .ok true) : SitsIn named side k := by
  obtain ⟨⟨k', y⟩, hy, rfl, hnode⟩ := exists_right_of_mem hnodes hmem
  exact ⟨y, hy, (hnode.sitsAt_iff hs).1 hsits⟩

theorem exists_node_of_sitsIn {k : Nat} {side : VtreeId} (h : SitsIn named side k) :
    ∃ id, (k, id) ∈ entries ∧ s.sitsAt side id = .ok true := by
  obtain ⟨y, hy, hside⟩ := h
  obtain ⟨⟨k', id⟩, hmem, rfl, hnode⟩ := exists_right_of_mem (List.Forall₂.flip hnodes) hy
  exact ⟨id, hmem, (hnode.sitsAt_iff hs).2 hside⟩

/-- The fields of weighted elements that sit at two sides are those of elements of the grammar. -/
theorem areWeighted_of_namesLogs {left right : VtreeId} {ys : List (Element × W)}
    (h : NamesLogs entries fs ys)
    (hsits : ∀ y ∈ ys, s.sitsAt left y.1.prime = .ok true ∧ s.sitsAt right y.1.sub = .ok true) :
    ∃ xs, AreWeighted named left right fs xs ∧
      List.Forall₂ (StandsFor entries) xs (ys.map fun y => (y.1, Weight.exp y.2)) := by
  induction h with
  | nil => exact ⟨[], .nil, .nil⟩
  | cons hprime hsub hread hlog _ ih =>
    obtain ⟨⟨hleft, hright⟩, hsits⟩ := List.forall_mem_cons.1 hsits
    obtain ⟨k, hreadf, hprime⟩ := hprime
    obtain ⟨m, hreadg, hsub⟩ := hsub
    obtain ⟨xs, hall, hfor⟩ := ih hsits
    exact ⟨⟨k, m, _⟩ :: xs, .cons hreadf (sitsIn_of_mem hs hnodes hprime hleft) hreadg
      (sitsIn_of_mem hs hnodes hsub hright) hread hlog hall, .cons ⟨⟨hprime, hsub⟩, rfl⟩ hfor⟩

/-- The fields of elements of the grammar are those of weighted elements that sit at the two
sides. -/
theorem namesLogs_of_areWeighted {left right : VtreeId} {xs : List (PsddElement W)}
    (h : AreWeighted named left right fs xs) : ∃ ys : List (Element × W), NamesLogs entries fs ys ∧
      (∀ y ∈ ys, s.sitsAt left y.1.prime = .ok true ∧ s.sitsAt right y.1.sub = .ok true) ∧
      ys.map Prod.snd = xs.map PsddElement.log ∧
      List.Forall₂ (StandsFor entries) xs (ys.map fun y => (y.1, Weight.exp y.2)) := by
  induction h with
  | nil => exact ⟨[], .nil, by simp, rfl, .nil⟩
  | @cons f g h e fs es hreadf hprime hreadg hsub hreadh hlog _ ih =>
    obtain ⟨p, hp, hleft⟩ := exists_node_of_sitsIn hs hnodes hprime
    obtain ⟨q, hq, hright⟩ := exists_node_of_sitsIn hs hnodes hsub
    obtain ⟨ys, hys, hsits, hlogs, hfor⟩ := ih
    exact ⟨(⟨p, q⟩, e.log) :: ys, .cons ⟨e.prime, hreadf, hp⟩ ⟨e.sub, hreadg, hq⟩ hreadh hlog hys,
      List.forall_mem_cons.2 ⟨⟨hleft, hright⟩, hsits⟩, congrArg (e.log :: ·) hlogs,
      .cons ⟨⟨hp, hq⟩, rfl⟩ hfor⟩

theorem knowsBelow_of_namesLogs {ys : List (Element × W)} (h : NamesLogs entries fs ys) :
    s.KnowsBelow (ys.map Prod.fst) := by
  induction h with
  | nil => exact knowsBelow_nil s
  | cons hprime hsub _ _ _ ih =>
    obtain ⟨_, -, hprime⟩ := hprime
    obtain ⟨_, -, hsub⟩ := hsub
    exact knowsBelow_cons.2 ⟨⟨knows_of_mem hs hnodes hprime, knows_of_mem hs hnodes hsub⟩, ih⟩

/-- The decision of a row is made, and the row is installed by that. -/
theorem adds_newDecision {position : Nat} {fork : VtreeId} {left right : Tree}
    {xs : List (PsddElement W)} {ys : List (Element × W)} {θ : Theta W}
    (hsub : s.vtree.subtree? ⟨position⟩ = some (.fork fork left right))
    (hall : NamesLogs entries fs ys)
    (hfor : List.Forall₂ (StandsFor entries) xs (ys.map fun y => (y.1, Weight.exp y.2)))
    (hθ : Theta.ofWeights (ys.map fun y => Weight.exp y.2) = .ok θ) :
    ∃ a s', s.newDecision (ys.map Prod.fst) ⟨position⟩ θ = (.ok a, s') ∧
      s.Adds s' entries a (.decision ⟨position⟩ xs) := by
  have hweights := ofWeights_eq_ok hθ
  have hlen : θ.length = (ys.map Prod.fst).length := by
    unfold Theta.length
    rw [hweights, List.length_map, List.length_map]
  have hflag := nonePositive_known (knowsBelow_of_namesLogs hs hnodes hall)
  exact ⟨_, _, newDecision_made ⟨fork, left, right, hsub⟩ hlen hflag,
    adds_make rfl (isNodeOf_decision hfor entry_make_self hweights)⟩

/-- What makes a node of a row says of the row that it is one of the grammar, and the row is
installed by that. -/
theorem PsddMakes.exists_isPsddRow (h : PsddMakes s entries fs i a s') :
    ∃ x, IsPsddRow s.vtree named fs i x ∧ s.Adds s' entries a x := by
  cases h with
  | bottom hread => exact ⟨.bottom, .bottom hread, adds_plain (.bottom rfl) rfl⟩
  | @literal _ _ _ _ position l _ hread hreadp hreadg hl hleaf =>
    exact ⟨.literal ⟨position⟩ l, .literal hread hreadp hreadg (exists_literal?.1 ⟨a, hl⟩).2
      (hs.vtree.leafOf_iff.1 hleaf), adds_plain (.literal hl hleaf) rfl⟩
  | @top _ _ _ _ _ position var log θ _ _ hread hreadp hready hreadg hlog hpos hle hleaf hθ hmake =>
    have hlen : θ.length = 2 := congrArg List.length (ofWeights_eq_ok hθ)
    obtain ⟨ha, rfl⟩ := Prod.mk.inj (hmake.symm.trans (newTop_made hleaf hlen))
    obtain rfl := Except.ok.inj ha
    exact ⟨.top ⟨position⟩ log, .top hread hreadp hready hpos hle (hs.vtree.leafOf_iff.1 hleaf)
      hreadg hlog, adds_make rfl (.top entry_make_self (ofWeights_eq_ok hθ))⟩
  | @decision _ _ _ _ _ position fork left right ys θ _ _ hread hreadp hsub hreadk _ hall hsits hθ
      hmake =>
    obtain ⟨xs, hxs, hfor⟩ := areWeighted_of_namesLogs hs hnodes hall fun y hy =>
      allElements_eq_true.1 hsits y.1 (List.mem_map_of_mem hy)
    have hlen : ys.length = xs.length := by rw [hfor.length_eq, List.length_map]
    obtain ⟨a', s₁, hmade, hadds⟩ := adds_newDecision hs hnodes hsub hall hfor hθ
    obtain ⟨ha, rfl⟩ := Prod.mk.inj (hmake.symm.trans hmade)
    obtain rfl := Except.ok.inj ha
    exact ⟨.decision ⟨position⟩ xs, .decision hread hreadp hsub (hlen ▸ hreadk) hxs, hadds⟩

/-- A row of the grammar makes a node, and is installed by that. -/
theorem exists_psddMakes (hexp : Weight.ExpProbability W) (h : IsPsddRow s.vtree named fs i x)
    (hlen : fs.length < Decimal.pow2 64) :
    ∃ a s', PsddMakes s entries fs i a s' ∧ s.Adds s' entries a x := by
  cases h with
  | bottom hread => exact ⟨.bottom, s, .bottom hread, adds_plain (.bottom rfl) rfl⟩
  | @literal _ _ _ _ _ l hread hreadp hreadg hle hleaf =>
    obtain ⟨a, hl⟩ : ∃ a, s.literal? l.value = some a := exists_literal?.2 ⟨l.nonzero, hle⟩
    have hleaf := hs.vtree.leafOf_iff.2 hleaf
    exact ⟨a, s, .literal hread hreadp hreadg hl hleaf, adds_plain (.literal hl hleaf) rfl⟩
  | top hread hreadp hready hpos hle hleaf hreadg hlog =>
    obtain ⟨θ, hθ, hweights⟩ := Theta.exists_bernoulli hexp hlog
    have hleaf := hs.vtree.leafOf_iff.2 hleaf
    exact ⟨_, _, .top hread hreadp hready hreadg hlog hpos hle hleaf hθ
      (newTop_made hleaf (congrArg List.length hweights)),
      adds_make rfl (.top entry_make_self hweights)⟩
  | @decision _ _ _ _ _ _ fork left right xs hread hreadp hsub hreadk hxs =>
    obtain ⟨ys, hall, hsits, hlogs, hfor⟩ := namesLogs_of_areWeighted hs hnodes hxs
    have hsits' : allElements (s.sitsAt left.id) (s.sitsAt right.id) (ys.map Prod.fst) = .ok true :=
      allElements_eq_true.2 (List.forall_mem_map.2 hsits)
    obtain ⟨θ, hθ, -⟩ := Theta.exists_ofWeights hexp hxs.isLogProbability
    rw [← hlogs, List.map_map] at hθ
    obtain ⟨a, s', hmake, hadds⟩ := adds_newDecision hs hnodes hsub hall hfor hθ
    have hcount : xs.length = ys.length := by rw [hfor.length_eq, List.length_map]
    have hfields := hall.length_eq
    simp only [List.length_cons] at hlen
    exact ⟨a, s', .decision hread hreadp hsub (hcount ▸ hreadk) (by omega) hall hsits' hθ hmake, hadds⟩

end

/-! ## Files -/

/-- The reader follows the grammar. -/
theorem follows_buildPsdd (hexp : Weight.ExpProbability W) (s : Store W) :
    Follows buildPsdd (IsPsddRow s.vtree) (fun fs => fs.length < Decimal.pow2 64)
      fun s' entries named => s'.Sound ∧ s.Installed s' entries named := by
  have hsound : ∀ {s₁ s₂ entries named t n r i a}, s₁.Sound → s.Installed s₁ entries named →
      t.Holds n entries → s₁.buildPsdd t r i = (.ok a, s₂) → s₂.Sound := by
    intro s₁ s₂ entries named t n r i a hs hinstalled ht hbuild
    have hknown := ht.all (p := s₁.Knows) fun e he => knows_of_mem hs hinstalled.nodes he
    have hsteps := (buildPsdd_delivers (fun _ _ _ => trivial : AllowsKnown fun _ _ => True)
      hs hknown r i).1
    rw [hbuild] at hsteps
    exact hsteps.sound hs
  constructor
  case keys_eq => exact fun h => h.2.keys_eq
  case sound =>
    rintro s₁ s₂ entries named t n r i a ⟨hs, hinstalled⟩ ht hid hbuild
    obtain ⟨x, hrow, hadds⟩ :=
      ((buildPsdd_iff ht).2 ⟨hid, hbuild⟩).exists_isPsddRow hs hinstalled.nodes
    rw [hinstalled.extension.vtree] at hrow
    exact ⟨x, hrow, hsound hs hinstalled ht hbuild, hinstalled.concat hadds⟩
  case complete =>
    rintro s₁ entries named t n r i x ⟨hs, hinstalled⟩ ht hrow hlen
    rw [← hinstalled.extension.vtree] at hrow
    obtain ⟨a, s₂, hmakes, hadds⟩ := exists_psddMakes hs hinstalled.nodes hexp hrow hlen
    obtain ⟨hid, hbuild⟩ := (buildPsdd_iff ht).1 hmakes
    exact ⟨hid, a, s₂, hbuild, hsound hs hinstalled ht hbuild, hinstalled.concat hadds⟩

/-- In any state of a store, the texts that the reader accepts are the files of the grammar. Reading
one installs its rows, and the answer is the node of the last. -/
theorem Reached.readPsdd_iff_isPsddFile (h : s.Reached) (hexp : Weight.ExpProbability W)
    {text : List Char} (hmemory : text.length < Decimal.pow2 63) :
    ((∃ root s', s.readPsdd text = (.ok root, s')) ↔
      ∃ named : List (Nat × PsddItem W), IsPsddFile s.vtree (rows text) named) ∧
    ∀ root s', s.readPsdd text = (.ok root, s') → ∀ named : List (Nat × PsddItem W),
      IsPsddFile s.vtree (rows text) named → ∃ entries, s.Installed s' entries named ∧
        entries.getLast?.map Prod.snd = some root := by
  have hfollows := follows_buildPsdd hexp s
  have hstart := And.intro h.sound (installed_nil s)
  have hread : ∀ named : List (Nat × PsddItem W), IsPsddFile s.vtree (rows text) named →
      ∃ root s' entries, s.readPsdd text = (.ok root, s') ∧ s.Installed s' entries named ∧
        entries.getLast?.map Prod.snd = some root := by
    intro named hfile
    obtain ⟨n, rs, t, s', entries, root, hheader, hnodes, hfinish, -, ⟨-, hinstalled⟩, hlast⟩ :=
      hfollows.read_of_isFile hstart (length_lt_of_mem_rows hmemory) hfile
    exact ⟨root, s', entries, readText_eq_ok.2 ⟨n, rs, t, hheader, hnodes, hfinish⟩, hinstalled,
      hlast⟩
  constructor
  · constructor
    · rintro ⟨root, s', hok⟩
      obtain ⟨n, rs, t, hheader, hnodes, hfinish⟩ := readText_eq_ok.1 hok
      obtain ⟨entries, named, hfile, -⟩ := hfollows.isFile_of_read hstart hheader hnodes hfinish
      exact ⟨named, hfile⟩
    · rintro ⟨named, hfile⟩
      obtain ⟨root, s', -, hok, -⟩ := hread named hfile
      exact ⟨root, s', hok⟩
  · intro root s' hok named hfile
    obtain ⟨root', s'', entries, hok', hinstalled, hlast⟩ := hread named hfile
    obtain ⟨hroot, rfl⟩ := Prod.mk.inj (hok.symm.trans hok')
    obtain rfl := Except.ok.inj hroot
    exact ⟨entries, hinstalled, hlast⟩

/-- What the rows of `diagramText` describe. -/
def diagramItems : List (Nat × PsddItem Extreme) :=
  [(0, .top ⟨0⟩ .minusInfinity), (1, .literal ⟨2⟩ ⟨2, by decide⟩), (2, .literal ⟨2⟩ ⟨-2, by decide⟩),
    (3, .decision ⟨1⟩ [⟨0, 1, .zero⟩, ⟨0, 2, .minusInfinity⟩])]

theorem isPsddFile_diagramText : IsPsddFile .pair (rows diagramText) diagramItems := by
  refine ⟨"psdd".toList, ['4'], [[['T'], ['0'], ['0'], ['1'], "-inf".toList],
    [['L'], ['1'], ['2'], ['2']], [['L'], ['2'], ['2'], "-2".toList],
    [['D'], ['3'], ['1'], ['2'], ['0'], ['1'], ['0'], ['0'], ['2'], "-inf".toList]],
    by decide +kernel, by simp, by decide, by decide, ?_, by decide⟩
  have hzero : readWord? ['0'] = some 0 := by decide
  have hone : readWord? ['1'] = some 1 := by decide
  have htwo : readWord? ['2'] = some 2 := by decide
  refine .cons (.top hzero hzero hone (by decide) (by decide) rfl rfl rfl)
    (.cons (.literal hone htwo (by decide) (by decide) rfl)
      (.cons (.literal htwo htwo (by decide) (by decide) rfl)
        (.cons (.decision (by decide) hone rfl (by decide) ?_) (.nil _))))
  have hprime : SitsIn (diagramItems.take 3) ⟨0⟩ 0 := ⟨_, List.mem_cons_self, by simp [PsddItem.place?]⟩
  refine .cons hzero hprime hone ⟨_, List.mem_cons_of_mem _ List.mem_cons_self, ?_⟩ rfl rfl
    (.cons hzero hprime htwo ⟨_, List.mem_of_getLast? rfl, ?_⟩ rfl rfl .nil)
  all_goals simp [PsddItem.place?, Tree.id]

theorem readPsdd_iff_isPsddFile_diagramText : ∃ root s' entries,
    (ofVtree .pair : Store Extreme).readPsdd diagramText = (.ok root, s') ∧
    IsPsddFile .pair (rows diagramText) diagramItems ∧
    (ofVtree .pair : Store Extreme).Installed s' entries diagramItems ∧
    entries.getLast?.map Prod.snd = some root := by
  have hreached : (ofVtree .pair : Store Extreme).Reached := .start (.balanced Vtree.balanced_two)
  have hmemory : diagramText.length < Decimal.pow2 63 := by decide
  obtain ⟨hiff, hanswer⟩ :=
    hreached.readPsdd_iff_isPsddFile Extreme.laws.expProbability hmemory
  obtain ⟨root, s', hread⟩ := hiff.2 ⟨_, isPsddFile_diagramText⟩
  obtain ⟨entries, hinstalled, hlast⟩ := hanswer root s' hread _ isPsddFile_diagramText
  exact ⟨root, s', entries, hread, isPsddFile_diagramText, hinstalled, hlast⟩

end Store
end Sentential
