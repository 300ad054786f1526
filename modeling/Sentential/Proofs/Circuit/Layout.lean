import Sentential.Circuit.Layout
import Sentential.Proofs.Store.Order

/-!
# The layout of a positive order

`Store.layout` places the nodes of a list one behind the other. If every node of the list can be
turned into opcodes (`Compilable`) and none stands in it twice, the layout has a head for every
literal and for every node of the list (`Laid`), the heads differ, and the sizes are sums over the
list. If some node cannot, the layout fails at the first such node.
-/

namespace Sentential

/-- The head of every node in `l` is its head in `l'` too. -/
def Layout.Within (l l' : Layout) : Prop := ∀ id h, l.head? id = some h → l'.head? id = some h

namespace Store

variable {W : Type} [Weight W] {s : Store W} {id : NodeId}

/-! ## Nodes that can be turned into opcodes -/

/-- Why a node cannot be turned into opcodes. -/
def refusal? (s : Store W) (id : NodeId) : Option CompileError :=
  match s.entry id with
  | .ok ⟨⟨.top none, _⟩, _⟩ => some (.unboundTop id)
  | .ok ⟨⟨.decision _ _, none⟩, _⟩ => some (.missingTheta id)
  | _ => none

/-- The node is a literal, or it has the weights that its opcodes need. -/
inductive Compilable (s : Store W) (id : NodeId) : Prop
  | literal (l : Literal) :
      s.entry id = .ok ⟨⟨.literal l, none⟩, false⟩ → s.literal? l.value = some id → Compilable s id
  | top (leaf : VtreeId) (var : Nat) (θ : Theta W) (w₀ w₁ : W) :
      s.entry id = .ok ⟨⟨.top (some leaf), some θ⟩, false⟩ → s.vtree.leafOf var = .ok leaf →
      θ.weights = [w₀, w₁] → s.baseCount ≤ id.raw → Compilable s id
  | decision (v : VtreeId) (es : List Element) (θ : Theta W) :
      s.entry id = .ok ⟨⟨.decision v es, some θ⟩, false⟩ → θ.length = es.length →
      s.KnowsBelow es → s.baseCount ≤ id.raw → Compilable s id

theorem Sound.compilable (h : s.Sound) (hbelow : ∀ es, s.elements id = .ok es → s.KnowsBelow es)
    (hfalse : s.isFalse id = .ok false) (hrefusal : s.refusal? id = none) : s.Compilable id := by
  obtain ⟨e, he, hb⟩ := isFalse_eq_ok.1 hfalse
  unfold refusal? at hrefusal
  rw [he] at hrefusal
  rcases h.cases he with ⟨rfl, rfl⟩ | ⟨rfl, rfl⟩ | ⟨l, hl, rfl⟩ | ⟨hle, hmade⟩
  · exact absurd hb (by simp)
  · exact absurd hrefusal (by simp)
  · exact .literal l he hl
  · obtain ⟨⟨kind, theta⟩, b⟩ := e
    obtain rfl : b = false := hb
    cases hmade with
    | @top var leaf θ hleaf hθ =>
      obtain ⟨w₀, w₁, hw⟩ := List.length_eq_two.1 hθ
      exact .top leaf var θ w₀ w₁ he hleaf hw hle
    | @decision v es theta hfork hθ =>
      cases theta with
      | none => exact absurd hrefusal (by simp)
      | some θ => exact .decision v es θ he (hθ θ rfl) (hbelow es (elements_of_entry he)) hle

/-! ## The sizes of a list of nodes -/

/-- The bound TRUE nodes of a list. -/
def boundTops (s : Store W) (order : List NodeId) : List NodeId :=
  order.filter fun id => match s.kind id with
    | .ok (.top (some _)) => true
    | _ => false

/-- The decisions of a list. -/
def decisions (s : Store W) (order : List NodeId) : List NodeId :=
  order.filter fun id => match s.kind id with
    | .ok (.decision ..) => true
    | _ => false

/-- The number of positive elements of a node. -/
def positiveCount (s : Store W) (id : NodeId) : Nat :=
  match s.positiveElements id with
  | .ok es => es.length
  | .error _ => 0

/-- The number of positive elements of all decisions of a list. -/
def positiveTotal (s : Store W) (order : List NodeId) : Nat :=
  ((s.decisions order).map s.positiveCount).sum

/-! ## The layout of the indicators -/

theorem getElem?_indicators (n i : Nat) (v : Int) : (indicators n)[i]? = some v ↔
    (i < n ∧ v = i + 1) ∨ (n ≤ i ∧ i < 2 * n ∧ v = (i : Int) - 2 * n) := by
  by_cases hlt : i < n
  · rw [indicators, List.getElem?_append_left (by simpa using hlt), List.getElem?_map,
      List.getElem?_range hlt, Option.map_some, Option.some_inj]
    omega
  · rw [indicators, List.getElem?_append_right (by simpa using hlt), List.getElem?_map,
      List.length_map, List.length_range]
    by_cases hin : i < 2 * n
    · rw [List.getElem?_reverse (by rw [List.length_range]; omega), List.length_range,
        List.getElem?_range (by omega), Option.map_some, Option.some_inj]
      omega
    · rw [List.getElem?_eq_none (by simp; omega), Option.map_none]
      simp
      omega

theorem length_indicators (n : Nat) : (indicators n).length = 2 * n := by
  simp [indicators]
  omega

theorem mem_indicators {n : Nat} {v : Int} :
    v ∈ indicators n ↔ v ≠ 0 ∧ v.natAbs ≤ n := by
  rw [List.mem_iff_getElem?]
  simp only [getElem?_indicators]
  constructor
  · intro h
    obtain ⟨i, hi⟩ := h
    omega
  · intro h
    by_cases hpos : 0 < v
    · exact ⟨v.natAbs - 1, by omega⟩
    · exact ⟨2 * n - v.natAbs, by omega⟩

theorem indicators_nodup (n : Nat) : (indicators n).Nodup := by
  rw [List.nodup_iff_getElem?_ne_getElem?]
  intro i j hij hj heq
  rw [List.getElem?_eq_getElem hj] at heq
  have hi := (getElem?_indicators n i _).1 heq
  have hj := (getElem?_indicators n j _).1 (List.getElem?_eq_getElem hj)
  omega

/-! ## Layouts so far -/

/-- The heads of a layout are different opcodes of it, and they are those of the literals and of
the nodes in `done`. -/
structure Laid (s : Store W) (done : List NodeId) (l : Layout) : Prop where
  covers : ∀ id, (∃ h, l.head? id = some h) ↔ s.IsLiteral id ∨ id ∈ done
  lt : ∀ id h, l.head? id = some h → h < l.nodeCount
  distinct : ∀ id id' h, l.head? id = some h → l.head? id' = some h → id = id'

theorem head?_add (l : Layout) (id x : NodeId) (nodes edges literals : Nat) :
    (l.add id nodes edges literals).head? x
      = if id = x then some (l.nodeCount + nodes - 1) else l.head? x := by
  show (l.heads.insert id _)[x]? = _
  rw [Std.HashMap.getElem?_insert]
  by_cases h : id = x
  · rw [if_pos h, if_pos (beq_iff_eq.2 h)]
  · rw [if_neg h, if_neg (fun heq => h (eq_of_beq heq))]
    rfl

/-- The layout of some indicators: the head of a literal is its position among them. -/
structure Indicated (s : Store W) (vs : List Int) (l : Layout) : Prop where
  nodes : l.nodeCount = vs.length
  edges : l.edgeCount = 0
  literals : l.literalCount = s.varCount
  heads : ∀ id h, l.head? id = some h ↔ ∃ v, vs[h]? = some v ∧ s.literal? v = some id

theorem Indicated.add {vs : List Int} {l : Layout} (h : s.Indicated vs l) {v : Int} (hv : v ∉ vs)
    (hid : s.literal? v = some id) : s.Indicated (vs ++ [v]) (l.add id 1 0 0) := by
  refine ⟨?_, h.edges, h.literals, fun x i => ?_⟩
  · rw [List.length_append, ← h.nodes]
    rfl
  · rw [head?_add, h.nodes]
    simp only [getElem?_concat_eq_some]
    by_cases hx : id = x
    · subst hx
      rw [if_pos rfl, Option.some_inj]
      constructor
      · intro hi
        exact ⟨v, Or.inr ⟨hi.symm, rfl⟩, hid⟩
      · rintro ⟨v', hget, hv'⟩
        -- a node is the literal of one number only, and that one is new
        obtain rfl := literal?_inj hid hv'
        rcases hget with hold | ⟨rfl, -⟩
        · exact absurd (List.mem_of_getElem? hold) hv
        · rfl
    · rw [if_neg hx, h.heads]
      constructor
      · rintro ⟨v', hget, hv'⟩
        exact ⟨v', Or.inl hget, hv'⟩
      · rintro ⟨v', hget, hv'⟩
        rcases hget with hold | ⟨-, rfl⟩
        · exact ⟨v', hold, hv'⟩
        · exact absurd (Option.some_inj.1 (hid.symm.trans hv')) hx

/-- The head of a literal is its indicator. -/
theorem exists_indicatorLayout (s : Store W) :
    ∃ l, s.indicatorLayout = .ok l ∧ s.Indicated (indicators s.varCount) l := by
  -- the induction is on the list from its end, where the indicator stands that is placed last
  have hfold : ∀ vs : List Int, vs.Nodup → (∀ v ∈ vs, ∃ id, s.literal? v = some id) →
      ∃ l : Layout, vs.foldlM (fun l literal => return l.add (← s.literal literal) 1 0 0)
        (⟨0, 0, s.varCount, ∅⟩ : Layout) = .ok l ∧ s.Indicated vs l := by
    intro vs hnodup hnodes
    induction vs using List.reverseRecOn with
    | nil => exact ⟨_, rfl, rfl, rfl, rfl, fun id h => by simp [Layout.head?]⟩
    | append_singleton vs v ih =>
      obtain ⟨l, hl, hind⟩ :=
        ih (List.nodup_append.1 hnodup).1 fun x hx => hnodes x (List.mem_append_left _ hx)
      obtain ⟨id, hid⟩ := hnodes v (List.mem_append_right _ (List.mem_singleton_self v))
      have hv : v ∉ vs := fun h => (List.nodup_append.1 hnodup).2.2 v h v (by simp) rfl
      have hliteral : s.literal v = .ok id := by
        unfold literal
        rw [hid]
      refine ⟨l.add id 1 0 0, ?_, hind.add hv hid⟩
      rw [List.foldlM_append, hl, ok_bind, List.foldlM_cons, hliteral]
      rfl
  exact hfold _ (indicators_nodup _) fun v hv => exists_literal?.2 (mem_indicators.1 hv)

theorem Indicated.laid {l : Layout} (hind : s.Indicated (indicators s.varCount) l) :
    s.Laid [] l := by
  constructor
  case covers =>
    intro id
    constructor
    · intro h
      obtain ⟨h, hid⟩ := h
      obtain ⟨v, -, hv⟩ := (hind.heads id h).1 hid
      exact Or.inl ⟨v, hv⟩
    · intro h
      obtain ⟨v, hv⟩ := h.resolve_right (by simp)
      obtain ⟨i, hi⟩ := List.mem_iff_getElem?.1 (mem_indicators.2 (exists_literal?.1 ⟨id, hv⟩))
      exact ⟨i, (hind.heads id i).2 ⟨v, hi, hv⟩⟩
  case lt =>
    intro id h hid
    obtain ⟨v, hget, -⟩ := (hind.heads id h).1 hid
    have hlt := (List.getElem?_eq_some_iff.1 hget).1
    rwa [← hind.nodes] at hlt
  case distinct =>
    intro id id' h hid hid'
    obtain ⟨v, hget, hv⟩ := (hind.heads id h).1 hid
    obtain ⟨v', hget', hv'⟩ := (hind.heads id' h).1 hid'
    obtain rfl : v = v' := Option.some_inj.1 (hget.symm.trans hget')
    exact Option.some_inj.1 (hv.symm.trans hv')

/-! ## Nodes behind the others -/

/-- A node that is no literal is placed behind everything else. -/
theorem Laid.add {done : List NodeId} {l : Layout} (h : s.Laid done l) {nodes : Nat}
    (hnodes : 0 < nodes) (edges literals : Nat) :
    s.Laid (done ++ [id]) (l.add id nodes edges literals) := by
  have hsize : (l.add id nodes edges literals).nodeCount = l.nodeCount + nodes := rfl
  constructor
  case covers =>
    intro x
    have hcovers := h.covers x
    rw [head?_add, List.mem_append, List.mem_singleton]
    by_cases hx : id = x
    · rw [if_pos hx]
      exact ⟨fun _ => Or.inr (Or.inr hx.symm), fun _ => ⟨_, rfl⟩⟩
    · rw [if_neg hx, hcovers]
      have hne : x ≠ id := fun heq => hx heq.symm
      simp [hne]
  case lt =>
    intro x i hi
    rw [hsize]
    rw [head?_add] at hi
    split at hi
    · have hi := Option.some_inj.1 hi
      omega
    · have hlt := h.lt x i hi
      omega
  case distinct =>
    intro x y i hx hy
    rw [head?_add] at hx hy
    split at hx
    · next hidx =>
      split at hy
      · next hidy => exact hidx.symm.trans hidy
      · have hi := Option.some_inj.1 hx
        have hlt := h.lt y i hy
        omega
    · split at hy
      · have hi := Option.some_inj.1 hy
        have hlt := h.lt x i hx
        omega
      · exact h.distinct x y i hx hy

theorem Laid.literal {done : List NodeId} {l : Layout} (h : s.Laid done l)
    (hid : s.IsLiteral id) : s.Laid (done ++ [id]) l := by
  refine ⟨fun x => ?_, h.lt, h.distinct⟩
  rw [h.covers, List.mem_append, List.mem_singleton]
  constructor
  · exact fun hx => hx.imp_right Or.inl
  · rintro (hx | hx | rfl)
    · exact Or.inl hx
    · exact Or.inr hx
    · exact Or.inl hid

/-- The layout of a new node leaves the heads alone that are there. -/
theorem Laid.within_add {done : List NodeId} {l : Layout} (h : s.Laid done l)
    (hle : s.baseCount ≤ id.raw) (hnew : id ∉ done) (nodes edges literals : Nat) :
    l.Within (l.add id nodes edges literals) := by
  intro x i hx
  rw [head?_add, if_neg, hx]
  intro heq
  subst heq
  -- heads belong to literals and to nodes that are done, and the new node is neither
  rcases (h.covers id).1 ⟨i, hx⟩ with hlit | hdone
  · exact absurd hlit.lt (Nat.not_lt_of_le hle)
  · exact hnew hdone

/-! ## The layout of a list of nodes -/

/-- By how much the nodes of a list make a layout longer. -/
structure Grown (s : Store W) (order : List NodeId) (l l' : Layout) : Prop where
  nodes : l'.nodeCount = l.nodeCount + 5 * (s.boundTops order).length
    + (s.decisions order).length + 2 * s.positiveTotal order
  edges : l'.edgeCount = l.edgeCount + 6 * (s.boundTops order).length + 4 * s.positiveTotal order
  literals : l'.literalCount = l.literalCount + 2 * (s.boundTops order).length
    + s.positiveTotal order

theorem Grown.trans {as bs : List NodeId} {l l' l'' : Layout} (h : s.Grown as l l')
    (h' : s.Grown bs l' l'') : s.Grown (as ++ bs) l l'' := by
  have htops : s.boundTops (as ++ bs) = s.boundTops as ++ s.boundTops bs := List.filter_append ..
  have hdecisions : s.decisions (as ++ bs) = s.decisions as ++ s.decisions bs :=
    List.filter_append ..
  have htotal : s.positiveTotal (as ++ bs) = s.positiveTotal as + s.positiveTotal bs := by
    unfold positiveTotal
    rw [hdecisions, List.map_append, List.sum_append]
  constructor
  · rw [h'.nodes, h.nodes, htops, hdecisions, htotal, List.length_append, List.length_append]
    omega
  · rw [h'.edges, h.edges, htops, htotal, List.length_append]
    omega
  · rw [h'.literals, h.literals, htops, htotal, List.length_append]
    omega

theorem positiveCount_eq {ps : List Element} (h : s.positiveElements id = .ok ps) :
    s.positiveCount id = ps.length := by
  unfold positiveCount
  rw [h]

theorem layoutNode_literal {l : Literal} {b : Bool} (he : s.entry id = .ok ⟨⟨.literal l, none⟩, b⟩)
    (t : Layout) : s.layoutNode t id = .ok t := by
  unfold layoutNode
  rw [he]
  rfl

theorem layoutNode_top {leaf : VtreeId} {θ : Theta W} {b : Bool}
    (he : s.entry id = .ok ⟨⟨.top (some leaf), some θ⟩, b⟩) (t : Layout) :
    s.layoutNode t id = .ok (t.add id 5 6 2) := by
  unfold layoutNode
  rw [he]
  rfl

theorem layoutNode_decision {v : VtreeId} {es ps : List Element} {θ : Theta W} {b : Bool}
    (he : s.entry id = .ok ⟨⟨.decision v es, some θ⟩, b⟩) (hps : s.positiveElements id = .ok ps)
    (t : Layout) :
    s.layoutNode t id = .ok (t.add id (2 * ps.length + 1) (4 * ps.length) ps.length) := by
  unfold layoutNode
  rw [he, hps]
  rfl

/-- What one node adds to a layout. -/
theorem Compilable.layoutNode (h : s.Compilable id) {done : List NodeId} {l : Layout}
    (hl : s.Laid done l) (hnew : id ∉ done) :
    ∃ l', s.layoutNode l id = .ok l' ∧ s.Laid (done ++ [id]) l' ∧ l.Within l' ∧
      s.Grown [id] l l' := by
  cases h with
  | literal lit he hlit =>
    have hkind := kind_of_entry he
    refine ⟨l, layoutNode_literal he l, hl.literal ⟨_, hlit⟩, fun _ _ hx => hx, ?_⟩
    constructor <;> simp [boundTops, decisions, positiveTotal, hkind]
  | top leaf var θ w₀ w₁ he hleaf hw hle =>
    have hkind := kind_of_entry he
    refine ⟨_, layoutNode_top he l, hl.add (by omega) 6 2, hl.within_add hle hnew 5 6 2, ?_⟩
    constructor <;> simp [boundTops, decisions, positiveTotal, hkind, Layout.add]
  | decision v es θ he hθ hbelow hle =>
    have hkind := kind_of_entry he
    have hps := positiveElements_known hbelow (elements_of_entry he)
    have hcount := positiveCount_eq hps
    refine ⟨_, layoutNode_decision he hps l, hl.add (by omega) _ _, hl.within_add hle hnew _ _ _, ?_⟩
    constructor
    · simp [boundTops, decisions, positiveTotal, hkind, Layout.add, hcount]
      omega
    · simp [boundTops, decisions, positiveTotal, hkind, Layout.add, hcount]
    · simp [boundTops, decisions, positiveTotal, hkind, Layout.add, hcount]

/-- The layout of nodes that can all be turned into opcodes. -/
theorem exists_layout_rest (rest : List NodeId) (hrest : ∀ id ∈ rest, s.Compilable id)
    (done : List NodeId) (hnodup : (done ++ rest).Nodup)
    (l : Layout) (hl : s.Laid done l) :
    ∃ l', rest.foldlM s.layoutNode l = .ok l' ∧ s.Laid (done ++ rest) l' ∧ l.Within l' ∧
      s.Grown rest l l' := by
  induction rest generalizing done l with
  | nil =>
    refine ⟨l, rfl, by simpa using hl, fun _ _ hx => hx, ?_⟩
    constructor <;> simp [boundTops, decisions, positiveTotal]
  | cons id rest ih =>
    have hnew : id ∉ done := fun hid => (List.nodup_append.1 hnodup).2.2 id hid id (by simp) rfl
    obtain ⟨l₁, hl₁, hlaid₁, hwithin₁, hgrown₁⟩ :=
      (hrest id List.mem_cons_self).layoutNode hl hnew
    obtain ⟨l₂, hl₂, hlaid₂, hwithin₂, hgrown₂⟩ :=
      ih (fun x hx => hrest x (List.mem_cons_of_mem _ hx)) (done ++ [id]) (by simpa using hnodup)
        l₁ hlaid₁
    refine ⟨l₂, ?_, by simpa using hlaid₂, fun x h hx => hwithin₂ x h (hwithin₁ x h hx),
      hgrown₁.trans hgrown₂⟩
    rw [List.foldlM_cons, hl₁, ok_bind, hl₂]

/-! ## Refused nodes -/

theorem layoutNode_refused {e : CompileError} (hrefusal : s.refusal? id = some e)
    (l : Layout) : s.layoutNode l id = .error e := by
  unfold refusal? at hrefusal
  unfold layoutNode
  split at hrefusal
  · next he =>
    rw [he]
    exact congrArg Except.error (Option.some_inj.1 hrefusal)
  · next he =>
    rw [he]
    exact congrArg Except.error (Option.some_inj.1 hrefusal)
  · exact absurd hrefusal (by simp)

/-- The layout of a list fails at the first node that is refused. -/
theorem layout_refused (h : s.Sound) (hclosed : s.Closed) {e : CompileError} (rest : List NodeId)
    (hrest : ∀ id ∈ rest, s.isFalse id = .ok false) (hrefusal : rest.findSome? s.refusal? = some e)
    (l : Layout) : rest.foldlM s.layoutNode l = .error e := by
  induction rest generalizing l with
  | nil => exact absurd hrefusal (by simp)
  | cons id rest ih =>
    rw [List.foldlM_cons]
    cases hid : s.refusal? id with
    | some e' =>
      rw [List.findSome?_cons, hid] at hrefusal
      obtain rfl := Option.some_inj.1 hrefusal
      rw [layoutNode_refused hid]
      rfl
    | none =>
      rw [List.findSome?_cons, hid] at hrefusal
      -- a node that is not refused is placed, and the walk goes on behind it
      have hok : ∃ l', s.layoutNode l id = .ok l' := by
        cases h.compilable (fun es => hclosed.knowsBelow) (hrest id List.mem_cons_self) hid with
        | literal lit he hlit => exact ⟨l, layoutNode_literal he l⟩
        | top leaf var θ w₀ w₁ he hleaf hw hle => exact ⟨_, layoutNode_top he l⟩
        | decision v es θ he hθ hbelow hle =>
          exact ⟨_, layoutNode_decision he (positiveElements_known hbelow (elements_of_entry he)) l⟩
      obtain ⟨l', hl'⟩ := hok
      rw [hl', ok_bind]
      exact ih (fun x hx => hrest x (List.mem_cons_of_mem _ hx)) hrefusal l'

end Store
end Sentential
