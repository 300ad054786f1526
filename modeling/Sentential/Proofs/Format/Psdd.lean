import Sentential.Format.Psdd
import Sentential.Proofs.Format.DiagramLine
import Sentential.Proofs.Weight.Laws

/-!
# Probabilistic diagram files of outlines

The row of a node in a probabilistic diagram file depends on its figure, on the vtree and on its
weights (`Figure.PsddRow`). Reading the row of a terminal or a literal finds the node that every
store has for it, and reading any other row makes a node with the weights that the logarithms
stand for (`Figure.Reread`).
-/

namespace Sentential

open Format Text

variable {W : Type} [Weight W]

namespace Figure

/-- The fields of the numbers of elements and of the logarithms of their weights. -/
def weightedFields (es : List (Nat × Nat)) (logs : List W) : List Field :=
  (es.zip logs).flatMap fun x => [natField x.1.1, natField x.1.2, Weight.text x.2]

theorem isField_weightedFields {es : List (Nat × Nat)} {logs : List W}
    (hlogs : ∀ l ∈ logs, IsField (Weight.text l)) : ∀ f ∈ weightedFields es logs, IsField f := by
  intro f hf
  obtain ⟨x, hx, hf⟩ := List.mem_flatMap.1 hf
  simp only [List.mem_cons, List.not_mem_nil, or_false] at hf
  rcases hf with rfl | rfl | rfl
  · exact isField_natField x.1.1
  · exact isField_natField x.1.2
  · exact hlogs x.2 (List.of_mem_zip hx).2

/-- The row of a node in a probabilistic diagram file. -/
inductive PsddRow (v : Vtree) (i : Nat) : Figure → Option (Theta W) → List Field → Prop
  | bottom : PsddRow v i .bottom none [['F'], natField i]
  | literal (l : Literal) (leaf : VtreeId) : v.leafOf l.var = .ok leaf →
      PsddRow v i (.literal l) none [['L'], natField i, natField leaf.raw, intField l.value]
  | top (leaf : VtreeId) (var : Nat) (θ : Theta W) (l : W) :
      v.leafOf var = .ok leaf → θ.logs[1]? = some l →
      PsddRow v i (.top (some leaf)) (some θ)
        [['T'], natField i, natField leaf.raw, natField var, Weight.text l]
  | decision (u : VtreeId) (es : List (Nat × Nat)) (θ : Theta W) : θ.length = es.length →
      PsddRow v i (.decision u es) (some θ)
        (['D'] :: natField i :: natField u.raw :: natField es.length :: weightedFields es θ.logs)

/-- The weights that a node is written with, and those that it is read with. -/
inductive Reread : Figure → Option (Theta W) → Option (Theta W) → Prop
  | bottom : Reread .bottom none none
  | literal (l : Literal) : Reread (.literal l) none none
  | top (leaf : VtreeId) (θ θ' : Theta W) (l : W) : θ.logs[1]? = some l →
      θ'.weights = [Weight.complement (Weight.exp l), Weight.exp l] →
      Reread (.top (some leaf)) (some θ) (some θ')
  | decision (v : VtreeId) (es : List (Nat × Nat)) (θ θ' : Theta W) :
      θ'.weights = θ.logs.map Weight.exp → Reread (.decision v es) (some θ) (some θ')

/-- Whether the row of the node makes a node when it is read. -/
def isMade : Figure → Bool
  | top _ => true
  | decision .. => true
  | _ => false

theorem length_weightedFields {es : List (Nat × Nat)} {logs : List W}
    (h : logs.length = es.length) : (weightedFields es logs).length = 3 * es.length := by
  induction es generalizing logs with
  | nil => rfl
  | cons x es ih =>
    cases logs with
    | nil => exact absurd h (by simp)
    | cons l logs =>
      show (weightedFields es logs).length + 3 = _
      rw [ih (Nat.succ.inj h), List.length_cons]
      omega

/-- The third field of an element is the logarithm of its weight. -/
theorem getElem?_weightedFields {es : List (Nat × Nat)} {logs : List W} {i : Nat} {l : W}
    (h : logs.length = es.length) (hl : logs[i]? = some l) :
    (weightedFields es logs)[3 * i + 2]? = some (Weight.text l) := by
  induction es generalizing i logs with
  | nil =>
    obtain rfl := List.length_eq_zero_iff.1 h
    exact absurd hl (by simp)
  | cons x es ih =>
    cases logs with
    | nil => exact absurd h (by simp)
    | cons l' logs =>
      show (natField x.1 :: natField x.2 :: Weight.text l' :: weightedFields es logs)[3 * i + 2]?
        = some (Weight.text l)
      cases i with
      | zero =>
        obtain rfl := Option.some_inj.1 hl
        rfl
      | succ i => exact ih (Nat.succ.inj h) hl

/-- Rows are written without blanks, and each has its number behind the letter. -/
theorem PsddRow.isRow {v : Vtree} {i : Nat} {fig : Figure} {θ : Option (Theta W)} {fs : List Field}
    (h : PsddRow v i fig θ fs)
    (hθ : ∀ t, θ = some t → ∀ l ∈ t.logs, IsField (Weight.text l)) :
    IsRow fs ∧ fs[1]? = some (natField i) := by
  cases h with
  | bottom => exact ⟨isRow_node rfl (by decide) i (by simp), rfl⟩
  | literal l leaf hleaf => exact ⟨isRow_node rfl (by decide) i (by simp), rfl⟩
  | top leaf var θ l hleaf hl =>
    have hlog := hθ θ rfl l (List.mem_of_getElem? hl)
    exact ⟨isRow_node rfl (by decide) i (by simpa using hlog), rfl⟩
  | decision u es θ hlen =>
    have hfields : ∀ f ∈ weightedFields es θ.logs, IsField f := isField_weightedFields (hθ θ rfl)
    exact ⟨isRow_node rfl (by decide) i (by simpa using hfields), rfl⟩

end Figure

namespace Store

variable {s : Store W} {id root : NodeId} {order ids : List NodeId} {n i : Nat}
  {fs : List Field}

/-! ## Writing -/

/-- A TRUE node with weights was made for a variable and has two of them. -/
theorem Sound.exists_psddRow_top (hs : s.Sound) {leaf : Option VtreeId} {θ : Theta W} {b : Bool}
    (he : s.entry id = .ok ⟨⟨.top leaf, some θ⟩, b⟩) (i : Nat) :
    ∃ fs, (Figure.top leaf).PsddRow s.vtree i (some θ) fs := by
  cases hs.made he (hs.baseCount_le he rfl) with
  | @top var leaf _ hleaf hlen =>
    obtain ⟨w, l, hlogs⟩ := List.length_eq_two.1 ((Theta.length_logs θ).trans hlen)
    have hl : θ.logs[1]? = some l := by
      rw [hlogs]
      rfl
    exact ⟨_, .top leaf var θ l hleaf hl⟩

theorem psddElements_ofList (h : order.Nodup) {es : List (Nat × Nat)} {logs : List W}
    (hlen : logs.length = es.length) (hes : ∀ x ∈ es, x.1 < order.length ∧ x.2 < order.length) :
    psddElements (Indexing.ofList order) (es.map (Figure.element order)) logs
      = .ok (Figure.weightedFields es logs) := by
  induction es generalizing logs with
  | nil => rfl
  | cons x es ih =>
    cases logs with
    | nil => exact absurd hlen (by simp)
    | cons l logs =>
      obtain ⟨hprime, hsub⟩ := indexOf_element h (hes x List.mem_cons_self)
      rw [List.map_cons, psddElements, hprime, hsub, ok_bind, ok_bind,
        ih (Nat.succ.inj hlen) fun y hy => hes y (List.mem_cons_of_mem _ hy)]
      rfl

/-- The line of a node is the row of its figure and its weights. -/
theorem psddLine_eq (hs : s.Sound) (h : order.Nodup) {fig : Figure} {θ : Option (Theta W)} {b : Bool}
    (he : s.entry id = .ok ⟨⟨fig.kind order, θ⟩, b⟩) (hwithin : fig.Within order.length)
    (hrow : fig.PsddRow s.vtree i θ fs) : s.psddLine (Indexing.ofList order) i id = .ok fs := by
  unfold psddLine
  rw [he, format_liftM_ok, ok_bind]
  cases hrow with
  | bottom => rfl
  | literal l leaf hleaf =>
    simp only [Figure.kind, hleaf]
    rfl
  | top leaf var θ l hleaf hl =>
    have hsubtree := Vtree.subtree_eq_ok.2 (hs.vtree.leafOf_iff.1 hleaf)
    simp only [Figure.kind, hsubtree, Vtree.Tree.var?, hl]
    rfl
  | decision u es θ hlen =>
    have helements : psddElements (Indexing.ofList order) (es.map (Figure.element order)) θ.logs
        = .ok (Figure.weightedFields es θ.logs) :=
      psddElements_ofList h ((Theta.length_logs θ).trans hlen) hwithin
    simp only [Figure.kind, helements, List.length_map]
    rfl

theorem psddLines_eq {ix : Indexing} {rows : List (List Field)} (i : Nat)
    (hlen : rows.length = ids.length) (h : ∀ (j : Nat) (id : NodeId) (fs : List Field),
      ids[j]? = some id → rows[j]? = some fs → s.psddLine ix (i + j) id = .ok fs) :
    s.psddLines ix i ids = .ok rows := by
  induction ids generalizing i rows with
  | nil =>
    obtain rfl := List.length_eq_zero_iff.1 hlen
    rfl
  | cons x ids ih =>
    cases rows with
    | nil => exact absurd hlen (by simp)
    | cons fs rows =>
      rw [psddLines, show s.psddLine ix i x = .ok fs from h 0 x fs rfl rfl, ok_bind,
        ih (i + 1) (Nat.succ.inj hlen) fun j id fs hid hfs => by
          rw [Nat.add_assoc, Nat.add_comm 1 j]
          exact h (j + 1) id fs hid hfs]
      rfl

/-- The line of a node stands at the number of the node. -/
theorem getElem?_psddLines {ix : Indexing} {rows : List (List Field)} {j : Nat}
    (h : s.psddLines ix i ids = .ok rows) (hid : ids[j]? = some id) :
    ∃ fs, s.psddLine ix (i + j) id = .ok fs ∧ rows[j]? = some fs := by
  induction ids generalizing i j rows with
  | nil => exact absurd hid (by simp)
  | cons x ids ih =>
    obtain ⟨fs, hfs, h⟩ := bind_eq_ok.1 h
    obtain ⟨rest, hrest, h⟩ := bind_eq_ok.1 h
    obtain rfl := Except.ok.inj h
    cases j with
    | zero =>
      obtain rfl := Option.some_inj.1 hid
      exact ⟨fs, hfs, rfl⟩
    | succ j =>
      obtain ⟨fs', hfs', hget⟩ := ih hrest hid
      rw [Nat.add_assoc, Nat.add_comm 1 j] at hfs'
      exact ⟨fs', hfs', hget⟩

/-- The comments of a probabilistic diagram file. -/
def psddComments : List (List Char) := psddHeader.map String.toList

theorem comments_psddHeader : ∀ l ∈ psddComments, l.head? = some 'c' ∧ '\n' ∉ l := by
  decide +kernel

/-- A file that is written consists of the comments, the header and the lines of the nodes. -/
theorem psddText_eq_ok {text : List Char} {ix : Indexing} (h : s.psddText root = .ok text)
    (hix : s.indexing root = .ok ix) : ∃ rows, s.psddLines ix 0 ix.order.toList = .ok rows ∧
      text = fileOf psddComments (["psdd".toList, natField ix.size] :: rows) := by
  unfold Store.psddText at h
  rw [hix, format_liftM_ok, ok_bind] at h
  obtain ⟨rows, hrows, h⟩ := bind_eq_ok.1 h
  exact ⟨rows, hrows, (Except.ok.inj h).symm⟩

theorem Outlines.psddText {figs : List Figure} (h : s.Outlines root order figs)
    {rows : List (List Field)} (hlen : rows.length = order.length)
    (hrows : ∀ (i : Nat) (id : NodeId) (fs : List Field), order[i]? = some id → rows[i]? = some fs →
      s.psddLine (Indexing.ofList order) i id = .ok fs) :
    s.psddText root = .ok (fileOf psddComments (["psdd".toList, natField rows.length] :: rows)) := by
  have hlines : s.psddLines (Indexing.ofList order) 0 order = .ok rows :=
    psddLines_eq 0 hlen fun j id fs hid hfs => by
      rw [Nat.zero_add]
      exact hrows j id fs hid hfs
  unfold Store.psddText
  rw [h.indexing, format_liftM_ok, ok_bind, Indexing.order_ofList, hlines, ok_bind,
    Indexing.size_ofList, ← hlen]
  rfl

/-! ## Reading -/

/-- The elements of a decision sit at the two sides of its vtree node. -/
def Seated (s : Store W) (v : VtreeId) (es : List Element) : Prop := s.NormalizedBy s.sitsAt v es

/-- The row of a terminal or a literal is read as the node that every store has for it. -/
theorem buildPsdd_plain (hs : s.Sound) {fig : Figure} {r : Record}
    (hrow : fig.PsddRow s.vtree i (none : Option (Theta W)) r.fields)
    (hwords : s.vtree.Addressable) (hid : s.canonical? (fig.kind ids) = some id)
    (t : Slots NodeId) : s.buildPsdd t r i = (.ok id, s) := by
  generalize hfields : r.fields = fs at hrow
  cases hrow with
  | bottom =>
    obtain ⟨line, fs⟩ := r
    obtain rfl := hfields
    obtain rfl := Option.some_inj.1 hid
    rfl
  | literal l leaf hleaf =>
    have htag : tag r = ['L'] := tag_eq hfields
    have hcount : expectFields 4 r = .ok () := expectFields_eq_ok.2 (by rw [hfields]; rfl)
    unfold buildPsdd readPsddPlain
    rw [if_neg (by rw [htag]; decide), if_neg (by rw [htag]; decide), htag]
    simp only
    rw [hcount, ok_bind, readLiteral_eq hs hwords hid hleaf hfields]

theorem readLog_eq_ok {r : Record} {j : Nat} {l : W} : readLog r j = .ok l ↔
    ∃ f, r.fields[j]? = some f ∧ Weight.read? f = some l ∧ Weight.isLogProbability l = true := by
  unfold readLog
  constructor
  · intro h
    obtain ⟨w, hw, h⟩ := bind_eq_ok.1 h
    obtain ⟨f, hf, hread⟩ := field_eq_ok.1 hw
    split at h
    · next hlog =>
      obtain rfl : w = l := by simpa using h
      exact ⟨f, hf, hread, hlog⟩
    · exact absurd h (by simp)
  · rintro ⟨f, hf, hread, hlog⟩
    rw [field_eq_ok.2 ⟨f, hf, hread⟩, ok_bind, hlog]
    rfl

theorem readTop_iff {r : Record} {var : Nat} {log : W} : s.readTop r i = .ok (var, log) ↔
    ∃ p y g position, r.fields.length = 5 ∧ r.fields[2]? = some p ∧ readWord? p = some position ∧
      r.fields[3]? = some y ∧ readWord? y = some var ∧ r.fields[4]? = some g ∧
      Weight.read? g = some log ∧ Weight.isLogProbability log = true ∧ 1 ≤ var ∧ var ≤ s.varCount ∧
      s.vtree.leafOf var = .ok ⟨position⟩ := by
  unfold readTop
  constructor
  · intro h
    obtain ⟨_, hcount, h⟩ := bind_eq_ok.1 h
    obtain ⟨position, hposition, h⟩ := bind_eq_ok.1 h
    obtain ⟨var', hvar, h⟩ := bind_eq_ok.1 h
    obtain ⟨log', hlog, h⟩ := bind_eq_ok.1 h
    obtain ⟨p, hp, hreadp⟩ := field_eq_ok.1 hposition
    obtain ⟨y, hy, hready⟩ := field_eq_ok.1 hvar
    obtain ⟨g, hg, hreadg, hlog⟩ := readLog_eq_ok.1 hlog
    split at h
    · exact absurd h (by simp)
    · next hrange =>
      obtain ⟨leaf, hleaf, h⟩ := bind_eq_ok.1 h
      split at h
      · exact absurd h (by simp)
      · next hraw =>
        obtain ⟨rfl, rfl⟩ : var' = var ∧ log' = log := by simpa using h
        obtain rfl : leaf.raw = position := not_not.1 hraw
        exact ⟨p, y, g, leaf.raw, expectFields_eq_ok.1 hcount, hp, hreadp, hy, hready, hg, hreadg,
          hlog, by omega, by omega, format_liftM_eq_ok.1 hleaf⟩
  · rintro ⟨p, y, g, position, hlen, hp, hreadp, hy, hready, hg, hreadg, hlog, hpos, hle, hleaf⟩
    rw [expectFields_eq_ok.2 hlen, ok_bind, field_eq_ok.2 ⟨p, hp, hreadp⟩, ok_bind,
      field_eq_ok.2 ⟨y, hy, hready⟩, ok_bind, readLog_eq_ok.2 ⟨g, hg, hreadg, hlog⟩, ok_bind,
      if_neg (by omega)]
    simp only [hleaf, format_liftM_ok, ok_bind]
    rw [if_neg (not_not.2 rfl)]
    rfl

/-- Weights that are read are the exponentials of the logarithms at every third field. -/
theorem readWeighted_logs {t : Slots NodeId} {r : Record} {j size : Nat} {es : List (Element × W)}
    (h : readWeighted t r j size = .ok es) : ∃ ls : List W, ls.length = size ∧
      es.map Prod.snd = ls.map Weight.exp ∧
      ∀ k l, ls[k]? = some l → readLog r (j + 3 * k + 2) = .ok l := by
  induction size generalizing j es with
  | zero =>
    obtain rfl := Except.ok.inj h
    exact ⟨[], rfl, rfl, by simp⟩
  | succ size ih =>
    unfold readWeighted at h
    obtain ⟨e, -, h⟩ := bind_eq_ok.1 h
    obtain ⟨l, hl, h⟩ := bind_eq_ok.1 h
    obtain ⟨rest, hrest, h⟩ := bind_eq_ok.1 h
    obtain rfl := Except.ok.inj h
    obtain ⟨ls, hlen, hexp, hlogs⟩ := ih hrest
    refine ⟨l :: ls, congrArg (· + 1) hlen, congrArg (Weight.exp l :: ·) hexp, ?_⟩
    intro k l' hk
    cases k with
    | zero =>
      obtain rfl := Option.some_inj.1 hk
      exact hl
    | succ k =>
      have hnext := hlogs k l' hk
      rwa [show j + 3 + 3 * k + 2 = j + 3 * (k + 1) + 2 by omega] at hnext

/-- Weights that are read are the exponentials of logarithms of probabilities. -/
theorem readWeighted_isLogProbability {t : Slots NodeId} {r : Record} {j size : Nat}
    {es : List (Element × W)} (h : readWeighted t r j size = .ok es) : ∃ ls : List W,
      es.map Prod.snd = ls.map Weight.exp ∧ ∀ l ∈ ls, Weight.isLogProbability l = true := by
  obtain ⟨ls, -, hexp, hread⟩ := readWeighted_logs h
  refine ⟨ls, hexp, fun l hl => ?_⟩
  obtain ⟨k, hk⟩ := List.mem_iff_getElem?.1 hl
  obtain ⟨-, -, -, hlog⟩ := readLog_eq_ok.1 (hread k l hk)
  exact hlog

section

variable {le : W → W → Prop} (laws : Weight.Laws W le)
include laws

theorem readLog_eq {r : Record} {j : Nat} {l : W} (hl : Weight.isLogProbability l = true)
    (hget : r.fields[j]? = some (Weight.text l)) : readLog r j = .ok l :=
  readLog_eq_ok.2 ⟨_, hget, laws.read_text hl, hl⟩

/-- The fields of weighted elements are read as the elements and the exponentials. -/
theorem readWeighted_eq {r : Record} {es : List (Nat × Nat)} {logs : List W} {j : Nat}
    (hlen : logs.length = es.length) (hfields : r.fields.drop j = Figure.weightedFields es logs)
    (hes : ∀ x ∈ es, x.1 < ids.length ∧ x.2 < ids.length) (hword : ids.length ≤ Decimal.pow2 32)
    (hlogs : ∀ l ∈ logs, Weight.isLogProbability l = true) :
    readWeighted (.filled n ids) r j es.length
      = .ok ((es.map (Figure.element ids)).zip (logs.map Weight.exp)) := by
  induction es generalizing j logs with
  | nil => rfl
  | cons x es ih =>
    cases logs with
    | nil => exact absurd hlen (by simp)
    | cons l logs =>
      obtain ⟨hp, hs⟩ := hes x List.mem_cons_self
      have hget : ∀ k, r.fields[j + k]? = (Figure.weightedFields (x :: es) (l :: logs))[k]? := by
        intro k
        rw [← hfields, List.getElem?_drop]
      have helement : readElement (.filled n ids) r j = .ok (Figure.element ids x) :=
        readElement_eq (hget 0) (hget 1) (Nat.lt_of_lt_of_le hp hword) (Nat.lt_of_lt_of_le hs hword)
          (Slots.get_filled (getElem?_of_lt hp)) (Slots.get_filled (getElem?_of_lt hs))
      have hlog : readLog r (j + 2) = .ok l := readLog_eq laws (hlogs l List.mem_cons_self) (hget 2)
      have hrest : r.fields.drop (j + 3) = Figure.weightedFields es logs := by
        rw [← List.drop_drop, hfields]
        rfl
      rw [List.length_cons, readWeighted, helement, ok_bind, hlog, ok_bind,
        ih (Nat.succ.inj hlen) hrest (fun y hy => hes y (List.mem_cons_of_mem _ hy))
          fun y hy => hlogs y (List.mem_cons_of_mem _ hy)]
      rfl

/-- The row of a TRUE node is read as its variable and its logarithm. -/
theorem readTop_eq (hs : s.Sound) (hwords : s.vtree.Addressable) {leaf : VtreeId}
    {var : Nat} (hleaf : s.vtree.leafOf var = .ok leaf) {l : W}
    (hl : Weight.isLogProbability l = true) {r : Record}
    (hfields : r.fields = [['T'], natField i, natField leaf.raw, natField var, Weight.text l]) :
    s.readTop r i = .ok (var, l) := by
  have hrange := hs.vtree.leafOf_range hleaf
  have hn : s.vtree.numVars < Decimal.pow2 31 := hwords
  have hpow : Decimal.pow2 32 = 2 * Decimal.pow2 31 := by decide
  have hposition : readWord? (natField leaf.raw) = some leaf.raw :=
    readWord?_natField (hs.raw_lt_word hwords (hs.vtree.leafOf_iff.1 hleaf))
  have hvar : readWord? (natField var) = some var := readWord?_natField (by omega)
  obtain ⟨line, fs⟩ := r
  obtain rfl := hfields
  exact readTop_iff.2 ⟨_, _, _, leaf.raw, rfl, rfl, hposition, rfl, hvar, rfl, laws.read_text hl, hl,
    hrange.1, hrange.2, hleaf⟩

/-- The row of a TRUE node makes a TRUE node. -/
theorem buildPsdd_top (hs : s.Sound) (hwords : s.vtree.Addressable) {leaf : VtreeId}
    {θ : Theta W} (hθ : θ.Normalizable) {r : Record}
    (hrow : (Figure.top (some leaf)).PsddRow s.vtree i (some θ) r.fields) (t : Slots NodeId) :
    ∃ θ', (Figure.top (some leaf)).Reread (some θ) (some θ') ∧ θ'.length = 2 ∧
      (∃ var, s.vtree.leafOf var = .ok leaf) ∧ s.buildPsdd t r i
        = (.ok ⟨s.numNodes⟩, s.make ⟨.top (some leaf), some θ'⟩ false) := by
  generalize hfields : r.fields = fs at hrow
  cases hrow with
  | top leaf var θ l hleaf hl =>
    have hlog := Theta.isLogProbability_logs laws hθ l (List.mem_of_getElem? hl)
    obtain ⟨θ', hbernoulli, hweights⟩ := Theta.exists_bernoulli laws.expProbability hlog
    have hlen : θ'.length = 2 := by
      unfold Theta.length
      rw [hweights]
      rfl
    refine ⟨θ', .top _ θ θ' l hl hweights, hlen, ⟨var, hleaf⟩, ?_⟩
    unfold buildPsdd withTheta
    rw [if_pos (tag_eq hfields), readTop_eq laws hs hwords hleaf hlog hfields]
    simp only [hbernoulli, newTop_made hleaf hlen]
    rfl

/-- The row of a decision is read as its vtree node and its elements, each with the exponential of
its logarithm. -/
theorem readWeightedDecision_eq (hs : s.Sound) (hwords : s.vtree.Addressable) {v : VtreeId}
    {es : List (Nat × Nat)} {logs : List W} (hloglen : logs.length = es.length)
    (hlogs : ∀ l ∈ logs, Weight.isLogProbability l = true)
    (hes : ∀ x ∈ es, x.1 < ids.length ∧ x.2 < ids.length) (hword : ids.length ≤ Decimal.pow2 32)
    (hsize : es.length < Decimal.pow2 60) (hseated : s.Seated v (es.map (Figure.element ids)))
    {r : Record} (hfields : r.fields = ['D'] :: natField i :: natField v.raw ::
      natField es.length :: Figure.weightedFields es logs) :
    s.readWeightedDecision (.filled n ids) r i
      = .ok (v, (es.map (Figure.element ids)).zip (logs.map Weight.exp)) := by
  obtain ⟨k, l, l', hsub, hsits⟩ := hseated
  have hfork : s.readFork r = .ok (v, l, l') :=
    readFork_eq hsub (by rw [hfields]; rfl) (hs.raw_lt_word hwords hsub)
  have hread : readSize 3 r = .ok es.length := by
    apply readSize_eq (by rw [hfields]; rfl) (by decide) hsize
    rw [hfields]
    simp only [List.length_cons, Figure.length_weightedFields hloglen]
    omega
  have hweighted := readWeighted_eq (n := n) (r := r) (j := 4) laws hloglen
    (by rw [hfields]; rfl) hes hword hlogs
  have hfst : ((es.map (Figure.element ids)).zip (logs.map Weight.exp)).map Prod.fst
      = es.map (Figure.element ids) := List.map_fst_zip (by simp [hloglen])
  exact readWeightedDecision_iff.2 ⟨l, l', es.length, hfork, hread, hweighted, hfst.symm ▸ hsits⟩

/-- The row of a decision makes a decision. -/
theorem buildPsdd_decision (hs : s.Sound) (hwords : s.vtree.Addressable) {v : VtreeId}
    {es : List (Nat × Nat)} {θ : Theta W} (hθ : θ.Normalizable)
    (hes : ∀ x ∈ es, x.1 < ids.length ∧ x.2 < ids.length) (hword : ids.length ≤ Decimal.pow2 32)
    (hsize : es.length < Decimal.pow2 60) (hseated : s.Seated v (es.map (Figure.element ids)))
    {b : Bool} (hflag : s.nonePositive (es.map (Figure.element ids)) = .ok b) {r : Record}
    (hrow : (Figure.decision v es).PsddRow s.vtree i (some θ) r.fields) :
    ∃ θ', (Figure.decision v es).Reread (some θ) (some θ') ∧ θ'.length = es.length ∧
      s.buildPsdd (.filled n ids) r i
        = (.ok ⟨s.numNodes⟩, s.make ⟨.decision v (es.map (Figure.element ids)), some θ'⟩ b) := by
  generalize hfields : r.fields = fs at hrow
  cases hrow with
  | decision _ _ _ hlen =>
    have hlogs := Theta.isLogProbability_logs laws hθ
    have hloglen : θ.logs.length = es.length := (Theta.length_logs θ).trans hlen
    obtain ⟨θ', hof, hweights⟩ := Theta.exists_ofWeights laws.expProbability hlogs
    have hlen' : θ'.length = es.length := by
      unfold Theta.length
      rw [hweights, List.length_map, hloglen]
    refine ⟨θ', .decision v es θ θ' hweights, hlen', ?_⟩
    have htag : tag r = ['D'] := tag_eq hfields
    have hread := readWeightedDecision_eq (n := n) laws hs hwords hloglen hlogs hes hword hsize
      hseated hfields
    -- elements and weights are zipped by the reader and taken apart again for the store
    have hfst : ((es.map (Figure.element ids)).zip (θ.logs.map Weight.exp)).map Prod.fst
        = es.map (Figure.element ids) := List.map_fst_zip (by simp [hloglen])
    have hsnd : ((es.map (Figure.element ids)).zip (θ.logs.map Weight.exp)).map Prod.snd
        = θ.logs.map Weight.exp := List.map_snd_zip (by simp [hloglen])
    unfold buildPsdd withTheta
    rw [if_neg (by rw [htag]; decide), if_pos htag, hread]
    simp only [hfst, hsnd, hof]
    rw [newDecision_made hseated.isFork (by rw [hlen', List.length_map]) hflag]
    rfl

end

end Store
end Sentential
