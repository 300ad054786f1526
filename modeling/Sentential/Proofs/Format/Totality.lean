import Sentential.Proofs.Format.PsddGrammar
import Sentential.Proofs.Format.VtreeTable

/-!
# Reading any text

Whatever a text says, its reader comes to an answer or to an error that is about the text
(`NoFault`): no operation that the readers call faults. For vtrees this is known from
`Listing.noFault_ofFileText`. For diagrams each call is preceded by checks, and the lemmas below go
through the calls one by one: what a record refers to are nodes of the table, and these are nodes of
the store (`Sound.exists_fits`, `Sound.exists_sitsAt`); the variables of literals and TRUE nodes have
leaves; weights are exponentials of logarithms of probabilities.

`Reached.readsSafely` collects this, together with what is said about numbers: fields are looked for
within their records, differences do not fall below zero, and sizes are words. That the walks come
to an end is part of it: one that would not is a fault of its own.
-/

namespace Sentential

open Text (Field Record)

/-! ## Lines of diagram files -/

namespace Store

open Format Indexing Vtree

variable {W : Type} [Weight W] {s : Store W} {t : Slots NodeId} {id : NodeId} {r : Record} {i : Nat}

theorem noFault_readFork (s : Store W) (r : Record) : NoFault (s.readFork r) := by
  unfold readFork
  refine .bind (noFault_field _ _ _ _) fun position _ => ?_
  split
  · exact .ok _
  · exact .defect _ _
  · exact .defect _ _

theorem noFault_readSize (width : Nat) (r : Record) : NoFault (readSize width r) := by
  unfold readSize
  refine .bind (noFault_field _ _ _ _) fun size _ => ?_
  split
  · exact .bind (.defect _ _) fun _ h => absurd h (by simp)
  · exact .bind (noFault_expectFields _ _) fun _ _ => .ok size

theorem noFault_readElement (t : Slots NodeId) (r : Record) (i : Nat) :
    NoFault (readElement t r i) := by
  unfold readElement
  refine .bind (noFault_field _ _ _ _) fun p _ => .bind (t.noFault_get _ _) fun prime _ => ?_
  exact .bind (noFault_field _ _ _ _) fun q _ => .bind (t.noFault_get _ _) fun sub _ => .ok _

theorem noFault_readElements (t : Slots NodeId) (r : Record) (i size : Nat) :
    NoFault (readElements t r i size) := by
  induction size generalizing i with
  | zero => exact .ok _
  | succ size ih =>
    unfold readElements
    exact .bind (noFault_readElement t r i) fun e _ => .bind (ih _) fun es _ => .ok _

theorem noFault_readLog (r : Record) (i : Nat) : NoFault (readLog r i : Except _ W) := by
  unfold readLog
  refine .bind (noFault_field _ _ _ _) fun w _ => ?_
  split
  · exact .ok _
  · exact .defect _ _

theorem noFault_readWeighted (t : Slots NodeId) (r : Record) (i size : Nat) :
    NoFault (readWeighted t r i size : Except _ (List (Element × W))) := by
  induction size generalizing i with
  | zero => exact .ok _
  | succ size ih =>
    unfold readWeighted
    refine .bind (noFault_readElement t r i) fun e _ => .bind (noFault_readLog r _) fun w _ => ?_
    exact .bind (ih _) fun es _ => .ok _

/-- Conditions that answer for every node below some elements answer for the elements. -/
theorem exists_allElements {p q : NodeId → Except Fault Bool} {es : List Element}
    (h : ∀ x ∈ nodesBelow es, (∃ b, p x = .ok b) ∧ ∃ b, q x = .ok b) :
    ∃ b, allElements p q es = .ok b := by
  induction es with
  | nil => exact ⟨true, rfl⟩
  | cons e es ih =>
    obtain ⟨⟨hprime, hsub⟩, hes⟩ := forall_nodesBelow_cons.1 h
    obtain ⟨b, hb⟩ := hprime.1
    obtain ⟨c, hc⟩ := hsub.2
    obtain ⟨d, hd⟩ := ih hes
    rw [allElements, hb, ok_bind]
    cases b with
    | false => exact ⟨false, rfl⟩
    | true =>
      simp only [if_true]
      rw [hc, ok_bind]
      cases c with
      | false => exact ⟨false, rfl⟩
      | true => exact ⟨d, hd⟩

theorem buildPsdd_of_readTop {var : Nat} {log : W} {θ : Theta W} {leaf : VtreeId}
    (htag : tag r = ['T']) (hread : s.readTop r i = .ok (var, log))
    (hθ : Theta.bernoulli (Weight.exp log) = .ok θ) (hleaf : s.vtree.leafOf var = .ok leaf) :
    s.buildPsdd t r i = (.ok ⟨s.numNodes⟩, s.make ⟨.top (some leaf), some θ⟩ false) := by
  have hlen : θ.length = 2 := congrArg List.length (ofWeights_eq_ok hθ)
  unfold buildPsdd withTheta
  rw [if_pos htag, hread]
  simp only [hθ, newTop_made hleaf hlen]
  rfl

theorem buildPsdd_of_readWeightedDecision {v : VtreeId} {ws : List (Element × W)} {θ : Theta W}
    {b : Bool} (htag : tag r = ['D']) (hread : s.readWeightedDecision t r i = .ok (v, ws))
    (hθ : Theta.ofWeights (ws.map Prod.snd) = .ok θ)
    (hflag : s.nonePositive (ws.map Prod.fst) = .ok b) : s.buildPsdd t r i
      = (.ok ⟨s.numNodes⟩, s.make ⟨.decision v (ws.map Prod.fst), some θ⟩ b) := by
  obtain ⟨⟨k, left, right, hsub, -⟩, -⟩ := readWeightedDecision_eq_ok hread
  have hlen : θ.length = (ws.map Prod.fst).length := by
    unfold Theta.length
    rw [ofWeights_eq_ok hθ, List.length_map, List.length_map]
  unfold buildPsdd withTheta
  rw [if_neg (by rw [htag]; decide), if_pos htag, hread]
  simp only [hθ, newDecision_made ⟨k, left, right, hsub⟩ hlen hflag]
  rfl

section

variable (hs : s.Sound)
include hs

/-- It can be asked of every node whether it is free of variables outside a side. -/
theorem Sound.exists_fits (hid : s.Knows id) (side : VtreeId) : ∃ b, s.fits side id = .ok b := by
  unfold fits
  rcases hs.vtreeOf_cases hid with hnone | ⟨v, u, hv, hu⟩
  · rw [hnone]
    exact ⟨true, rfl⟩
  · rw [hv, ok_bind]
    exact ⟨_, hs.vtree.isUnder_eq hu side⟩

theorem Sound.exists_sitsAt (hid : s.Knows id) (side : VtreeId) :
    ∃ b, s.sitsAt side id = .ok b := by
  unfold sitsAt
  rcases hs.vtreeOf_cases hid with hnone | ⟨v, u, hv, hu⟩
  · rw [hnone]
    exact ⟨true, rfl⟩
  · rw [hv]
    exact ⟨_, rfl⟩

/-- A literal that is a node has a leaf. -/
theorem noFault_readLiteral (r : Record) (i : Nat) : NoFault (s.readLiteral r i) := by
  unfold readLiteral
  refine .bind (noFault_field _ _ _ _) fun l _ => ?_
  split
  · exact .defect _ _
  · next node hnode =>
    obtain ⟨hnonzero, hle⟩ := exists_literal?.1 ⟨node, hnode⟩
    have hleaf := hs.vtree.exists_leafOf (Int.natAbs_pos.2 hnonzero) hle
    refine .bind (noFault_field _ _ _ _) fun position _ => .bind (.liftM hleaf) fun leaf _ => ?_
    split
    · exact .misplaced _ _
    · exact .ok _

theorem noFault_readSddPlain (r : Record) (i : Nat) : NoFault (s.readSddPlain r i) := by
  unfold readSddPlain
  split
  · exact .bind (noFault_expectFields _ _) fun _ _ => .ok _
  · exact .bind (noFault_expectFields _ _) fun _ _ => .ok _
  · exact .bind (noFault_expectFields _ _) fun _ _ => noFault_readLiteral hs r i
  · exact .defect _ _

theorem noFault_readPsddPlain (r : Record) (i : Nat) : NoFault (s.readPsddPlain r i) := by
  unfold readPsddPlain
  split
  · exact .bind (noFault_expectFields _ _) fun _ _ => .ok _
  · exact .bind (noFault_expectFields _ _) fun _ _ => noFault_readLiteral hs r i
  · exact .defect _ _

/-- A variable of the vtree has a leaf. -/
theorem noFault_readTop (r : Record) (i : Nat) : NoFault (s.readTop r i) := by
  unfold readTop
  refine .bind (noFault_expectFields _ _) fun _ _ => .bind (noFault_field _ _ _ _) fun position _ => ?_
  refine .bind (noFault_field _ _ _ _) fun var _ => .bind (noFault_readLog _ _) fun w _ => ?_
  split
  · exact .bind (.defect _ _) fun _ h => absurd h (by simp)
  · next hrange =>
    have hleaf : ∃ leaf, s.vtree.leafOf var = .ok leaf := by
      rw [not_or, Nat.not_lt] at hrange
      exact hs.vtree.exists_leafOf (Nat.pos_of_ne_zero hrange.1) hrange.2
    refine .bind (.liftM hleaf) fun leaf _ => ?_
    split
    · exact .bind (.misplaced _ _) fun _ h => absurd h (by simp)
    · exact .ok _

variable (hknown : t.All s.Knows)
include hknown

theorem noFault_readDecision (r : Record) (i : Nat) : NoFault (s.readDecision t r i) := by
  unfold readDecision
  refine .bind (noFault_readFork s r) fun ⟨v, left, right⟩ _ => ?_
  refine .bind (noFault_readSize 2 r) fun size _ => ?_
  refine .bind (noFault_readElements t r 4 size) fun es hes => ?_
  have hfits : ∃ b, allElements (s.fits left.id) (s.fits right.id) es = .ok b := by
    refine exists_allElements fun x hx => ?_
    have hx := readElements_all hknown hes x hx
    exact ⟨hs.exists_fits hx left.id, hs.exists_fits hx right.id⟩
  refine .bind (.liftM hfits) fun b _ => ?_
  split
  · exact .ok _
  · exact .misplaced _ _

theorem noFault_readWeightedDecision (r : Record) (i : Nat) :
    NoFault (s.readWeightedDecision t r i) := by
  unfold readWeightedDecision
  refine .bind (noFault_readFork s r) fun ⟨v, left, right⟩ _ => ?_
  refine .bind (noFault_readSize 3 r) fun size _ => ?_
  refine .bind (noFault_readWeighted t r 4 size) fun es hes => ?_
  have hsits : ∃ b, allElements (s.sitsAt left.id) (s.sitsAt right.id) (es.map Prod.fst) = .ok b := by
    refine exists_allElements fun x hx => ?_
    have hx := readWeighted_all hknown hes x hx
    exact ⟨hs.exists_sitsAt hx left.id, hs.exists_sitsAt hx right.id⟩
  refine .bind (.liftM hsits) fun b _ => ?_
  split
  · exact .ok _
  · exact .misplaced _ _

/-- A decision line is looked up at a fork, with elements that the store knows. -/
theorem noFault_buildSdd (r : Record) (i : Nat) : NoFault (s.buildSdd t r i).1 := by
  unfold buildSdd
  split
  · cases hline : s.readDecision t r i with
    | error e => exact (noFault_readDecision hs hknown r i).of_eq_error hline
    | ok d =>
      obtain ⟨v, es⟩ := d
      obtain ⟨⟨j, left, right, hsub, -⟩, hall⟩ := readDecision_eq_ok hline
      have hbelow : s.KnowsBelow es := hall _ hknown
      obtain ⟨id, s', b, hlookup, -⟩ := hs.exists_lookup ⟨j, left, right, hsub⟩ hbelow
      exact .liftM ⟨id, congrArg Prod.fst hlookup⟩
  · exact noFault_readSddPlain hs r i

/-- A line makes a node with weights that are probabilities, at a leaf or a fork of the vtree. -/
theorem noFault_buildPsdd (hexp : Weight.ExpProbability W) (r : Record) (i : Nat) :
    NoFault (s.buildPsdd t r i).1 := by
  by_cases htop : tag r = ['T']
  · cases hline : s.readTop r i with
    | error e =>
      unfold buildPsdd
      rw [if_pos htop, hline]
      exact (noFault_readTop hs r i).of_eq_error hline
    | ok d =>
      obtain ⟨var, log⟩ := d
      obtain ⟨_, _, _, position, _, _, _, _, _, _, _, hlog, -, -, hleaf⟩ := readTop_iff.1 hline
      obtain ⟨θ, hθ, -⟩ := Theta.exists_bernoulli hexp hlog
      rw [buildPsdd_of_readTop htop hline hθ hleaf]
      exact .ok _
  by_cases hdecision : tag r = ['D']
  · cases hline : s.readWeightedDecision t r i with
    | error e =>
      unfold buildPsdd
      rw [if_neg htop, if_pos hdecision, hline]
      exact (noFault_readWeightedDecision hs hknown r i).of_eq_error hline
    | ok d =>
      obtain ⟨v, es⟩ := d
      have hbelow : s.KnowsBelow (es.map Prod.fst) := (readWeightedDecision_eq_ok hline).2 _ hknown
      obtain ⟨left, right, size, -, -, hes, -⟩ := readWeightedDecision_iff.1 hline
      obtain ⟨ls, hweights, hlogs⟩ := readWeighted_isLogProbability hes
      obtain ⟨θ, hθ, -⟩ := Theta.exists_ofWeights hexp hlogs
      rw [← hweights] at hθ
      rw [buildPsdd_of_readWeightedDecision hdecision hline hθ (nonePositive_known hbelow)]
      exact .ok _
  · unfold buildPsdd
    rw [if_neg htop, if_neg hdecision]
    exact noFault_readPsddPlain hs r i

end

/-! ## Diagram files -/

/-- A reader of lines that deliver and do not fault does not fault. -/
theorem noFault_readText_of_delivers {tags : List Field}
    {build : Store W → Slots NodeId → Record → Nat → Except FormatError NodeId × Store W}
    (hbuild : ∀ s t r i, s.Sound → t.All s.Knows →
      NoFault (build s t r i).1 ∧ Delivers (fun _ _ => True) s (build s t r i))
    (hs : s.Sound) (text : List Char) : NoFault (readText tags build s text).1 := by
  refine noFault_readText (p := fun s t => s.Sound ∧ t.All s.Knows)
    (fun s t r i h => (hbuild s t r i h.1 h.2).1) ?_ (fun n => ⟨hs, Slots.all_ofCount _ n⟩) tags text
  intro s t r i id s' t' h hb hset
  have hd := (hbuild s t r i h.1 h.2).2
  rw [hb] at hd
  exact ⟨hd.1.sound h.1, (h.2.imp fun _ hx => hd.1.extends.knows hx).set (hd.2 id rfl) hset⟩

theorem noFault_readSdd (hs : s.Sound) (text : List Char) : NoFault (s.readSdd text).1 :=
  noFault_readText_of_delivers (fun _ _ r i hs hknown => ⟨noFault_buildSdd hs hknown r i,
    buildSdd_delivers (fun _ _ _ => trivial) hs hknown r i⟩) hs text

theorem noFault_readPsdd (hexp : Weight.ExpProbability W) (hs : s.Sound) (text : List Char) :
    NoFault (s.readPsdd text).1 :=
  noFault_readText_of_delivers (fun _ _ r i hs hknown => ⟨noFault_buildPsdd hs hknown hexp r i,
    buildPsdd_delivers (fun _ _ _ => trivial) hs hknown r i⟩) hs text

/-- Reading a text goes wrong only in ways that are errors about the text: the three readers do not
fault, nor does that of vtrees where it works with tables; every record has the first field that is
looked at, the fields of an element are looked for within the record at places that are words, and
what the check of a vtree counts are words, of which the smaller is subtracted. -/
structure ReadsSafely (s : Store W) (text : List Char) : Prop where
  vtree : NoFault (Vtree.ofFileText text)
  listing : NoFault (Vtree.Listing.ofFileText text)
  sdd : NoFault (s.readSdd text).1
  psdd : NoFault (s.readPsdd text).1
  tag : ∀ r ∈ Text.records text, r.fields ≠ []
  places : ∀ r width size, readSize width r = .ok size → r.fields.length < Decimal.pow2 64 ∧
    ∀ i < size, ∀ k < width, 4 + width * i + k < r.fields.length
  trees : ∀ trees root, Vtree.Gathers text trees root → trees.length ≤ Decimal.pow2 32 ∧
    (firstShared? root.id [] (trees.flatMap Tree.children) = none →
      root.size ≤ trees.length ∧ root.varCount < Decimal.pow2 32)

/-- The places of the fields of an element are within a decision line of the right length. -/
theorem place_lt {width size k : Nat} (hi : i < size) (hk : k < width) :
    4 + width * i + k < size * width + 4 := by
  have hle : width * (i + 1) ≤ width * size := Nat.mul_le_mul_left width hi
  rw [Nat.mul_succ, Nat.mul_comm width size] at hle
  omega

/-- In any state of a store every text can be read safely. -/
theorem Reached.readsSafely (h : s.Reached) (hexp : Weight.ExpProbability W) (text : List Char) :
    s.ReadsSafely text := by
  constructor
  case vtree => exact Vtree.noFault_ofFileText text
  case listing => exact Vtree.Listing.noFault_ofFileText text
  case sdd => exact noFault_readSdd h.sound text
  case psdd => exact noFault_readPsdd hexp h.sound text
  case tag => exact fun r hr => fields_ne_nil hr
  case places =>
    intro r width size hsize
    obtain ⟨-, -, -, hlt, hlen⟩ := readSize_iff.1 hsize
    rw [hlen]
    exact ⟨hlt, fun i hi k hk => place_lt hi hk⟩
  case trees => exact fun trees root hgathers => hgathers.sizes

/-- A text whose decision announces so many elements that no word counts their fields. -/
def brokenText : List Char := "psdd 2\nL 1 2 -2\nD 0 1 18446744073709551615 7 1 0\n".toList

theorem readsSafely_brokenText : sample.ReadsSafely brokenText ∧
    (sample.readPsdd brokenText).1 = .error (.defect 3 (.elementCount (Decimal.pow2 64 - 1))) :=
  ⟨built_sample.reached.readsSafely Extreme.laws.expProbability brokenText, by decide +kernel⟩

end Store
end Sentential
