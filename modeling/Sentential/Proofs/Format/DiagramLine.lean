import Sentential.Proofs.Format.Rows
import Sentential.Proofs.Store.Filling

/-!
# Lines that both diagram formats share

Reading back what both formats write alike: literals, the beginning of a decision, the numbers of
an element. Both readers insist that the elements of a decision fit the two sides of its vtree
node, each in its own sense (`NormalizedBy`), and what they ask depends on the figures of the
nodes alone.
-/

namespace Sentential

open Format Text

/-- The row of a node: a letter other than that of comments, the number of the node, and more. -/
theorem Text.isRow_node {c : Char} (hblank : isBlank c = false) (hc : c ≠ 'c') (i : Nat)
    {fs : List Field} (hfs : ∀ f ∈ fs, IsField f) : IsRow ([c] :: natField i :: fs) := by
  constructor
  · intro f hf
    rcases List.mem_cons.1 hf with rfl | hf
    · refine ⟨List.cons_ne_nil _ _, fun x hx => ?_⟩
      rw [List.mem_singleton.1 hx]
      exact hblank
    · rcases List.mem_cons.1 hf with rfl | hf
      · exact isField_natField i
      · exact hfs f hf
  · show (some c == some 'c') = false
    simpa using hc

namespace Store

variable {W : Type} [Weight W] {s s' : Store W} {id root : NodeId} {order ids : List NodeId}
  {figs : List Figure} {i : Nat}

/-! ## Sizes -/

/-- The ids of a store are words of 32 bits, and its lists of elements fit an address space of 63
bits, in which an element takes eight bytes. A program that keeps stores in memory has no others. -/
structure FitsWords (s : Store W) : Prop where
  nodes : s.numNodes ≤ Decimal.pow2 32
  elements : ∀ id es, s.elements id = .ok es → es.length < Decimal.pow2 60

theorem fitsWords_of_entries (hnodes : s.numNodes ≤ Decimal.pow2 32)
    (hall : ∀ e ∈ s.entries.toList, e.elements.length < Decimal.pow2 60) : s.FitsWords := by
  refine ⟨hnodes, fun id es hes => ?_⟩
  obtain ⟨e, he, rfl⟩ := elements_eq_ok.1 hes
  apply hall e
  rw [entry_eq_ok, ← Array.getElem?_toList] at he
  exact List.mem_of_getElem? he

theorem fitsWords_sample : sample.FitsWords := fitsWords_of_entries (by decide) (by decide)

/-- The numbers of some figures over the variables of a store fit their words. -/
structure WordSized (s : Store W) (figs : List Figure) : Prop where
  addressable : s.vtree.Addressable
  length : figs.length ≤ Decimal.pow2 32
  elements : ∀ fig ∈ figs, fig.elements.length < Decimal.pow2 60

theorem WordSized.congr (h : s.WordSized figs) (hvtree : s'.vtree = s.vtree) : s'.WordSized figs := by
  exact ⟨hvtree ▸ h.addressable, h.length, h.elements⟩

theorem Sound.addressable (hs : s.Sound) (hwords : s.FitsWords) : s.vtree.Addressable := by
  have hbase : 2 * s.vtree.numVars + 2 ≤ Decimal.pow2 32 :=
    Nat.le_trans hs.base.baseCount_le hwords.nodes
  have hpow : Decimal.pow2 32 = 2 * Decimal.pow2 31 := by decide
  unfold Vtree.Addressable
  omega

theorem Outlines.wordSized (h : s.Outlines root order figs) (hs : s.Sound) (hwords : s.FitsWords) :
    s.WordSized figs := by
  refine ⟨hs.addressable hwords, ?_, fun fig hfig => ?_⟩
  · rw [h.length]
    exact Nat.le_trans (length_le_of_known h.nodup h.known) hwords.nodes
  · obtain ⟨i, hi⟩ := List.mem_iff_getElem?.1 hfig
    obtain ⟨id, hid⟩ := h.getElem hi
    obtain ⟨e, he, hkind⟩ := kind_eq_ok.1 (h.kinds i id fig hid hi).1
    have hlen := hwords.elements id _ (elements_of_entry he)
    have helements : e.elements = fig.elements.map (Figure.element order) := by
      rw [← Figure.elements_kind, ← hkind]
      rfl
    rwa [helements, List.length_map] at hlen

/-! ## Fields -/

/-- The vtree nodes of a store with so few variables have numbers that are words. -/
theorem Sound.raw_lt_word (hs : s.Sound) (hwords : s.vtree.Addressable) {v : VtreeId}
    {t : Vtree.Tree} (hv : s.vtree.subtree? v = some t) : v.raw < Decimal.pow2 32 := by
  have hlt := hs.vtree.raw_lt hv
  have hn : s.vtree.numVars < Decimal.pow2 31 := hwords
  have hpow : Decimal.pow2 32 = 2 * Decimal.pow2 31 := by decide
  omega

theorem tag_eq {r : Record} {t : Field} {rest : List Field} (h : r.fields = t :: rest) :
    tag r = t := by
  unfold tag
  rw [h]
  rfl

/-- A field that holds a word is read as the word. -/
theorem field_natField {name : FieldName} {r : Record} {j k : Nat}
    (hget : r.fields[j]? = some (natField k)) (hword : k < Decimal.pow2 32) :
    field readWord? name r j = .ok k := field_eq_ok.2 ⟨_, hget, readWord?_natField hword⟩

theorem readLiteral_iff  {r : Record} : s.readLiteral r i = .ok id ↔
    ∃ (g p : Field) (position : Nat) (l : Literal), r.fields[3]? = some g ∧
      Decimal.readInteger? g = some l.value ∧ r.fields[2]? = some p ∧
      readWord? p = some position ∧ s.literal? l.value = some id ∧
      s.vtree.leafOf l.var = .ok ⟨position⟩ := by
  unfold readLiteral
  constructor
  · intro h
    obtain ⟨value, hvalue, h⟩ := bind_eq_ok.1 h
    obtain ⟨g, hg, hreadg⟩ := field_eq_ok.1 hvalue
    cases hliteral : s.literal? value with
    | none => exact absurd h (by simp [hliteral])
    | some node =>
      simp only [hliteral] at h
      obtain ⟨position, hposition, h⟩ := bind_eq_ok.1 h
      obtain ⟨p, hp, hreadp⟩ := field_eq_ok.1 hposition
      obtain ⟨leaf, hleaf, h⟩ := bind_eq_ok.1 h
      split at h
      · exact absurd h (by simp)
      · next hraw =>
        obtain rfl : node = id := by simpa using h
        have hnonzero : value ≠ 0 := (exists_literal?.1 ⟨node, hliteral⟩).1
        obtain rfl : leaf.raw = position := not_not.1 hraw
        exact ⟨g, p, leaf.raw, ⟨value, hnonzero⟩, hg, hreadg, hp, hreadp, hliteral,
          format_liftM_eq_ok.1 hleaf⟩
  · rintro ⟨g, p, position, l, hg, hreadg, hp, hreadp, hliteral, hleaf⟩
    rw [field_eq_ok.2 ⟨g, hg, hreadg⟩, ok_bind]
    simp only [hliteral]
    rw [field_eq_ok.2 ⟨p, hp, hreadp⟩, ok_bind, show s.vtree.leafOf l.value.natAbs = _ from hleaf,
      format_liftM_ok, ok_bind, if_neg (not_not.2 rfl)]
    rfl

/-- The row of a literal is read as the literal. -/
theorem readLiteral_eq (hs : s.Sound) (hwords : s.vtree.Addressable) {l : Literal}
    (hid : s.literal? l.value = some id) {leaf : VtreeId} (hleaf : s.vtree.leafOf l.var = .ok leaf)
    {r : Record} (hfields : r.fields = [['L'], natField i, natField leaf.raw, intField l.value]) :
    s.readLiteral r i = .ok id := by
  have hrange := exists_literal?.1 ⟨id, hid⟩
  have hn : s.varCount < Decimal.pow2 31 := hwords
  have hvalue : Decimal.readInteger? (intField l.value) = some l.value :=
    Decimal.readInteger?_intField (by omega) (by omega)
  have hposition : readWord? (natField leaf.raw) = some leaf.raw :=
    readWord?_natField (hs.raw_lt_word hwords (hs.vtree.leafOf_iff.1 hleaf))
  obtain ⟨line, fs⟩ := r
  obtain rfl := hfields
  exact readLiteral_iff.2 ⟨_, _, leaf.raw, l, rfl, hvalue, rfl, hposition, hid, hleaf⟩

theorem readElement_eq {t : Slots NodeId} {r : Record} {j p q : Nat} {prime sub : NodeId}
    (hp : r.fields[j]? = some (natField p)) (hq : r.fields[j + 1]? = some (natField q))
    (hpw : p < Decimal.pow2 32) (hqw : q < Decimal.pow2 32) (hprime : t.get r.line p = .ok prime)
    (hsub : t.get r.line q = .ok sub) : readElement t r j = .ok ⟨prime, sub⟩ := by
  unfold readElement
  rw [field_natField hp hpw, ok_bind, hprime, ok_bind, field_natField hq hqw, ok_bind, hsub]
  rfl

theorem readFork_iff {v : VtreeId} {r : Record} {left right : Vtree.Tree} :
    s.readFork r = .ok (v, left, right) ↔ ∃ p i, r.fields[2]? = some p ∧ readWord? p = some v.raw ∧
      s.vtree.subtree? v = some (.fork i left right) := by
  constructor
  · intro h
    obtain ⟨i, hsub⟩ := readFork_eq_ok h
    obtain ⟨position, hposition, h⟩ := bind_eq_ok.1 h
    obtain ⟨p, hp, hread⟩ := field_eq_ok.1 hposition
    refine ⟨p, i, hp, ?_, hsub⟩
    split at h
    · obtain ⟨rfl, -⟩ : ⟨position⟩ = v ∧ _ := by simpa using h
      exact hread
    · exact absurd h (by simp)
    · exact absurd h (by simp)
  · rintro ⟨p, i, hp, hread, hsub⟩
    unfold readFork
    rw [field_eq_ok.2 ⟨p, hp, hread⟩, ok_bind]
    simp only [show s.vtree.subtree? ⟨v.raw⟩ = _ from hsub]
    rfl

theorem readSize_iff {r : Record} {width size : Nat} : readSize width r = .ok size ↔
    ∃ k, r.fields[3]? = some k ∧ readCount? k = some size ∧ size * width + 4 < Decimal.pow2 64 ∧
      r.fields.length = size * width + 4 := by
  unfold readSize
  constructor
  · intro h
    obtain ⟨size', hsize, h⟩ := bind_eq_ok.1 h
    obtain ⟨k, hk, hread⟩ := field_eq_ok.1 hsize
    split at h
    · exact absurd h (by simp)
    · next hlt =>
      obtain ⟨_, hcount, h⟩ := bind_eq_ok.1 h
      obtain rfl : size' = size := by simpa using h
      exact ⟨k, hk, hread, Nat.lt_of_not_le hlt, expectFields_eq_ok.1 hcount⟩
  · rintro ⟨k, hk, hread, hlt, hlen⟩
    rw [field_eq_ok.2 ⟨k, hk, hread⟩, ok_bind, if_neg (Nat.not_le.2 hlt)]
    simp only [expectFields_eq_ok.2 hlen]
    rfl

theorem readFork_eq {v : VtreeId} {r : Record} {k : VtreeId} {l l' : Vtree.Tree}
    (hv : s.vtree.subtree? v = some (.fork k l l')) (hget : r.fields[2]? = some (natField v.raw))
    (hword : v.raw < Decimal.pow2 32) : s.readFork r = .ok (v, l, l') :=
  readFork_iff.2 ⟨natField v.raw, k, hget, readWord?_natField hword, hv⟩

theorem readSize_eq {r : Record} {size width : Nat} (hget : r.fields[3]? = some (natField size))
    (hwidth : width ≤ 3) (hsize : size < Decimal.pow2 60)
    (hlen : r.fields.length = size * width + 4) : readSize width r = .ok size := by
  -- neither the count nor the number of fields that it asks for leaves the words of 64 bits
  have hpow : Decimal.pow2 64 = 16 * Decimal.pow2 60 := by decide
  have hbound : size * width ≤ size * 3 := Nat.mul_le_mul_left size hwidth
  have hpos : 1 ≤ Decimal.pow2 60 := Decimal.pow2_pos 60
  exact readSize_iff.2 ⟨_, hget, readCount?_natField (by omega), by omega, hlen⟩

/-! ## Sides -/

/-- The two sides of a vtree node take the primes and the subs of some elements, in the sense of
`fits`. -/
def NormalizedBy (fits : VtreeId → NodeId → Except Fault Bool) (s : Store W) (v : VtreeId)
    (es : List Element) : Prop :=
  ∃ i l r, s.vtree.subtree? v = some (.fork i l r) ∧
    allElements (fits l.id) (fits r.id) es = .ok true

theorem NormalizedBy.isFork {fits : VtreeId → NodeId → Except Fault Bool} {v : VtreeId}
    {es : List Element} (h : s.NormalizedBy fits v es) : s.vtree.IsFork v := by
  obtain ⟨i, l, r, hsub, -⟩ := h
  exact ⟨i, l, r, hsub⟩

/-- All elements satisfy the conditions if and only if every prime and every sub does. -/
theorem allElements_eq_true {p q : NodeId → Except Fault Bool} {es : List Element} :
    allElements p q es = .ok true ↔ ∀ x ∈ es, p x.prime = .ok true ∧ q x.sub = .ok true := by
  induction es with
  | nil => simp [allElements]
  | cons x es ih =>
    rw [List.forall_mem_cons, ← ih, allElements]
    constructor
    · intro h
      obtain ⟨b, hb, h⟩ := bind_eq_ok.1 h
      cases b with
      | false => exact absurd h (by simp)
      | true =>
        obtain ⟨c, hc, h⟩ := bind_eq_ok.1 h
        cases c with
        | false => exact absurd h (by simp)
        | true => exact ⟨⟨hb, hc⟩, h⟩
    · rintro ⟨⟨hp, hq⟩, hes⟩
      rw [hp, ok_bind]
      simp only [if_true]
      rw [hq, ok_bind]
      exact hes

theorem allElements_congr {α : Type} {p q p' q' : NodeId → Except Fault Bool} {f f' : α → Element}
    {es : List α} (h : ∀ x ∈ es, p (f x).prime = p' (f' x).prime ∧ q (f x).sub = q' (f' x).sub) :
    allElements p q (es.map f) = allElements p' q' (es.map f') := by
  induction es with
  | nil => rfl
  | cons x es ih =>
    obtain ⟨hp, hq⟩ := h x List.mem_cons_self
    rw [List.map_cons, List.map_cons, allElements, allElements, hp, hq,
      ih fun y hy => h y (List.mem_cons_of_mem _ hy)]

/-- Elements are normalized wherever the nodes of the same numbers belong to the same sides. -/
theorem NormalizedBy.transport {fits fits' : VtreeId → NodeId → Except Fault Bool}
    (hvtree : s'.vtree = s.vtree) {v : VtreeId} {es : List (Nat × Nat)}
    (h : s.NormalizedBy fits v (es.map (Figure.element order))) {n : Nat}
    (hes : ∀ x ∈ es, x.1 < n ∧ x.2 < n)
    (hfits : ∀ i < n, ∀ side, fits' side (ids.getD i .bottom) = fits side (order.getD i .bottom)) :
    s'.NormalizedBy fits' v (es.map (Figure.element ids)) := by
  obtain ⟨k, l, r, hsub, hall⟩ := h
  refine ⟨k, l, r, hvtree ▸ hsub, ?_⟩
  rw [← hall]
  apply allElements_congr
  intro x hx
  obtain ⟨hprime, hsub⟩ := hes x hx
  exact ⟨hfits x.1 hprime l.id, hfits x.2 hsub r.id⟩

/-! ## Rows -/

theorem isRow_header {tag : Field} (htag : IsField tag) (hc : tag.head? ≠ some 'c') (n : Nat) :
    IsRow [tag, natField n] := by
  constructor
  · intro f hf
    rcases List.mem_cons.1 hf with rfl | hf
    · exact htag
    · rw [List.mem_singleton.1 hf]
      exact isField_natField n
  · show (tag.head? == some 'c') = false
    simpa using hc

/-- Reading the rows of an outline builds on an invariant of the nodes so far. -/
theorem Outlines.readRows (h : s.Outlines root order figs) (hwords : s.WordSized figs)
    {tags : List Field} {tag : Field} {comments : List (List Char)}
    {build : Store W → Slots NodeId → Record → Nat → Except FormatError NodeId × Store W}
    (hcomments : ∀ l ∈ comments, l.head? = some 'c' ∧ '\n' ∉ l) (htag : tag ∈ tags)
    (hheader : ∀ n, IsRow [tag, natField n]) {rows : List (List Field)}
    (hlen : rows.length = figs.length)
    (hrows : ∀ (i : Nat) (fs : List Field), rows[i]? = some fs →
      IsRow fs ∧ fs[1]? = some (natField i))
    (inv : Store W → List NodeId → Prop) {s₀ : Store W} (hinv : inv s₀ [])
    (hbuild : ∀ (fs : List Field) (n line : Nat) (s' : Store W) (ids : List NodeId),
      rows[ids.length]? = some fs → inv s' ids →
      ∃ id s'', build s' (.filled n ids) ⟨line, fs⟩ ids.length = (.ok id, s'') ∧
        inv s'' (ids ++ [id])) :
    ∃ id s' ids, readText tags build s₀ (fileOf comments ([tag, natField rows.length] :: rows))
      = (.ok id, s') ∧ ids.length = figs.length ∧ ids.getLast? = some id ∧ inv s' ids := by
  have hpow : Decimal.pow2 32 < Decimal.pow2 64 := by decide
  have hword := hwords.length
  -- an outline has a root, so there is a row
  have hne : rows ≠ [] := by
    intro hnil
    rw [hnil, h.length] at hlen
    have hlast := h.last
    rw [List.length_eq_zero_iff.1 hlen.symm] at hlast
    exact absurd hlast (by simp)
  rw [← hlen]
  refine readText_fileOf hcomments htag (hheader _) ?_ (by omega) inv ?_ ?_ s₀ hinv hne
  · intro fs hfs
    obtain ⟨i, hi⟩ := List.mem_iff_getElem?.1 hfs
    exact (hrows i fs hi).1
  · intro i fs hfs
    have hlt := (List.getElem?_eq_some_iff.1 hfs).1
    exact ⟨(hrows i fs hfs).2, by omega⟩
  · intro i fs line s' ids hfs hids hinv
    obtain rfl := hids
    exact hbuild fs _ line s' ids hfs hinv

end Store
end Sentential
