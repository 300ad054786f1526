import Sentential.Proofs.Format.Acceptance
import Sentential.Proofs.Format.Psdd
import Sentential.Proofs.Store.Unfolding

/-!
# What the rows of diagram files make

What one row of a diagram file makes of a store, given the numbers of the rows above it, in terms of
its fields and of the operations of the store that make one node: `SddMakes` and `PsddMakes`. Both
readers build their records in this way (`buildSdd_iff`, `buildPsdd_iff`). That a record that is
built is a row of a grammar, and that a row of the grammar is built, is read off these relations and
not off the readers.
-/

namespace Sentential

open Format Text Indexing Vtree

/-- The field is the number of an earlier row, which stands for the value. -/
def Names {α : Type} (earlier : List (Nat × α)) (f : Field) (a : α) : Prop :=
  ∃ i, readWord? f = some i ∧ (i, a) ∈ earlier

namespace Store

/-! ## Rows -/

section

variable {W : Type} [Weight W]

/-- What a row of a diagram file makes of a store, where the rows above it have given these numbers
to nodes. -/
inductive SddMakes (s : Store W) (entries : List (Nat × NodeId)) :
    List Field → Nat → NodeId → Store W → Prop
  | bottom {f : Field} {i : Nat} : readWord? f = some i → SddMakes s entries [['F'], f] i .bottom s
  | top {f : Field} {i : Nat} : readWord? f = some i → SddMakes s entries [['T'], f] i .top s
  | literal {f p g : Field} {i position : Nat} {l : Literal} {a : NodeId} :
      readWord? f = some i → readWord? p = some position →
      Decimal.readInteger? g = some l.value → s.literal? l.value = some a →
      s.vtree.leafOf l.var = .ok ⟨position⟩ → SddMakes s entries [['L'], f, p, g] i a s
  | decision {f p k : Field} {children : List Field} {i position : Nat} {fork : VtreeId}
      {left right : Tree} {es : List Element} {a : NodeId} {s' : Store W} :
      readWord? f = some i → readWord? p = some position →
      s.vtree.subtree? ⟨position⟩ = some (.fork fork left right) →
      readCount? k = some es.length → es.length * 2 + 4 < Decimal.pow2 64 →
      List.Forall₂ (Names entries) children (nodesBelow es) →
      allElements (s.fits left.id) (s.fits right.id) es = .ok true →
      s.lookup es ⟨position⟩ = (.ok a, s') →
      SddMakes s entries (['D'] :: f :: p :: k :: children) i a s'

/-- The fields are those of elements, each with the logarithm of a probability. -/
inductive NamesLogs (entries : List (Nat × NodeId)) : List Field → List (Element × W) → Prop
  | nil : NamesLogs entries [] []
  | cons {f g h : Field} {fs : List Field} {e : Element} {l : W} {xs : List (Element × W)} :
      Names entries f e.prime → Names entries g e.sub → Weight.read? h = some l →
      Weight.isLogProbability l = true → NamesLogs entries fs xs →
      NamesLogs entries (f :: g :: h :: fs) ((e, l) :: xs)

/-- What a row of a probabilistic diagram file makes of a store. -/
inductive PsddMakes (s : Store W) (entries : List (Nat × NodeId)) :
    List Field → Nat → NodeId → Store W → Prop
  | bottom {f : Field} {i : Nat} : readWord? f = some i → PsddMakes s entries [['F'], f] i .bottom s
  | literal {f p g : Field} {i position : Nat} {l : Literal} {a : NodeId} :
      readWord? f = some i → readWord? p = some position →
      Decimal.readInteger? g = some l.value → s.literal? l.value = some a →
      s.vtree.leafOf l.var = .ok ⟨position⟩ → PsddMakes s entries [['L'], f, p, g] i a s
  | top {f p y g : Field} {i position var : Nat} {l : W} {θ : Theta W} {a : NodeId} {s' : Store W} :
      readWord? f = some i → readWord? p = some position → readWord? y = some var →
      Weight.read? g = some l → Weight.isLogProbability l = true → 1 ≤ var → var ≤ s.varCount →
      s.vtree.leafOf var = .ok ⟨position⟩ → Theta.bernoulli (Weight.exp l) = .ok θ →
      s.newTop var θ = (.ok a, s') → PsddMakes s entries [['T'], f, p, y, g] i a s'
  | decision {f p k : Field} {children : List Field} {i position : Nat} {fork : VtreeId}
      {left right : Tree} {xs : List (Element × W)} {θ : Theta W} {a : NodeId} {s' : Store W} :
      readWord? f = some i → readWord? p = some position →
      s.vtree.subtree? ⟨position⟩ = some (.fork fork left right) →
      readCount? k = some xs.length → xs.length * 3 + 4 < Decimal.pow2 64 →
      NamesLogs entries children xs →
      allElements (s.sitsAt left.id) (s.sitsAt right.id) (xs.map Prod.fst) = .ok true →
      Theta.ofWeights (xs.map fun x => Weight.exp x.2) = .ok θ →
      s.newDecision (xs.map Prod.fst) ⟨position⟩ θ = (.ok a, s') →
      PsddMakes s entries (['D'] :: f :: p :: k :: children) i a s'

end

variable {W : Type} [Weight W] {s s' : Store W} {t : Slots NodeId} {r : Record} {n i j size : Nat}
  {a : NodeId} {entries : List (Nat × NodeId)}

/-! ## Lines of both formats -/

/-- The row of a constant is its tag and a number. -/
theorem fields_of_two {c : Char} {f : Field} (htag : tag r = [c]) (hf : r.fields[1]? = some f)
    (hcount : expectFields 2 r = .ok ()) : r.fields = [[c], f] := by
  rw [fields_eq_of_tag htag (by simp), drop_eq_of_getElem? hf,
    List.drop_eq_nil_of_le (Nat.le_of_eq (expectFields_eq_ok.1 hcount))]

theorem fields_of_readLiteral {f : Field} (htag : tag r = ['L']) (hf : r.fields[1]? = some f)
    (hcount : expectFields 4 r = .ok ()) (h : s.readLiteral r i = .ok a) :
    ∃ (p g : Field) (position : Nat) (l : Literal), r.fields = [['L'], f, p, g] ∧
      readWord? p = some position ∧ Decimal.readInteger? g = some l.value ∧
      s.literal? l.value = some a ∧ s.vtree.leafOf l.var = .ok ⟨position⟩ := by
  obtain ⟨g, p, position, l, hg, hreadg, hp, hreadp, hl, hleaf⟩ := readLiteral_iff.1 h
  refine ⟨p, g, position, l, ?_, hreadp, hreadg, hl, hleaf⟩
  rw [fields_eq_of_tag htag (by simp), drop_eq_of_getElem? hf, drop_eq_of_getElem? hp,
    drop_eq_of_getElem? hg, List.drop_eq_nil_of_le (Nat.le_of_eq (expectFields_eq_ok.1 hcount))]

theorem readLiteral_of_fields {line position : Nat} {f p g : Field} {l : Literal}
    (hp : readWord? p = some position) (hg : Decimal.readInteger? g = some l.value)
    (hl : s.literal? l.value = some a) (hleaf : s.vtree.leafOf l.var = .ok ⟨position⟩) :
    s.readLiteral ⟨line, [['L'], f, p, g]⟩ i = .ok a :=
  readLiteral_iff.2 ⟨g, p, position, l, rfl, hg, rfl, hp, hl, hleaf⟩

/-- The row of a decision starts with its tag, its number, the fork and the number of elements. -/
theorem fields_of_readFork {width : Nat} {f : Field} {v : VtreeId} {left right : Tree}
    (htag : tag r = ['D']) (hf : r.fields[1]? = some f) (hfork : s.readFork r = .ok (v, left, right))
    (hsize : readSize width r = .ok size) : ∃ p k fork,
      r.fields = ['D'] :: f :: p :: k :: r.fields.drop 4 ∧ readWord? p = some v.raw ∧
      s.vtree.subtree? v = some (.fork fork left right) ∧ readCount? k = some size ∧
      size * width + 4 < Decimal.pow2 64 := by
  obtain ⟨p, fork, hp, hreadp, hsub⟩ := readFork_iff.1 hfork
  obtain ⟨k, hk, hreadk, hword, -⟩ := readSize_iff.1 hsize
  refine ⟨p, k, fork, ?_, hreadp, hsub, hreadk, hword⟩
  rw [← drop_eq_of_getElem? hk, ← drop_eq_of_getElem? hp, ← drop_eq_of_getElem? hf]
  exact fields_eq_of_tag htag (by simp)

/-- All fields behind the head of a decision are those of its elements. -/
theorem take_fields_of_readSize {width : Nat} (hsize : readSize width r = .ok size) :
    (r.fields.drop 4).take (width * size) = r.fields.drop 4 := by
  obtain ⟨-, -, -, -, hlen⟩ := readSize_iff.1 hsize
  apply List.take_of_length_le
  rw [List.length_drop, hlen, Nat.add_sub_cancel, Nat.mul_comm]

/-- The two fields of an element are the numbers of its prime and its sub. -/
theorem readElement_iff (ht : t.Holds n entries) {e : Element} : readElement t r i = .ok e ↔
    ∃ f g rest, r.fields.drop i = f :: g :: rest ∧ Names entries f e.prime ∧
      Names entries g e.sub := by
  unfold readElement
  constructor
  · intro h
    obtain ⟨j, hj, h⟩ := bind_eq_ok.1 h
    obtain ⟨prime, hprime, h⟩ := bind_eq_ok.1 h
    obtain ⟨k, hk, h⟩ := bind_eq_ok.1 h
    obtain ⟨sub, hsub, h⟩ := bind_eq_ok.1 h
    obtain rfl := Except.ok.inj h
    obtain ⟨f, hf, hreadf⟩ := field_eq_ok.1 hj
    obtain ⟨g, hg, hreadg⟩ := field_eq_ok.1 hk
    refine ⟨f, g, r.fields.drop (i + 2), ?_, ⟨j, hreadf, ht.get_eq_ok.1 hprime⟩,
      ⟨k, hreadg, ht.get_eq_ok.1 hsub⟩⟩
    rw [drop_eq_of_getElem? hf, drop_eq_of_getElem? hg]
  · rintro ⟨f, g, rest, hdrop, ⟨j, hreadf, hprime⟩, ⟨k, hreadg, hsub⟩⟩
    have hget : ∀ m, r.fields[i + m]? = (f :: g :: rest)[m]? := by
      intro m
      rw [← hdrop, List.getElem?_drop]
    have hf : r.fields[i]? = some f := hget 0
    rw [field_eq_ok.2 ⟨f, hf, hreadf⟩, ok_bind, ht.get_eq_ok.2 hprime, ok_bind,
      field_eq_ok.2 ⟨g, hget 1, hreadg⟩, ok_bind, ht.get_eq_ok.2 hsub]
    rfl

/-! ## Diagram files -/

/-- The parts of the first element take two fields, those of the others the fields behind. -/
theorem forall₂_nodesBelow_cons {R : Field → NodeId → Prop} {fs : List Field} {size : Nat}
    {e : Element} {es : List Element} :
    List.Forall₂ R (fs.take (2 * (size + 1))) (nodesBelow (e :: es)) ↔
      ∃ f g rest, fs = f :: g :: rest ∧ R f e.prime ∧ R g e.sub ∧
        List.Forall₂ R (rest.take (2 * size)) (nodesBelow es) := by
  rw [show 2 * (size + 1) = 2 * size + 1 + 1 by omega]
  constructor
  · intro hall
    cases fs with
    | nil => exact absurd hall (by rintro ⟨⟩)
    | cons f fs =>
      obtain - | ⟨hprime, hall⟩ := hall
      cases fs with
      | nil => exact absurd hall (by rintro ⟨⟩)
      | cons g rest =>
        obtain - | ⟨hsub, hall⟩ := hall
        exact ⟨f, g, rest, rfl, hprime, hsub, hall⟩
  · rintro ⟨f, g, rest, rfl, hprime, hsub, hall⟩
    exact .cons hprime (.cons hsub hall)

/-- The fields of elements are the numbers of their parts. -/
theorem readElements_iff (ht : t.Holds n entries) {size : Nat} {es : List Element} :
    readElements t r i size = .ok es ↔ es.length = size ∧
      List.Forall₂ (Names entries) ((r.fields.drop i).take (2 * size)) (nodesBelow es) := by
  induction size generalizing i es with
  | zero =>
    rw [readElements, Except.ok.injEq, Nat.mul_zero, List.take_zero, List.length_eq_zero_iff]
    constructor
    · rintro rfl
      exact ⟨rfl, .nil⟩
    · exact fun h => h.1.symm
  | succ size ih =>
    have hrest : ∀ {f g : Field} {rest : List Field}, r.fields.drop i = f :: g :: rest →
        r.fields.drop (i + 2) = rest := by
      intro f g rest hdrop
      rw [← List.drop_drop, hdrop]
      rfl
    rw [readElements]
    constructor
    · intro h
      obtain ⟨e, he, h⟩ := bind_eq_ok.1 h
      obtain ⟨es', hes, h⟩ := bind_eq_ok.1 h
      obtain rfl := Except.ok.inj h
      obtain ⟨f, g, rest, hdrop, hprime, hsub⟩ := (readElement_iff ht).1 he
      obtain ⟨hlen, hall⟩ := ih.1 hes
      rw [hrest hdrop] at hall
      exact ⟨congrArg (· + 1) hlen,
        forall₂_nodesBelow_cons.2 ⟨f, g, rest, hdrop, hprime, hsub, hall⟩⟩
    · rintro ⟨hlen, hall⟩
      cases es with
      | nil => exact absurd hlen (by simp)
      | cons e es =>
        obtain ⟨f, g, rest, hdrop, hprime, hsub, hall⟩ := forall₂_nodesBelow_cons.1 hall
        rw [← hrest hdrop] at hall
        rw [(readElement_iff ht).2 ⟨f, g, rest, hdrop, hprime, hsub⟩, ok_bind,
          ih.2 ⟨Nat.succ.inj hlen, hall⟩]
        rfl

theorem readDecision_iff (ht : t.Holds n entries) {v : VtreeId} {es : List Element} :
    s.readDecision t r i = .ok (v, es) ↔ ∃ left right, s.readFork r = .ok (v, left, right) ∧
      readSize 2 r = .ok es.length ∧
      List.Forall₂ (Names entries) (r.fields.drop 4) (nodesBelow es) ∧
      allElements (s.fits left.id) (s.fits right.id) es = .ok true := by
  rw [readDecision_parts]
  constructor
  · rintro ⟨left, right, size, hfork, hsize, hes, hfits⟩
    obtain ⟨rfl, hall⟩ := (readElements_iff ht).1 hes
    rw [take_fields_of_readSize hsize] at hall
    exact ⟨left, right, hfork, hsize, hall, hfits⟩
  · rintro ⟨left, right, hfork, hsize, hall, hfits⟩
    rw [← take_fields_of_readSize hsize] at hall
    exact ⟨left, right, es.length, hfork, hsize, (readElements_iff ht).2 ⟨rfl, hall⟩, hfits⟩

/-- The rows that are read without making a node. -/
theorem sddMakes_of_readSddPlain (entries : List (Nat × NodeId))
    (hid : field readWord? .id r 1 = .ok i) (h : s.readSddPlain r i = .ok a) :
    SddMakes s entries r.fields i a s := by
  obtain ⟨f, hf, hread⟩ := field_eq_ok.1 hid
  unfold readSddPlain at h
  split at h
  · next htag =>
    obtain ⟨_, hcount, h⟩ := bind_eq_ok.1 h
    obtain rfl := Except.ok.inj h
    rw [fields_of_two htag hf hcount]
    exact .bottom hread
  · next htag =>
    obtain ⟨_, hcount, h⟩ := bind_eq_ok.1 h
    obtain rfl := Except.ok.inj h
    rw [fields_of_two htag hf hcount]
    exact .top hread
  · next htag =>
    obtain ⟨_, hcount, h⟩ := bind_eq_ok.1 h
    obtain ⟨p, g, position, l, hfields, hreadp, hreadg, hl, hleaf⟩ :=
      fields_of_readLiteral htag hf hcount h
    rw [hfields]
    exact .literal hread hreadp hreadg hl hleaf
  · exact absurd h (by simp)

theorem sddMakes_of_buildSdd (ht : t.Holds n entries) (hid : field readWord? .id r 1 = .ok i)
    (h : s.buildSdd t r i = (.ok a, s')) : SddMakes s entries r.fields i a s' := by
  rcases buildSdd_cases h with ⟨v, es, htag, hdecision, hlookup⟩ | ⟨hplain, rfl⟩
  · obtain ⟨f, hf, hread⟩ := field_eq_ok.1 hid
    obtain ⟨left, right, hfork, hsize, hall, hfits⟩ := (readDecision_iff ht).1 hdecision
    obtain ⟨p, k, fork, hfields, hreadp, hsub, hreadk, hword⟩ :=
      fields_of_readFork htag hf hfork hsize
    rw [hfields]
    exact .decision hread hreadp hsub hreadk hword hall hfits hlookup
  · exact sddMakes_of_readSddPlain entries hid hplain

theorem buildSdd_of_sddMakes (ht : t.Holds n entries) (h : SddMakes s entries r.fields i a s') :
    field readWord? .id r 1 = .ok i ∧ s.buildSdd t r i = (.ok a, s') := by
  obtain ⟨line, fs⟩ := r
  simp only at h
  cases h with
  | bottom hread => exact ⟨field_eq_ok.2 ⟨_, rfl, hread⟩, rfl⟩
  | top hread => exact ⟨field_eq_ok.2 ⟨_, rfl, hread⟩, rfl⟩
  | @literal f p g _ position l _ hread hreadp hreadg hl hleaf =>
    refine ⟨field_eq_ok.2 ⟨_, rfl, hread⟩, ?_⟩
    show (s.readLiteral ⟨line, [['L'], f, p, g]⟩ i, s) = _
    rw [readLiteral_of_fields hreadp hreadg hl hleaf]
  | @decision f p k children _ position fork left right es _ _ hread hreadp hsub hreadk hword hall
      hfits hlookup =>
    refine ⟨field_eq_ok.2 ⟨_, rfl, hread⟩, ?_⟩
    have hlen : children.length = 2 * es.length := by rw [hall.length_eq, length_nodesBelow]
    have hdecision : s.readDecision t ⟨line, ['D'] :: f :: p :: k :: children⟩ i
        = .ok (⟨position⟩, es) := by
      refine (readDecision_iff ht).2 ⟨left, right, readFork_iff.2 ⟨p, fork, rfl, hreadp, hsub⟩,
        readSize_iff.2 ⟨k, rfl, hreadk, hword, ?_⟩, hall, hfits⟩
      simp only [List.length_cons]
      omega
    unfold buildSdd
    rw [if_pos (tag_eq rfl), hdecision]
    simp only [hlookup, format_liftM_ok]

/-- A record is built if its number can be read and its fields say what is made. -/
theorem buildSdd_iff (ht : t.Holds n entries) : SddMakes s entries r.fields i a s' ↔
    field readWord? .id r 1 = .ok i ∧ s.buildSdd t r i = (.ok a, s') :=
  ⟨buildSdd_of_sddMakes ht, fun h => sddMakes_of_buildSdd ht h.1 h.2⟩

/-! ## Probabilistic diagram files -/

theorem NamesLogs.length_eq {fs : List Field} {xs : List (Element × W)}
    (h : NamesLogs entries fs xs) : fs.length = 3 * xs.length := by
  induction h with
  | nil => rfl
  | cons _ _ _ _ _ ih =>
    simp only [List.length_cons, ih]
    omega

/-- The first element takes three fields, the others the fields behind. -/
theorem namesLogs_cons {fs : List Field} {x : Element × W} {xs : List (Element × W)} :
    NamesLogs entries (fs.take (3 * (size + 1))) (x :: xs) ↔
      ∃ f g h rest, fs = f :: g :: h :: rest ∧ Names entries f x.1.prime ∧
        Names entries g x.1.sub ∧ Weight.read? h = some x.2 ∧
        Weight.isLogProbability x.2 = true ∧ NamesLogs entries (rest.take (3 * size)) xs := by
  rw [show 3 * (size + 1) = 3 * size + 1 + 1 + 1 by omega]
  constructor
  · intro hall
    match fs, hall with
    | f :: g :: h :: rest, .cons hprime hsub hread hlog hall =>
      exact ⟨f, g, h, rest, rfl, hprime, hsub, hread, hlog, hall⟩
  · rintro ⟨f, g, h, rest, rfl, hprime, hsub, hread, hlog, hall⟩
    exact .cons hprime hsub hread hlog hall

/-- The fields of weighted elements are the numbers of their parts and the logarithms. -/
theorem readWeighted_iff (ht : t.Holds n entries) {ws : List (Element × W)} :
    readWeighted t r j size = .ok ws ↔ ∃ xs : List (Element × W), xs.length = size ∧
      ws = xs.map (fun x => (x.1, Weight.exp x.2)) ∧
      NamesLogs entries ((r.fields.drop j).take (3 * size)) xs := by
  induction size generalizing j ws with
  | zero =>
    rw [readWeighted, Except.ok.injEq, Nat.mul_zero, List.take_zero]
    constructor
    · rintro rfl
      exact ⟨[], rfl, rfl, .nil⟩
    · rintro ⟨xs, hlen, rfl, -⟩
      rw [List.length_eq_zero_iff.1 hlen]
      rfl
  | succ size ih =>
    rw [readWeighted]
    constructor
    · intro h
      obtain ⟨e, he, h⟩ := bind_eq_ok.1 h
      obtain ⟨l, hl, h⟩ := bind_eq_ok.1 h
      obtain ⟨rest, hrest, h⟩ := bind_eq_ok.1 h
      obtain rfl := Except.ok.inj h
      obtain ⟨f, g, tail, hdrop, hprime, hsub⟩ := (readElement_iff ht).1 he
      obtain ⟨k, hget, hread, hlog⟩ := readLog_eq_ok.1 hl
      obtain ⟨xs, hlen, rfl, hall⟩ := ih.1 hrest
      have hfields : r.fields.drop j = f :: g :: k :: r.fields.drop (j + 3) := by
        rw [← drop_eq_of_getElem? hget, hdrop, ← List.drop_drop, hdrop]
        rfl
      exact ⟨(e, l) :: xs, congrArg (· + 1) hlen, rfl,
        namesLogs_cons.2 ⟨f, g, k, _, hfields, hprime, hsub, hread, hlog, hall⟩⟩
    · rintro ⟨xs, hlen, rfl, hall⟩
      cases xs with
      | nil => exact absurd hlen (by simp)
      | cons x xs =>
        obtain ⟨f, g, k, rest, hdrop, hprime, hsub, hread, hlog, hall⟩ := namesLogs_cons.1 hall
        have hget : r.fields[j + 2]? = some k := by
          rw [← List.getElem?_drop, hdrop]
          rfl
        have hrest : r.fields.drop (j + 3) = rest := by
          rw [← List.drop_drop, hdrop]
          rfl
        rw [← hrest] at hall
        rw [(readElement_iff ht).2 ⟨f, g, k :: rest, hdrop, hprime, hsub⟩, ok_bind,
          readLog_eq_ok.2 ⟨k, hget, hread, hlog⟩, ok_bind,
          ih.2 ⟨xs, Nat.succ.inj hlen, rfl, hall⟩]
        rfl

theorem readWeightedDecision_logs (ht : t.Holds n entries) {v : VtreeId} {ws : List (Element × W)} :
    s.readWeightedDecision t r i = .ok (v, ws) ↔ ∃ left right xs,
      s.readFork r = .ok (v, left, right) ∧ readSize 3 r = .ok xs.length ∧
      NamesLogs entries (r.fields.drop 4) xs ∧
      allElements (s.sitsAt left.id) (s.sitsAt right.id) (xs.map Prod.fst) = .ok true ∧
      ws = xs.map fun x => (x.1, Weight.exp x.2) := by
  rw [readWeightedDecision_iff]
  constructor
  · rintro ⟨left, right, size, hfork, hsize, hws, hsits⟩
    obtain ⟨xs, rfl, rfl, hall⟩ := (readWeighted_iff ht).1 hws
    rw [take_fields_of_readSize hsize] at hall
    rw [List.map_map] at hsits
    exact ⟨left, right, xs, hfork, hsize, hall, hsits, rfl⟩
  · rintro ⟨left, right, xs, hfork, hsize, hall, hsits, rfl⟩
    rw [← take_fields_of_readSize hsize] at hall
    refine ⟨left, right, xs.length, hfork, hsize, (readWeighted_iff ht).2 ⟨xs, rfl, rfl, hall⟩, ?_⟩
    rw [List.map_map]
    exact hsits

theorem psddMakes_of_readPsddPlain (entries : List (Nat × NodeId))
    (hid : field readWord? .id r 1 = .ok i) (h : s.readPsddPlain r i = .ok a) :
    PsddMakes s entries r.fields i a s := by
  obtain ⟨f, hf, hread⟩ := field_eq_ok.1 hid
  unfold readPsddPlain at h
  split at h
  · next htag =>
    obtain ⟨_, hcount, h⟩ := bind_eq_ok.1 h
    obtain rfl := Except.ok.inj h
    rw [fields_of_two htag hf hcount]
    exact .bottom hread
  · next htag =>
    obtain ⟨_, hcount, h⟩ := bind_eq_ok.1 h
    obtain ⟨p, g, position, l, hfields, hreadp, hreadg, hl, hleaf⟩ :=
      fields_of_readLiteral htag hf hcount h
    rw [hfields]
    exact .literal hread hreadp hreadg hl hleaf
  · exact absurd h (by simp)

theorem psddMakes_of_buildPsdd (ht : t.Holds n entries) (hid : field readWord? .id r 1 = .ok i)
    (h : s.buildPsdd t r i = (.ok a, s')) : PsddMakes s entries r.fields i a s' := by
  obtain ⟨f, hf, hread⟩ := field_eq_ok.1 hid
  rcases buildPsdd_cases h with ⟨var, l, θ, htag, htop, hθ, hmake⟩ |
    ⟨v, ws, θ, htag, hdecision, hθ, hmake⟩ | ⟨hplain, rfl⟩
  · obtain ⟨p, y, g, position, hlen, hp, hreadp, hy, hready, hg, hreadg, hlog, hpos, hle, hleaf⟩ :=
      readTop_iff.1 htop
    rw [fields_eq_of_tag htag (by simp), drop_eq_of_getElem? hf, drop_eq_of_getElem? hp,
      drop_eq_of_getElem? hy, drop_eq_of_getElem? hg, List.drop_eq_nil_of_le (Nat.le_of_eq hlen)]
    exact .top hread hreadp hready hreadg hlog hpos hle hleaf hθ hmake
  · obtain ⟨left, right, xs, hfork, hsize, hall, hsits, rfl⟩ :=
      (readWeightedDecision_logs ht).1 hdecision
    obtain ⟨p, k, fork, hfields, hreadp, hsub, hreadk, hword⟩ :=
      fields_of_readFork htag hf hfork hsize
    rw [List.map_map] at hθ hmake
    rw [hfields]
    exact .decision hread hreadp hsub hreadk hword hall hsits hθ hmake
  · exact psddMakes_of_readPsddPlain entries hid hplain

theorem buildPsdd_of_psddMakes (ht : t.Holds n entries) (h : PsddMakes s entries r.fields i a s') :
    field readWord? .id r 1 = .ok i ∧ s.buildPsdd t r i = (.ok a, s') := by
  obtain ⟨line, fs⟩ := r
  simp only at h
  cases h with
  | bottom hread => exact ⟨field_eq_ok.2 ⟨_, rfl, hread⟩, rfl⟩
  | @literal f p g _ position l _ hread hreadp hreadg hl hleaf =>
    refine ⟨field_eq_ok.2 ⟨_, rfl, hread⟩, ?_⟩
    show (s.readLiteral ⟨line, [['L'], f, p, g]⟩ i, s) = _
    rw [readLiteral_of_fields hreadp hreadg hl hleaf]
  | @top f p y g _ position var l θ _ _ hread hreadp hready hreadg hlog hpos hle hleaf hθ hmake =>
    refine ⟨field_eq_ok.2 ⟨_, rfl, hread⟩, ?_⟩
    have htop : s.readTop ⟨line, [['T'], f, p, y, g]⟩ i = .ok (var, l) :=
      readTop_iff.2 ⟨p, y, g, position, rfl, rfl, hreadp, rfl, hready, rfl, hreadg, hlog, hpos,
        hle, hleaf⟩
    unfold buildPsdd withTheta
    rw [if_pos (tag_eq rfl), htop]
    simp only [hθ, hmake, format_liftM_ok]
  | @decision f p k children _ position fork left right xs θ _ _ hread hreadp hsub hreadk hword hall
      hsits hθ hmake =>
    refine ⟨field_eq_ok.2 ⟨_, rfl, hread⟩, ?_⟩
    have hlen := hall.length_eq
    have hdecision : s.readWeightedDecision t ⟨line, ['D'] :: f :: p :: k :: children⟩ i
        = .ok (⟨position⟩, xs.map fun x => (x.1, Weight.exp x.2)) := by
      refine (readWeightedDecision_logs ht).2 ⟨left, right, xs,
        readFork_iff.2 ⟨p, fork, rfl, hreadp, hsub⟩,
        readSize_iff.2 ⟨k, rfl, hreadk, hword, ?_⟩, hall, hsits, rfl⟩
      simp only [List.length_cons]
      omega
    unfold buildPsdd withTheta
    rw [if_neg (by simp [tag]), if_pos (tag_eq rfl), hdecision]
    simp only [List.map_map, Function.comp_def, hθ, hmake, format_liftM_ok]

theorem buildPsdd_iff (ht : t.Holds n entries) : PsddMakes s entries r.fields i a s' ↔
    field readWord? .id r 1 = .ok i ∧ s.buildPsdd t r i = (.ok a, s') :=
  ⟨buildPsdd_of_psddMakes ht, fun h => psddMakes_of_buildPsdd ht h.1 h.2⟩

end Store
end Sentential
