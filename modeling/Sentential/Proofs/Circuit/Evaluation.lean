import Sentential.Proofs.Circuit.Emission

/-!
# Values of what is emitted

Opcodes are evaluated from the first to the last with the weights of the finished circuit. An
emission only appends opcodes and only gives weights to new parameters, so the values that it has
are the values in every circuit that it grows into (`Leads`).
-/

namespace Sentential

section

variable {α : Type}

theorem getD_push_self (vs : Array α) (v d : α) : (vs.push v).getD vs.size d = v := by
  rw [Array.getD_eq_getD_getElem?, Array.getElem?_push_size]
  rfl

theorem getD_push_lt (vs : Array α) (v d : α) {i : Nat} (h : i < vs.size) :
    (vs.push v).getD i d = vs.getD i d := by
  rw [Array.getD_eq_getD_getElem?, Array.getD_eq_getD_getElem?, Array.getElem?_push,
    if_neg (Nat.ne_of_lt h)]

end

namespace Circuit

variable {V : Type} [Arithmetic V] (c : Circuit V) (evidence : List Int)

/-- The values of some opcodes, evaluated in a circuit. -/
def valuesOf (ops : List Opcode) : Array V :=
  ops.foldl (fun vs op => vs.push (c.valueOf evidence vs op)) #[]

theorem values_eq : c.values evidence = c.valuesOf evidence c.ops.toList := by
  unfold values valuesOf
  rw [← Array.foldl_toList]

theorem valuesOf_concat (ops : List Opcode) (op : Opcode) :
    c.valuesOf evidence (ops ++ [op])
      = (c.valuesOf evidence ops).push (c.valueOf evidence (c.valuesOf evidence ops) op) := by
  unfold valuesOf
  rw [List.foldl_append]
  rfl

theorem size_valuesOf (ops : List Opcode) : (c.valuesOf evidence ops).size = ops.length := by
  induction ops using List.reverseRecOn with
  | nil => rfl
  | append_singleton ops op ih => rw [valuesOf_concat, Array.size_push, ih, List.length_append]; rfl

/-- Opcodes that follow do not change a value. -/
theorem getElem?_valuesOf_append {ops : List Opcode} {i : Nat} (h : i < ops.length)
    (rest : List Opcode) :
    (c.valuesOf evidence (ops ++ rest))[i]? = (c.valuesOf evidence ops)[i]? := by
  induction rest using List.reverseRecOn with
  | nil => rw [List.append_nil]
  | append_singleton rest op ih =>
    rw [← List.append_assoc, valuesOf_concat, Array.getElem?_push, if_neg, ih]
    rw [size_valuesOf, List.length_append]
    omega

end Circuit

namespace Emission

variable {V : Type} {e e' e'' : Emission V}

/-- The emission `e'` has the opcodes and the parameters of `e`, perhaps among more. -/
structure Leads (e e' : Emission V) : Prop where
  ops : ∃ rest, e'.ops.toList = e.ops.toList ++ rest
  next : e.next ≤ e'.next
  weights : ∀ p < e.next, e'.weights.get p = e.weights.get p

theorem Leads.refl (e : Emission V) : e.Leads e :=
  ⟨⟨[], (List.append_nil _).symm⟩, Nat.le_refl _, fun _ _ => rfl⟩

theorem Leads.trans (h : e.Leads e') (h' : e'.Leads e'') : e.Leads e'' := by
  obtain ⟨rest, hrest⟩ := h.ops
  obtain ⟨rest', hrest'⟩ := h'.ops
  refine ⟨⟨rest ++ rest', ?_⟩, Nat.le_trans h.next h'.next, fun p hp => ?_⟩
  · rw [hrest', hrest, List.append_assoc]
  · rw [h'.weights p (Nat.lt_of_lt_of_le hp h.next), h.weights p hp]

theorem leads_push (e : Emission V) (op : Opcode) : e.Leads (e.push op) :=
  ⟨⟨[op], Array.toList_push ..⟩, Nat.le_refl _, fun _ _ => rfl⟩

theorem get_set (t : WeightTable V) (p q : Int) (w : V) :
    (t.set p w).get q = if p = q then w else t.get q := by
  show ((t.entries.insert p w)[q]?).getD t.default = _
  rw [Std.TreeMap.getElem?_insert]
  by_cases h : p = q
  · rw [if_pos h, if_pos (Std.LawfulEqCmp.compare_eq_iff_eq.2 h)]
    rfl
  · rw [if_neg h, if_neg (fun heq => h (Std.LawfulEqCmp.compare_eq_iff_eq.1 heq))]
    rfl

theorem leads_parameter (e : Emission V) (w : V) : e.Leads (e.parameter w) := by
  refine ⟨⟨[.literal e.next], Array.toList_push ..⟩, Nat.le_succ _, fun p hp => ?_⟩
  show (e.weights.set e.next w).get p = _
  rw [get_set, if_neg]
  omega

theorem leads_element (e : Emission V) (w : V) (prime sub : Nat) :
    e.Leads (e.element w prime sub) := (leads_parameter e w).trans (leads_push _ _)

theorem leads_items (e : Emission V) (xs : List (Item V)) : e.Leads (e.items xs) := by
  induction xs generalizing e with
  | nil => exact .refl e
  | cons x xs ih => exact (leads_element e x.weight x.prime x.sub).trans (ih _)

theorem leads_top (e : Emission V) (w₀ w₁ : V) (negative positive : Nat) :
    e.Leads (e.top w₀ w₁ negative positive) :=
  ((((leads_parameter e w₀).trans (leads_parameter _ w₁)).trans (leads_push _ _)).trans
    (leads_push _ _)).trans (leads_push _ _)

variable [Arithmetic V]

/-! ## Values in a circuit that the emission grows into -/

/-- The circuit is what the emission grows into. -/
def Into (e : Emission V) (c : Circuit V) : Prop :=
  ∃ e', e.Leads e' ∧ c.weights = e'.weights ∧ c.varCount < e.next

omit [Arithmetic V] in
theorem Into.of_leads {c : Circuit V} (h : e'.Into c) (hleads : e.Leads e')
    (hnext : c.varCount < e.next) : e.Into c := by
  obtain ⟨e₁, h₁, hw, -⟩ := h
  exact ⟨e₁, hleads.trans h₁, hw, hnext⟩

variable (c : Circuit V) (evidence : List Int)

/-- The values of the opcodes that have been emitted. -/
def values (e : Emission V) : Array V := c.valuesOf evidence e.ops.toList

theorem size_values (e : Emission V) : (e.values c evidence).size = e.ops.size := by
  unfold values
  rw [Circuit.size_valuesOf, Array.length_toList]

theorem getElem?_values_leads (h : e.Leads e') {i : Nat} (hi : i < e.ops.size) :
    (e'.values c evidence)[i]? = (e.values c evidence)[i]? := by
  obtain ⟨rest, hrest⟩ := h.ops
  unfold values
  rw [hrest]
  exact c.getElem?_valuesOf_append evidence (by simpa using hi) rest

theorem values_push (e : Emission V) (op : Opcode) :
    (e.push op).values c evidence
      = (e.values c evidence).push (c.valueOf evidence (e.values c evidence) op) := by
  unfold values push
  rw [Array.toList_push, Circuit.valuesOf_concat]

/-- A parameter has its weight for a value. -/
theorem values_parameter {e : Emission V} {w : V} (h : (e.parameter w).Into c)
    (hnext : c.varCount < e.next) :
    (e.parameter w).values c evidence = (e.values c evidence).push w := by
  obtain ⟨e', hleads, hweights, -⟩ := h
  -- later parameters have larger numbers, so the circuit still has the weight
  have hget : c.weights.get e.next = w := by
    rw [hweights, hleads.weights e.next (Nat.lt_succ_self e.next)]
    show (e.weights.set e.next w).get e.next = w
    rw [get_set, if_pos rfl]
  have hvalue : c.valueOf evidence (e.values c evidence) (.literal e.next) = w := by
    show (if (e.next : Int).natAbs ≤ c.varCount then _ else c.weights.get e.next) = w
    rw [if_neg (by omega), hget]
  have hpush := values_push c evidence e (.literal e.next)
  rw [hvalue] at hpush
  exact hpush

theorem getD_values_leads (h : e.Leads e') {i : Nat} (hi : i < e.ops.size) (d : V) :
    (e'.values c evidence).getD i d = (e.values c evidence).getD i d := by
  rw [Array.getD_eq_getD_getElem?, Array.getD_eq_getD_getElem?,
    getElem?_values_leads c evidence h hi]

/-- The value of an item where the values of its prime and its sub are known. -/
def itemValue (vs : Array V) (x : Item V) : V :=
  Arithmetic.product [x.weight, vs.getD x.prime Arithmetic.zero, vs.getD x.sub Arithmetic.zero]

/-- The last opcode of an element has the value of the element. -/
theorem values_element {e : Emission V} (x : Item V)
    (h : (e.element x.weight x.prime x.sub).Into c) (hnext : c.varCount < e.next)
    (hprime : x.prime < e.ops.size) (hsub : x.sub < e.ops.size) :
    (e.element x.weight x.prime x.sub).values c evidence
      = ((e.values c evidence).push x.weight).push (itemValue (e.values c evidence) x) := by
  have hinto : (e.parameter x.weight).Into c :=
    h.of_leads (leads_push _ _) (Nat.lt_succ_of_lt hnext)
  have hsize := size_values c evidence e
  unfold element
  rw [values_push, values_parameter c evidence hinto hnext]
  show Array.push _ (Arithmetic.product [_, _, _]) = _
  congr 1
  show Arithmetic.product [Array.getD _ _ _, Array.getD _ _ _, Array.getD _ _ _] = _
  unfold itemValue
  rw [← hsize] at hprime hsub ⊢
  rw [getD_push_lt _ _ _ hprime, getD_push_lt _ _ _ hsub, getD_push_self]

/-- The products of some elements have the values of the elements. -/
theorem values_items (xs : List (Item V)) {e : Emission V} (h : (e.items xs).Into c)
    (hnext : c.varCount < e.next) (hxs : ∀ x ∈ xs, x.prime < e.ops.size ∧ x.sub < e.ops.size) :
    (products e.ops.size xs.length).map
        (fun i => ((e.items xs).values c evidence).getD i Arithmetic.zero)
      = xs.map (itemValue (e.values c evidence)) := by
  induction xs generalizing e with
  | nil => rfl
  | cons x xs ih =>
    have hsize : (e.element x.weight x.prime x.sub).ops.size = e.ops.size + 2 := size_element ..
    have hleads := leads_items (e.element x.weight x.prime x.sub) xs
    have hnext₁ : c.varCount < (e.element x.weight x.prime x.sub).next := Nat.lt_succ_of_lt hnext
    obtain ⟨hprime, hsub⟩ := hxs x List.mem_cons_self
    have hrest : ∀ y ∈ xs, y.prime < e.ops.size ∧ y.sub < e.ops.size :=
      fun y hy => hxs y (List.mem_cons_of_mem _ hy)
    have helement := values_element c evidence x (h.of_leads hleads hnext₁) hnext hprime hsub
    -- the product of the first element is not touched by those of the others
    have hhead : (((e.items (x :: xs)).values c evidence).getD (e.ops.size + 1) Arithmetic.zero)
        = itemValue (e.values c evidence) x := by
      refine (getD_values_leads c evidence hleads (by rw [hsize]; omega) _).trans ?_
      rw [helement]
      have hpushed : ((e.values c evidence).push x.weight).size = e.ops.size + 1 := by
        rw [Array.size_push, size_values]
      rw [← hpushed, getD_push_self]
    have htail := ih h hnext₁ fun y hy => by
      have hlt := hrest y hy
      rw [hsize]
      omega
    -- the elements that follow see the same values of their primes and subs
    have hsame : xs.map (itemValue ((e.element x.weight x.prime x.sub).values c evidence))
        = xs.map (itemValue (e.values c evidence)) := by
      apply List.map_congr_left
      intro y hy
      obtain ⟨hp, hs⟩ := hrest y hy
      unfold itemValue
      have hl := leads_element e x.weight x.prime x.sub
      rw [getD_values_leads c evidence hl hp, getD_values_leads c evidence hl hs]
    rw [List.map_cons, ← hsame, ← htail, ← hhead, hsize]
    rfl

/-- The head of a decision has the sum of the values of its elements for a value. -/
theorem values_sum (xs : List (Item V)) {e : Emission V}
    (h : ((e.items xs).push (.sum (products e.ops.size xs.length))).Into c)
    (hnext : c.varCount < e.next) (hxs : ∀ x ∈ xs, x.prime < e.ops.size ∧ x.sub < e.ops.size) :
    (((e.items xs).push (.sum (products e.ops.size xs.length))).values c
        evidence)[e.ops.size + 2 * xs.length]?
      = some (Arithmetic.sum (xs.map (itemValue (e.values c evidence)))) := by
  have hinto : (e.items xs).Into c := by
    apply h.of_leads (leads_push _ _)
    rw [next_items]
    exact Nat.lt_add_right _ hnext
  have hsize : ((e.items xs).values c evidence).size = e.ops.size + 2 * xs.length := by
    rw [size_values, size_items]
  rw [← values_items c evidence xs hinto hnext hxs, values_push, ← hsize, Array.getElem?_push_size]
  rfl

/-- Two parameters in a row have their weights for values. -/
theorem values_parameters {e : Emission V} {w₀ w₁ : V} (h : ((e.parameter w₀).parameter w₁).Into c)
    (hnext : c.varCount < e.next) :
    ((e.parameter w₀).parameter w₁).values c evidence
      = ((e.values c evidence).push w₀).push w₁ := by
  have hnext₁ : c.varCount < (e.parameter w₀).next := Nat.lt_succ_of_lt hnext
  rw [values_parameter c evidence h hnext₁,
    values_parameter c evidence (h.of_leads (leads_parameter _ w₁) hnext₁) hnext]

/-- The head of a TRUE node has the value of the node. -/
theorem values_top {e : Emission V} {w₀ w₁ : V} {negative positive : Nat}
    (h : (e.top w₀ w₁ negative positive).Into c) (hnext : c.varCount < e.next)
    (hneg : negative < e.ops.size) (hpos : positive < e.ops.size) :
    ((e.top w₀ w₁ negative positive).values c evidence)[e.ops.size + 4]?
      = some (Arithmetic.sum
        [Arithmetic.product [w₀, (e.values c evidence).getD negative Arithmetic.zero],
          Arithmetic.product [w₁, (e.values c evidence).getD positive Arithmetic.zero]]) := by
  have hsize := size_values c evidence e
  unfold top at h ⊢
  have hleads₂ := ((leads_push ((e.parameter w₀).parameter w₁)
    (.product [e.ops.size, negative])).trans (leads_push _ (.product [e.ops.size + 1, positive]))).trans
    (leads_push _ (.sum [e.ops.size + 2, e.ops.size + 3]))
  have hvalues₂ := values_parameters c evidence
    (h.of_leads hleads₂ (Nat.lt_succ_of_lt (Nat.lt_succ_of_lt hnext))) hnext
  rw [values_push, values_push, values_push, hvalues₂]
  generalize e.values c evidence = vs at hsize ⊢
  rw [← hsize] at hneg hpos ⊢
  -- the values of the five opcodes, each of which refers to those before it
  have hvalue₂ : c.valueOf evidence ((vs.push w₀).push w₁) (.product [vs.size, negative])
      = Arithmetic.product [w₀, vs.getD negative Arithmetic.zero] := by
    show Arithmetic.product [Array.getD _ _ _, Array.getD _ _ _] = _
    rw [getD_push_lt (vs.push w₀) w₁ _ (by simp), getD_push_self,
      getD_push_lt (vs.push w₀) w₁ _ (by simp; omega), getD_push_lt vs w₀ _ hneg]
  rw [hvalue₂]
  generalize Arithmetic.product [w₀, vs.getD negative Arithmetic.zero] = p₀
  have hvalue₃ : c.valueOf evidence (((vs.push w₀).push w₁).push p₀) (.product [vs.size + 1, positive])
      = Arithmetic.product [w₁, vs.getD positive Arithmetic.zero] := by
    show Arithmetic.product [Array.getD _ _ _, Array.getD _ _ _] = _
    have hsize₁ : vs.size + 1 = (vs.push w₀).size := (Array.size_push _).symm
    rw [getD_push_lt _ p₀ _ (by simp), hsize₁, getD_push_self,
      getD_push_lt _ p₀ _ (by simp; omega), getD_push_lt (vs.push w₀) w₁ _ (by simp; omega),
      getD_push_lt vs w₀ _ hpos]
  rw [hvalue₃]
  generalize Arithmetic.product [w₁, vs.getD positive Arithmetic.zero] = p₁
  have hvalue₄ : c.valueOf evidence ((((vs.push w₀).push w₁).push p₀).push p₁)
      (.sum [vs.size + 2, vs.size + 3]) = Arithmetic.sum [p₀, p₁] := by
    show Arithmetic.sum [Array.getD _ _ _, Array.getD _ _ _] = _
    have hsize₂ : vs.size + 2 = ((vs.push w₀).push w₁).size := by simp
    have hsize₃ : vs.size + 3 = (((vs.push w₀).push w₁).push p₀).size := by simp
    rw [getD_push_lt _ p₁ _ (by simp), hsize₂, getD_push_self, hsize₃, getD_push_self]
  rw [hvalue₄]
  have hsize₄ : vs.size + 4 = ((((vs.push w₀).push w₁).push p₀).push p₁).size := by simp
  rw [hsize₄, Array.getElem?_push_size]

end Emission
end Sentential
