import Sentential.Format.Reader
import Sentential.Proofs.Outcome

/-!
# What reading keeps

`readNodes` works through the records one by one. A property of the state and the table of nodes
that one record keeps is kept by all of them (`readNodes_keeps`); the weaker property of the state
alone holds also where the reading stops.
-/

namespace Sentential.Format

open Text (Field Record)

namespace Slots

variable {α : Type} {t t' : Slots α} {line id : Nat} {a : α}

theorem get_eq_ok : t.get line id = .ok a ↔ t.slots[id]? = some (some a) := by
  rw [get]
  split <;> simp_all

theorem set_eq_ok : t.set line id a = .ok t' ↔
    t.slots[id]? = some none ∧ t' = ⟨t.slots.setIfInBounds id (some a), t.found + 1, some a⟩ := by
  rw [set]
  split
  · next h => simp [h]
  · next h => simp [h]
  · next h =>
    rw [h, Except.ok.injEq, eq_self_iff_true, true_and]
    exact eq_comm

/-- What is in a slot stays there. -/
theorem getElem?_set_of_some (h : t.set line id a = .ok t') {j : Nat} {b : α}
    (hj : t.slots[j]? = some (some b)) : t'.slots[j]? = some (some b) := by
  obtain ⟨hfree, rfl⟩ := set_eq_ok.1 h
  show (t.slots.setIfInBounds id (some a))[j]? = _
  rw [Array.getElem?_setIfInBounds_ne, hj]
  rintro rfl
  rw [hfree] at hj
  exact absurd hj (by simp)

/-- What is in a slot was there before or has just been put there. -/
theorem of_getElem?_set (h : t.set line id a = .ok t') {j : Nat} {b : α}
    (hj : t'.slots[j]? = some (some b)) : (j = id ∧ b = a) ∨ t.slots[j]? = some (some b) := by
  obtain ⟨-, rfl⟩ := set_eq_ok.1 h
  have hj : (t.slots.setIfInBounds id (some a))[j]? = some (some b) := hj
  rw [Array.getElem?_setIfInBounds] at hj
  split at hj
  · next hji =>
    have hboth : id < t.slots.size ∧ b = a := by simpa using hj.symm
    exact Or.inl ⟨hji.symm, hboth.2⟩
  · exact Or.inr hj

theorem finish_eq_ok : t.finish = .ok a ↔ t.found = t.slots.size ∧ t.last = some a := by
  rw [finish]
  split
  · simp_all
  · split <;> simp_all

/-- The nodes of a table, the last one among them, all have a property. -/
structure All (p : α → Prop) (t : Slots α) : Prop where
  slots : ∀ (i : Nat) (a : α), t.slots[i]? = some (some a) → p a
  last : ∀ a, t.last = some a → p a

variable {p q : α → Prop}

theorem all_ofCount (p : α → Prop) (declared : Nat) : (ofCount declared).All p := by
  refine ⟨fun i a h => ?_, fun a h => absurd h (by simp [ofCount])⟩
  have hi : (Array.replicate declared (none : Option α))[i]? = some (some a) := h
  rw [Array.getElem?_replicate] at hi
  split at hi
  · exact absurd hi (by simp)
  · exact absurd hi (by simp)

theorem All.imp (h : t.All p) (himp : ∀ a, p a → q a) : t.All q :=
  ⟨fun i a hi => himp a (h.slots i a hi), fun a ha => himp a (h.last a ha)⟩

theorem All.set (h : t.All p) (ha : p a) (hset : t.set line id a = .ok t') : t'.All p := by
  refine ⟨fun j x hj => ?_, fun x hx => ?_⟩
  · rcases of_getElem?_set hset hj with ⟨-, rfl⟩ | hold
    · exact ha
    · exact h.slots j x hold
  · obtain ⟨-, rfl⟩ := set_eq_ok.1 hset
    obtain rfl : a = x := Option.some_inj.1 hx
    exact ha

end Slots

section

variable {σ α : Type} {build : σ → Slots α → Record → Nat → Except FormatError α × σ}
  (keeps : σ → Slots α → Prop) (leaves : σ → Prop)

/-- What every record keeps, all records keep: `keeps` speaks of the state and the table between
two records, `leaves` of the state alone, and also of that behind a record that is refused. -/
theorem readNodes_keeps (hleaves : ∀ s t, keeps s t → leaves s)
    (hrefused : ∀ s t r id e s', keeps s t → build s t r id = (.error e, s') → leaves s')
    (hbuilt : ∀ s t r id a s', keeps s t → build s t r id = (.ok a, s') →
      leaves s' ∧ ∀ t', t.set r.line id a = .ok t' → keeps s' t')
    (rs : List Record) (s : σ) (t : Slots α) (h : keeps s t) :
    leaves (readNodes build rs s t).2 ∧
      ∀ t', (readNodes build rs s t).1 = .ok t' → keeps (readNodes build rs s t).2 t' := by
  induction rs generalizing s t with
  | nil =>
    refine ⟨hleaves s t h, fun t' ht' => ?_⟩
    obtain rfl : t = t' := Except.ok.inj ht'
    exact h
  | cons r rs ih =>
    cases hid : field readWord? .id r 1 with
    | error e =>
      simp only [readNodes, hid]
      exact ⟨hleaves s t h, fun t' ht' => absurd ht' (by simp)⟩
    | ok id =>
      rcases hb : build s t r id with ⟨e | a, s'⟩
      · simp only [readNodes, hid, hb]
        exact ⟨hrefused s t r id e s' h hb, fun t' ht' => absurd ht' (by simp)⟩
      · obtain ⟨hs', hkeeps⟩ := hbuilt s t r id a s' h hb
        cases hset : t.set r.line id a with
        | error e =>
          simp only [readNodes, hid, hb, hset]
          exact ⟨hs', fun t' ht' => absurd ht' (by simp)⟩
        | ok t' =>
          simp only [readNodes, hid, hb, hset]
          exact ih s' t' (hkeeps t' hset)

end
end Sentential.Format
