import Mathlib.Data.List.Basic
import Mathlib.Logic.Function.Basic

/-!
# A heap with a tracing collector

Objects refer to each other by address. A collection marks a set of addresses
that contains the roots and is closed under references, and then frees some of
the others; it may leave the rest for later, so a dead object can refer to an
address that is free or used again.

Results:
1. `marked_of_reachable`, `collect_of_reachable`: what is reachable stays.
2. `of_reachable`: what the roots have and references keep holds of all that is
   reachable; `reachable_mono`: more roots reach more.
-/

namespace TracedHeap

/-! ## Definitions -/

/-- The free addresses have no object. -/
abbrev Heap (ω : Type*) := ℕ → Option ω

structure Collection where
  marked : List ℕ := []
  swept : List ℕ := []

variable {ω : Type*} (refs : ω → List ℕ)

inductive Reachable (roots : List ℕ) (heap : Heap ω) : ℕ → Prop
  | root {a : ℕ} : a ∈ roots → Reachable roots heap a
  | ref {a b : ℕ} {o : ω} : Reachable roots heap a → heap a = some o → b ∈ refs o →
      Reachable roots heap b

/-- The marking is complete, and nothing marked is freed. -/
structure Collection.Valid (c : Collection) (roots : List ℕ) (heap : Heap ω) : Prop where
  roots : ∀ a ∈ roots, a ∈ c.marked
  closed : ∀ a ∈ c.marked, ∀ o ∈ heap a, ∀ b ∈ refs o, b ∈ c.marked
  swept : ∀ a ∈ c.swept, a ∉ c.marked

instance (c : Collection) (roots : List ℕ) (heap : Heap ω) : Decidable (c.Valid refs roots heap) :=
  decidable_of_iff
    ((∀ a ∈ roots, a ∈ c.marked) ∧ (∀ a ∈ c.marked, ∀ o ∈ heap a, ∀ b ∈ refs o, b ∈ c.marked) ∧
      ∀ a ∈ c.swept, a ∉ c.marked)
    ⟨fun h => ⟨h.1, h.2.1, h.2.2⟩, fun h => ⟨h.roots, h.closed, h.swept⟩⟩

/-- What is left after the collection; one that is not valid does not happen. -/
def collect (c : Collection) (roots : List ℕ) (heap : Heap ω) : Heap ω :=
  if c.Valid refs roots heap then fun a => if a ∈ c.swept then none else heap a else heap

variable {refs} {roots : List ℕ} {heap : Heap ω} {c : Collection}

/-! ## 1. What stays -/

theorem marked_of_reachable (hc : c.Valid refs roots heap) {a : ℕ}
    (h : Reachable refs roots heap a) : a ∈ c.marked := by
  induction h with
  | root hr => exact hc.roots _ hr
  | ref _ ho hb ih => exact hc.closed _ ih _ ho _ hb

theorem collect_of_valid (hc : c.Valid refs roots heap) (a : ℕ) :
    collect refs c roots heap a = if a ∈ c.swept then none else heap a := by
  rw [collect, if_pos hc]

theorem collect_of_marked (hc : c.Valid refs roots heap) {a : ℕ} (ha : a ∈ c.marked) :
    collect refs c roots heap a = heap a := by
  rw [collect_of_valid hc, if_neg fun hs => hc.swept a hs ha]

theorem collect_of_not_valid (hc : ¬ c.Valid refs roots heap) : collect refs c roots heap = heap :=
  if_neg hc

theorem collect_of_reachable {a : ℕ} (h : Reachable refs roots heap a) :
    collect refs c roots heap a = heap a := by
  by_cases hc : c.Valid refs roots heap
  · exact collect_of_marked hc (marked_of_reachable hc h)
  · rw [collect_of_not_valid hc]

/-- A collection makes no object. -/
theorem of_collect {a : ℕ} {o : ω} (h : collect refs c roots heap a = some o) :
    heap a = some o := by
  by_cases hc : c.Valid refs roots heap
  · rw [collect_of_valid hc] at h
    split at h
    · cases h
    · exact h
  · rwa [collect_of_not_valid hc] at h

/-! ## 2. What is reachable -/

theorem of_reachable {P : ℕ → Prop} (hroots : ∀ a ∈ roots, P a)
    (hclosed : ∀ a o, P a → heap a = some o → ∀ b ∈ refs o, P b) {a : ℕ}
    (h : Reachable refs roots heap a) : P a := by
  induction h with
  | root hr => exact hroots _ hr
  | ref _ ho hb ih => exact hclosed _ _ ih ho _ hb

theorem reachable_mono {roots' : List ℕ} (hroots : ∀ a ∈ roots, Reachable refs roots' heap a)
    {a : ℕ} (h : Reachable refs roots heap a) : Reachable refs roots' heap a :=
  of_reachable hroots (fun _ _ ha ho _ hb => .ref ha ho hb) h

end TracedHeap
