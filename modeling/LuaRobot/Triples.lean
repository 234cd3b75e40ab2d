/-!
# Pre- and postconditions of stateful functions that may raise

Results:
1. `triple_bind`, `triple_post`, `triple_of_eq`: the rules.
-/

namespace Triples

variable {ε σ α β : Type}

/-! ## Definitions -/

/-- From a state with `P` the function returns with `Q`, or raises with `E`. -/
def Triple (P : σ → Prop) (m : EStateM ε σ α) (Q : α → σ → Prop) (E : ε → σ → Prop) : Prop :=
  ∀ s, P s → match m s with
    | .ok a s' => Q a s'
    | .error e s' => E e s'

variable {P : σ → Prop} {m : EStateM ε σ α} {Q : α → σ → Prop} {E : ε → σ → Prop}

/-! ## 1. Rules -/

theorem triple_bind {f : α → EStateM ε σ β} {R : β → σ → Prop} (hm : Triple P m Q E)
    (hf : ∀ a, Triple (Q a) (f a) R E) : Triple P (m >>= f) R E := by
  intro s hs
  have h := hm s hs
  simp only [bind, EStateM.bind]
  cases hms : m s with
  | ok a s' =>
    rw [hms] at h
    exact hf a s' h
  | error e s' =>
    rw [hms] at h
    exact h

theorem triple_post {Q' : α → σ → Prop} (h : Triple P m Q E) (hQ : ∀ a s, Q a s → Q' a s) :
    Triple P m Q' E := by
  intro s hs
  have hm := h s hs
  cases hms : m s with
  | ok a s' =>
    rw [hms] at hm
    exact hQ a s' hm
  | error e s' =>
    rw [hms] at hm
    exact hm

/-- A function that returns. -/
theorem triple_of_eq (h : ∀ s, P s → ∃ a s', m s = .ok a s' ∧ Q a s') : Triple P m Q E := by
  intro s hs
  obtain ⟨a, s', heq, hq⟩ := h s hs
  rw [heq]
  exact hq

end Triples
