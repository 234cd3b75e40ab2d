import Mathlib.Order.Defs.LinearOrder
import Mathlib.Algebra.BigOperators.Group.Finset.Basic
import Mathlib.Tactic.Ring

/-!
# Greedy filling

Places `ι`, of which `S` may be used, with a natural number of items each. One
greedy step adds an item to the first place of `S` among those with the fewest.

Results:
1. `firstMin_unique`: the greedy choice is determined.
2. `filled_start`, `filled_step`: from any start `c₀` the places of `S` that
   started at or below a level `L` are at `L` or `L + 1`, those at `L + 1` being
   an initial segment of them, and every other place is as it started.
3. `roundRobin_first`, `roundRobin_step`: from zero the greedy choice goes round.
4. `sum_step`: a step adds one to the total.
-/

namespace WaterLevel

variable {ι : Type*} [LinearOrder ι] {S : ι → Prop} {c₀ c c' : ι → ℕ} {i : ι} {L : ℕ}

/-! ## Definitions -/

/-- `i` is the first place of `S` among those with the least count. -/
structure FirstMin (S : ι → Prop) (c : ι → ℕ) (i : ι) : Prop where
  mem : S i
  least : ∀ j, S j → c i ≤ c j
  first : ∀ j, S j → j < i → c i < c j

/-- `c` is `c₀` filled up to the level `L`. -/
structure Filled (S : ι → Prop) (c₀ c : ι → ℕ) (L : ℕ) : Prop where
  outside : ∀ i, ¬ S i → c i = c₀ i
  above : ∀ i, S i → L < c₀ i → c i = c₀ i
  level : ∀ i, S i → c₀ i ≤ L → c i = L ∨ c i = L + 1
  initial : ∀ i j, S i → S j → c₀ i ≤ L → c₀ j ≤ L → i < j → c j = L + 1 → c i = L + 1

/-- `c'` is `c` with one more item at `i`. -/
structure OneMore (c c' : ι → ℕ) (i : ι) : Prop where
  here : c' i = c i + 1
  elsewhere : ∀ j, j ≠ i → c' j = c j

/-! ## 1. The choice -/

theorem firstMin_unique {j : ι} (hi : FirstMin S c i) (hj : FirstMin S c j) : i = j := by
  rcases lt_trichotomy i j with h | h | h
  · exact absurd (hi.least j hj.mem) (Nat.not_le.mpr (hj.first i hi.mem h))
  · exact h
  · exact absurd (hj.least i hi.mem) (Nat.not_le.mpr (hi.first j hj.mem h))

theorem firstMin_congr {S' : ι → Prop} (hS : ∀ j, S' j ↔ S j) (hc : ∀ j, S j → c' j = c j)
    (h : FirstMin S c i) : FirstMin S' c' i where
  mem := (hS i).mpr h.mem
  least := by
    intro j hj
    rw [hc i h.mem, hc j ((hS j).mp hj)]
    exact h.least j ((hS j).mp hj)
  first := by
    intro j hj hji
    rw [hc i h.mem, hc j ((hS j).mp hj)]
    exact h.first j ((hS j).mp hj) hji

/-! ## 2. The level -/

/-- The level of the start is the least count in `S`. -/
theorem filled_start (hS : ∃ i, S i) : ∃ L, Filled S c₀ c₀ L ∧ ∃ i, S i ∧ c₀ i ≤ L := by
  classical
  have hex : ∃ n, ∃ i, S i ∧ c₀ i = n := hS.imp' c₀ fun i hi => ⟨i, hi, rfl⟩
  obtain ⟨i, hi, hmin⟩ := Nat.find_spec hex
  have hle : ∀ j, S j → Nat.find hex ≤ c₀ j := fun j hj => Nat.find_min' hex ⟨j, hj, rfl⟩
  refine ⟨Nat.find hex, ⟨fun _ _ => rfl, fun _ _ _ => rfl, ?_, ?_⟩, i, hi, hmin.le⟩
  · intro j hj h
    exact Or.inl (le_antisymm h (hle j hj))
  · intro j k hj hk _ h _ heq
    omega

/-- When no place is left at `L`, the level is `L + 1` as well, and some place
is left there. -/
theorem filled_raise (h : Filled S c₀ c L) (hlow : ∃ i, S i ∧ c₀ i ≤ L) :
    ∃ L', Filled S c₀ c L' ∧ ∃ i, S i ∧ c₀ i ≤ L' ∧ c i = L' := by
  by_cases hex : ∃ i, S i ∧ c₀ i ≤ L ∧ c i = L
  · exact ⟨L, h, hex⟩
  · have hfull : ∀ i, S i → c₀ i ≤ L → c i = L + 1 := by
      intro i hi hle
      rcases h.level i hi hle with h0 | h1
      · exact absurd ⟨i, hi, hle, h0⟩ hex
      · exact h1
    have hnext : ∀ i, S i → c₀ i ≤ L + 1 → c i = L + 1 := by
      intro i hi hle
      rcases Nat.lt_or_ge L (c₀ i) with hlt | hge
      · rw [h.above i hi hlt]; omega
      · exact hfull i hi hge
    obtain ⟨i, hi, hle⟩ := hlow
    refine ⟨L + 1, ⟨h.outside, ?_, ?_, ?_⟩, i, hi, by omega, hfull i hi hle⟩
    · intro j hj hlt
      exact h.above j hj (by omega)
    · intro j hj hle'
      exact Or.inl (hnext j hj hle')
    · intro j k _ hk _ hle' _ heq
      have := hnext k hk hle'
      omega

/-- A greedy step keeps the shape. -/
theorem filled_step (h : Filled S c₀ c L) (hlow : ∃ i, S i ∧ c₀ i ≤ L)
    (hi : FirstMin S c i) (hc : OneMore c c' i) :
    ∃ L', Filled S c₀ c' L' ∧ ∃ i, S i ∧ c₀ i ≤ L' := by
  obtain ⟨M, hM, k, hk, hkM, hckM⟩ := filled_raise h hlow
  have hcM : ∀ j, S j → M ≤ c j := by
    intro j hj
    rcases Nat.lt_or_ge M (c₀ j) with hlt | hge
    · rw [hM.above j hj hlt]; omega
    · rcases hM.level j hj hge with h0 | h1 <;> omega
  -- the least count is `M`, and only a place that started at or below `M` has it
  have hciM : c i = M := le_antisymm (hckM ▸ hi.least k hk) (hcM i hi.mem)
  have hiM : c₀ i ≤ M := by
    by_contra hlt
    have := hM.above i hi.mem (by omega)
    omega
  have hci : c' i = M + 1 := by rw [hc.here, hciM]
  refine ⟨M, ⟨?_, ?_, ?_, ?_⟩, k, hk, hkM⟩
  · intro j hj
    rw [hc.elsewhere j (fun he => hj (he ▸ hi.mem)), hM.outside j hj]
  · intro j hj hlt
    have hne : j ≠ i := by
      rintro rfl
      omega
    rw [hc.elsewhere j hne, hM.above j hj hlt]
  · intro j hj hle
    by_cases hji : j = i
    · rw [hji]; exact Or.inr hci
    · rw [hc.elsewhere j hji]; exact hM.level j hj hle
  · intro j l hj hl hjM hlM hjl heq
    by_cases hji : j = i
    · rw [hji]; exact hci
    · rw [hc.elsewhere j hji]
      by_cases hli : l = i
      · -- `i` is the first place at `M`, so the places before it are full
        subst hli
        have hlt := hi.first j hj hjl
        rcases hM.level j hj hjM with h0 | h1 <;> omega
      · rw [hc.elsewhere l hli] at heq
        exact hM.initial j l hj hl hjM hlM hjl heq

/-! ## 3. Going round -/

/-- The counts of `n` places after `m` items went round. -/
def roundRobin (n m i : ℕ) : ℕ := m / n + if i < m % n then 1 else 0

theorem roundRobin_zero (n i : ℕ) : roundRobin n 0 i = 0 := by
  simp [roundRobin]

/-- After a full round every place has one item. -/
theorem roundRobin_self {n : ℕ} (hn : 0 < n) (i : ℕ) : roundRobin n n i = 1 := by
  rw [roundRobin, Nat.div_self hn, Nat.mod_self, if_neg (Nat.not_lt_zero i)]

/-- The first place with the fewest items is the one whose turn it is. -/
theorem roundRobin_first {n : ℕ} (hn : 0 < n) (m : ℕ) :
    FirstMin (· < n) (roundRobin n m) (m % n) where
  mem := Nat.mod_lt m hn
  least := by
    intro j _
    unfold roundRobin
    split <;> split <;> omega
  first := by
    intro j _ hj
    unfold roundRobin
    rw [if_neg (lt_irrefl _), if_pos hj]
    omega

theorem roundRobin_step {n : ℕ} (hn : 0 < n) (m : ℕ) {i : ℕ} (hi : i < n) :
    roundRobin n (m + 1) i = roundRobin n m i + if i = m % n then 1 else 0 := by
  have hmod := Nat.mod_lt m hn
  have hdiv := Nat.div_add_mod m n
  unfold roundRobin
  by_cases hlast : m % n + 1 = n
  · -- the round is complete: the quotient grows and the remainder starts again
    have hdiv' : (m + 1) / n = m / n + 1 := by
      rw [show m + 1 = n * (m / n + 1) by rw [Nat.mul_add]; omega, Nat.mul_div_cancel_left _ hn]
    have hmod' : (m + 1) % n = 0 := by
      rw [show m + 1 = n * (m / n + 1) by rw [Nat.mul_add]; omega, Nat.mul_mod_right]
    rw [hdiv', hmod']
    split <;> split <;> split <;> omega
  · have hlt : m % n + 1 < n := by omega
    have hdiv' : (m + 1) / n = m / n := by
      rw [show m + 1 = m % n + 1 + n * (m / n) by omega, Nat.add_mul_div_left _ _ hn,
        Nat.div_eq_of_lt hlt, Nat.zero_add]
    have hmod' : (m + 1) % n = m % n + 1 := by
      rw [show m + 1 = m % n + 1 + n * (m / n) by omega, Nat.add_mul_mod_self_left,
        Nat.mod_eq_of_lt hlt]
    rw [hdiv', hmod']
    split <;> split <;> split <;> omega

/-! ## 4. The total -/

theorem sum_step (s : Finset ι) (hi : i ∈ s) (hc : OneMore c c' i) :
    ∑ j ∈ s, c' j = ∑ j ∈ s, c j + 1 := by
  rw [← Finset.add_sum_erase s c' hi, ← Finset.add_sum_erase s c hi, hc.here,
    Finset.sum_congr rfl fun j hj => hc.elsewhere j (Finset.ne_of_mem_erase hj)]
  ring

end WaterLevel
