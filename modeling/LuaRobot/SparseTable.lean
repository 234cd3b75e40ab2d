import Mathlib.Data.Fintype.EquivFin
import Mathlib.Data.List.AList
import Mathlib.Data.Nat.Find

/-!
# Arrays with holes

A table used as an array: a finite map from integers, which may lose any entry.
The length operator returns some border: `0` or an index in use, whose successor
is free.

Results:
1. `exists_border`: the length operator can return something.
2. `push_free`, `once_push`, `once_erase`: pushing and removing at a border
   overwrite nothing and keep the values distinct.
3. `upto_push`, `upto_erase`: they make no holes, and without holes the border is
   the number of the entries.
-/

namespace SparseTable

/-! ## Definitions -/

abbrev Table (α : Type*) := AList fun _ : ℕ => α

variable {α : Type*}

/-- The length operator may return `n`. -/
def IsBorder (t : Table α) (n : ℕ) : Prop := (n = 0 ∨ n ∈ t) ∧ n + 1 ∉ t

instance (t : Table α) (n : ℕ) : Decidable (IsBorder t n) :=
  inferInstanceAs (Decidable ((n = 0 ∨ n ∈ t) ∧ n + 1 ∉ t))

/-- `t[#t + 1] = v`, the length being `n`. -/
def push (t : Table α) (n : ℕ) (v : α) : Table α := t.insert (n + 1) v

/-- `table.remove(t)`, the length being `n`: the entry and the table without it. -/
def remove (t : Table α) (n : ℕ) : Option α × Table α := (t.lookup n, t.erase n)

/-- The table without the entries at these indices. -/
def collect (t : Table α) (slots : List ℕ) : Table α := slots.foldl (fun t n => t.erase n) t

/-- Every entry of `t` is one of `u`. -/
def Sub (t u : Table α) : Prop := ∀ n v, t.lookup n = some v → u.lookup n = some v

/-- No value occurs twice. -/
def Once (t : Table α) : Prop := ∀ n m v, t.lookup n = some v → t.lookup m = some v → n = m

/-- The indices in use are `1` to `k`. -/
def Upto (t : Table α) (k : ℕ) : Prop := ∀ n, n ∈ t ↔ 1 ≤ n ∧ n ≤ k

/-! ## 1. Borders -/

theorem exists_border (t : Table α) : ∃ n, IsBorder t n := by
  have hfree : ∃ n, n + 1 ∉ t := by
    obtain ⟨n, hn⟩ := Infinite.exists_notMem_finset (t.keys.map Nat.pred).toFinset
    refine ⟨n, fun hmem => hn ?_⟩
    exact List.mem_toFinset.mpr (List.mem_map.mpr ⟨n + 1, AList.mem_keys.mp hmem, rfl⟩)
  classical
  refine ⟨Nat.find hfree, ?_, Nat.find_spec hfree⟩
  cases h : Nat.find hfree with
  | zero => exact Or.inl rfl
  | succ n => exact Or.inr (not_not.mp (Nat.find_min hfree (show n < _ by omega)))

theorem push_free {t : Table α} {n : ℕ} (h : IsBorder t n) : t.lookup (n + 1) = none :=
  AList.lookup_eq_none.mpr h.2

/-! ## 2. Pushing and removing -/

theorem lookup_push {t : Table α} {n m : ℕ} {v u : α} :
    (push t n v).lookup m = some u ↔ (m = n + 1 ∧ u = v) ∨ (m ≠ n + 1 ∧ t.lookup m = some u) := by
  by_cases hm : m = n + 1
  · subst hm
    simp [push, eq_comm]
  · simp [push, hm, AList.lookup_insert_ne hm]

theorem lookup_erase {t : Table α} {n m : ℕ} {v : α} :
    (t.erase n).lookup m = some v ↔ m ≠ n ∧ t.lookup m = some v := by
  by_cases hm : m = n
  · subst hm
    simp
  · simp [hm, AList.lookup_erase_ne hm]

theorem sub_erase (t : Table α) (n : ℕ) : Sub (t.erase n) t :=
  fun _ _ h => (lookup_erase.mp h).2

theorem sub_collect (t : Table α) (slots : List ℕ) : Sub (collect t slots) t := by
  induction slots generalizing t with
  | nil => exact fun _ _ h => h
  | cons n slots ih => exact fun m v h => sub_erase t n m v (ih (t.erase n) m v h)

theorem once_of_sub {t u : Table α} (h : Once u) (hsub : Sub t u) : Once t :=
  fun n m v hn hm => h n m v (hsub n v hn) (hsub m v hm)

theorem once_push {t : Table α} {n : ℕ} {v : α} (h : Once t) (hv : ∀ m, t.lookup m ≠ some v) :
    Once (push t n v) := by
  intro i j u hi hj
  rcases lookup_push.mp hi with ⟨hin, hiv⟩ | ⟨_, hit⟩
  · rcases lookup_push.mp hj with ⟨hjn, _⟩ | ⟨_, hjt⟩
    · exact hin.trans hjn.symm
    · exact absurd (hiv ▸ hjt) (hv j)
  · rcases lookup_push.mp hj with ⟨_, hjv⟩ | ⟨_, hjt⟩
    · exact absurd (hjv ▸ hit) (hv i)
    · exact h i j u hit hjt

/-- What was removed does not occur any more. -/
theorem once_erase {t : Table α} {n : ℕ} {v : α} (h : Once t) (hn : t.lookup n = some v) (m : ℕ) :
    (t.erase n).lookup m ≠ some v := by
  intro hm
  obtain ⟨hne, hm⟩ := lookup_erase.mp hm
  exact hne (h m n v hm hn)

/-! ## 3. Without holes -/

theorem upto_empty : Upto (∅ : Table α) 0 := fun _ =>
  iff_of_false (AList.notMem_empty _) fun h => absurd (h.1.trans h.2) (Nat.not_succ_le_zero 0)

theorem border_upto {t : Table α} {n k : ℕ} (h : Upto t k) (hn : IsBorder t n) : n = k := by
  have hle : n ≤ k := by
    rcases hn.1 with rfl | hmem
    · exact Nat.zero_le k
    · exact ((h n).mp hmem).2
  refine Nat.le_antisymm hle (Nat.le_of_not_lt fun hlt => hn.2 ((h (n + 1)).mpr ?_))
  exact ⟨Nat.succ_pos n, hlt⟩

theorem upto_push {t : Table α} {k : ℕ} (h : Upto t k) (v : α) : Upto (push t k v) (k + 1) := by
  intro n
  rw [push, AList.mem_insert, h n]
  constructor
  · rintro (rfl | ⟨hpos, hle⟩)
    · exact ⟨Nat.succ_pos k, le_rfl⟩
    · exact ⟨hpos, hle.trans (Nat.le_succ k)⟩
  · rintro ⟨hpos, hle⟩
    exact (Nat.le_succ_iff.mp hle).elim (fun hk => Or.inr ⟨hpos, hk⟩) Or.inl

theorem upto_erase {t : Table α} {k : ℕ} (h : Upto t k) : Upto (t.erase k) (k - 1) := by
  intro n
  rw [AList.mem_erase, h n]
  constructor
  · rintro ⟨hne, hpos, hle⟩
    exact ⟨hpos, Nat.le_sub_one_of_lt (lt_of_le_of_ne hle hne)⟩
  · rintro ⟨hpos, hle⟩
    have hlt : n < k := Nat.lt_of_le_pred (by omega) hle
    exact ⟨hlt.ne, hpos, hlt.le⟩

/-- What a border without an entry says: there is no entry at all. -/
theorem lookup_of_upto {t : Table α} {k : ℕ} (h : Upto t k) (hk : t.lookup k = none) (n : ℕ) :
    t.lookup n = none := by
  refine AList.lookup_eq_none.mpr fun hn => AList.lookup_eq_none.mp hk ((h k).mpr ?_)
  obtain ⟨hpos, hle⟩ := (h n).mp hn
  exact ⟨hpos.trans hle, le_rfl⟩

end SparseTable
