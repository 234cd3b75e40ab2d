import Mathlib.Data.List.Basic

/-!
# Byte strings

Results:
1. `gsub_of_not_mem`, `mark_not_mem_gsub`: substituting a byte.
2. `mem_splitOn`: splitting at a byte.
-/

namespace ByteStrings

/-! ## Definitions -/

/-- The bytes of an ASCII literal. -/
def ascii (s : String) : List UInt8 := s.toList.map fun c => UInt8.ofNat c.toNat

/-- `s` with `r` in the place of every `mark`. -/
def gsub (mark : UInt8) (r s : List UInt8) : List UInt8 :=
  s.flatMap fun b => if b = mark then r else [b]

/-! ## 1. Substituting -/

theorem gsub_append (mark : UInt8) (r s t : List UInt8) :
    gsub mark r (s ++ t) = gsub mark r s ++ gsub mark r t :=
  List.flatMap_append

theorem gsub_of_not_mem {mark : UInt8} {s : List UInt8} (r : List UInt8) (h : mark ∉ s) :
    gsub mark r s = s := by
  induction s with
  | nil => rfl
  | cons b s ih =>
    rw [List.mem_cons, not_or] at h
    have hcons : gsub mark r (b :: s) = (if b = mark then r else [b]) ++ gsub mark r s := rfl
    rw [hcons, if_neg (Ne.symm h.1), ih h.2, List.singleton_append]

theorem mark_not_mem_gsub {mark : UInt8} {r : List UInt8} (hr : mark ∉ r) (s : List UInt8) :
    mark ∉ gsub mark r s := by
  intro h
  obtain ⟨b, _, hb⟩ := List.mem_flatMap.mp h
  split at hb
  · exact hr hb
  · next hne => exact hne (List.mem_singleton.mp hb).symm

/-! ## 2. Splitting -/

/-- The pieces are made of the bytes of the string, without the separator. -/
theorem mem_splitOn {sep : UInt8} {s piece : List UInt8} (h : piece ∈ s.splitOn sep) :
    ∀ b ∈ piece, b ∈ s ∧ b ≠ sep := by
  induction s generalizing piece with
  | nil =>
    rw [List.splitOn_nil, List.mem_singleton] at h
    subst h
    exact fun b hb => absurd hb List.not_mem_nil
  | cons c s ih =>
    rw [List.splitOn_cons_eq_if_modifyHead] at h
    split at h
    · rcases List.mem_cons.mp h with rfl | h
      · exact fun b hb => absurd hb List.not_mem_nil
      · exact fun b hb => ⟨List.mem_cons_of_mem c (ih h b hb).1, (ih h b hb).2⟩
    · next hc =>
      cases hsplit : s.splitOn sep with
      | nil => exact absurd hsplit (List.splitOn_ne_nil sep s)
      | cons first rest =>
        rw [hsplit, List.modifyHead_cons] at h
        rw [hsplit] at ih
        rcases List.mem_cons.mp h with rfl | h
        · intro b hb
          rcases List.mem_cons.mp hb with rfl | hb
          · exact ⟨List.mem_cons_self, fun hbs => hc (by simp [hbs])⟩
          · obtain ⟨hbs, hne⟩ := ih List.mem_cons_self b hb
            exact ⟨List.mem_cons_of_mem c hbs, hne⟩
        · obtain hrest := ih (List.mem_cons_of_mem first h)
          exact fun b hb => ⟨List.mem_cons_of_mem c (hrest b hb).1, (hrest b hb).2⟩

end ByteStrings
