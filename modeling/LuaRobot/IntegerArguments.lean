import LuaRobot.Identity
import LuaRobot.LuaUtility

/-!
# Lua integers as C++ integers

A 64-bit Lua integer becomes a C++ integer in `getLuaValue`, behind a cast to
the type and back, and in `fowardToActor`, behind a bare cast.

Results:
1. `getLuaValue_crosses`: `getLuaValue` keeps or rejects every integer, but for
   the negative ones as a 64-bit unsigned type.
2. `fowardToActor_reaches`: which integers `fowardToActor` treats as it should.
3. `integers_cross`: the two together; `integers_aliased` has an input for each
   defect.
-/

namespace LuaRobot

open ByteStrings IntegerCast LuaStack LuaStack.StackLemmas LuaUtilityLemmas

/-! ## Definitions -/

/-- `fowardToActor(L)` for the service `S` of `L`, up to the call it makes. -/
def LuaService.fowardToActor (F : NumberFormat) (S : LuaService) : Api ForwardToActor := do
  match LuaRobot.fowardToActor S (← luaL_checkinteger F 1) with
  | .ok call => return call
  | .error (arg, extramsg) => luaL_argerror arg (ascii extramsg)

/-- `getLuaValue` returns exactly when `T` has `v`, and then it returns `v`. -/
structure Crosses (F : NumberFormat) (T : IntegralType) (L : LuaState) (i : Int) (v : Int64) :
    Prop where
  returns : (∃ x L', getLuaValue F (.integral T) i L = .ok x L') ↔ T.InRange v.toInt
  value : ∀ x L', getLuaValue F (.integral T) i L = .ok x L' → T.toInt x = v.toInt

def IsActor (v : Int64) : Prop := 1 ≤ v.toInt ∧ v.toInt ≤ 2 ^ 32 - 1

instance (v : Int64) : Decidable (IsActor v) := inferInstanceAs (Decidable (_ ∧ _))

/-- `fowardToActor` raises for what is no actor and forwards to the one that `v` is. -/
structure Reaches (F : NumberFormat) (S : LuaService) (L : LuaState) (v : Int64) : Prop where
  raises : ¬ IsActor v → Raises (S.fowardToActor F) L
  receiver : IsActor v → ∃ call L', S.fowardToActor F L = .ok call L' ∧
    (call.receiver.toNat : Int) = v.toInt

/-! ## 1. Through `getLuaValue` -/

/-- The integers that a type of 64 bits or more lacks. -/
theorem inRange_of_wide {T : IntegralType} (h : 64 ≤ T.bits) (v : Int64) :
    T.InRange v.toInt ↔ ¬ (T.signed = false ∧ v.toInt < 0) := by
  have hle := v.le_toInt
  have hlt := v.toInt_lt
  have hpow : (2 ^ 63 : Int) ≤ 2 ^ (T.bits - 1) :=
    pow_le_pow_right₀ (by decide) (Nat.le_sub_one_of_lt h)
  have hpow' : (2 ^ 63 : Int) ≤ 2 ^ T.bits :=
    pow_le_pow_right₀ (by decide) (Nat.le_of_succ_le h)
  cases hs : T.signed with
  | true =>
    rw [CastLemmas.inRange_signed hs]
    simp only [Bool.true_eq_false, false_and, not_false_eq_true, iff_true]
    omega
  | false =>
    rw [CastLemmas.inRange_unsigned hs]
    simp only [true_and, Int.not_lt]
    omega

theorem getLuaValue_crosses (F : NumberFormat) (T : IntegralType) {L : LuaState} {i : Int}
    {v : Int64} (h : L.index2value i = some (.integer v)) :
    Crosses F T L i v ↔ ¬ (T.signed = false ∧ 64 ≤ T.bits ∧ v.toInt < 0) := by
  have hval := getLuaValue_integral F T h
  have hdecode : decode F L.tables (.integral T) (.integer v) =
      if 64 ≤ T.bits ∨ T.InRange v.toInt then some (T.ofInt v.toInt) else none := rfl
  rw [hdecode] at hval
  by_cases hr : T.InRange v.toInt
  · rw [if_pos (Or.inr hr)] at hval
    refine iff_of_true ⟨iff_of_true ⟨_, _, hval⟩ hr, fun x L' hx => ?_⟩ ?_
    · rw [hval] at hx
      cases hx
      exact toInt_ofInt_iff.mpr hr
    · rintro ⟨hs, hwide, hneg⟩
      exact (inRange_of_wide hwide v).mp hr ⟨hs, hneg⟩
  · by_cases hwide : 64 ≤ T.bits
    · rw [if_pos (Or.inl hwide)] at hval
      have hcond := not_not.mp (hr ∘ (inRange_of_wide hwide v).mpr)
      refine iff_of_false (fun hc => hr (hc.returns.mp ⟨_, _, hval⟩)) fun hn => ?_
      exact hn ⟨hcond.1, hwide, hcond.2⟩
    · rw [if_neg (not_or.mpr ⟨hwide, hr⟩)] at hval
      obtain ⟨e, L', he⟩ := hval
      have hno : ∀ x L', getLuaValue F (.integral T) i L ≠ .ok x L' := by
        intro x L'' hx
        rw [he] at hx
        cases hx
      refine iff_of_true ⟨iff_of_false ?_ hr, fun x L' hx => absurd hx (hno x L')⟩ ?_
      · rintro ⟨x, L', hx⟩
        exact hno x L' hx
      · exact fun hn => hwide hn.2.1

/-! ## 2. Through `fowardToActor` -/

/-- The bare cast keeps the residue. -/
theorem receiver_toNat (v : Int64) : (v.toUInt64.toUInt32.toNat : Int) = v.toInt % 2 ^ 32 := by
  have hint : v.toInt = Int.bmod v.toUInt64.toNat (2 ^ 64) := BitVec.toInt_eq_toNat_bmod _
  have hdvd : (2 ^ 32 : Int) ∣ ((2 ^ 64 : ℕ) : Int) := by decide
  rw [hint, ← Int.emod_emod_of_dvd _ hdvd, Int.bmod_emod, Int.emod_emod_of_dvd _ hdvd,
    UInt64.toNat_toUInt32]
  push_cast
  rfl

/-- Exactly the multiples of `2 ^ 32` are raised for; the actor called is the
sender. -/
theorem fowardToActor_eq (F : NumberFormat) (S : LuaService) {L : LuaState} {v : Int64}
    (h : L.index2value 1 = some (.integer v)) :
    if (2 ^ 32 : Int) ∣ v.toInt then Raises (S.fowardToActor F) L
    else ∃ type, S.fowardToActor F L = .ok { receiver := S.getID, type := type } L := by
  have hcheck : luaL_checkinteger F 1 L = .ok v L := luaL_checkinteger_eq F h
  have hpos : v.toUInt64.toUInt32 > 0 ↔ ¬ (2 ^ 32 : Int) ∣ v.toInt := by
    rw [Int.dvd_iff_emod_eq_zero, ← receiver_toNat, gt_iff_lt, UInt32.lt_iff_toNat_lt,
      UInt32.toNat_zero, Nat.pos_iff_ne_zero, Int.natCast_eq_zero]
  rw [Raises, LuaService.fowardToActor, bind_ok hcheck, LuaRobot.fowardToActor]
  by_cases hdvd : (2 ^ 32 : Int) ∣ v.toInt
  · rw [if_pos hdvd, if_neg fun hp => hpos.mp hp hdvd]
    exact ⟨_, _, rfl⟩
  · rw [if_neg hdvd, if_pos (hpos.mpr hdvd)]
    exact ⟨_, rfl⟩

theorem fowardToActor_reaches (F : NumberFormat) (S : LuaService) {L : LuaState} {v : Int64}
    (h : L.index2value 1 = some (.integer v)) :
    Reaches F S L v ↔ (IsActor v ∧ (S.getID.toNat : Int) = v.toInt) ∨
      (¬ IsActor v ∧ (2 ^ 32 : Int) ∣ v.toInt) := by
  have heq := fowardToActor_eq F S h
  by_cases hactor : IsActor v
  · have hndvd : ¬ (2 ^ 32 : Int) ∣ v.toInt := fun hdvd => by
      have hle := Int.le_of_dvd (by have := hactor.1; omega) hdvd
      have := hactor.2
      omega
    rw [if_neg hndvd] at heq
    obtain ⟨type, hcall⟩ := heq
    constructor
    · intro hr
      obtain ⟨call, L', hok, hreceiver⟩ := hr.receiver hactor
      rw [hcall] at hok
      cases hok
      exact Or.inl ⟨hactor, hreceiver⟩
    · rintro (⟨_, hid⟩ | ⟨hn, _⟩)
      · exact ⟨fun hn => absurd hactor hn, fun _ => ⟨_, _, hcall, hid⟩⟩
      · exact absurd hactor hn
  · by_cases hdvd : (2 ^ 32 : Int) ∣ v.toInt
    · rw [if_pos hdvd] at heq
      exact iff_of_true ⟨fun _ => heq, fun ha => absurd ha hactor⟩ (Or.inr ⟨hactor, hdvd⟩)
    · rw [if_neg hdvd] at heq
      obtain ⟨type, hcall⟩ := heq
      refine iff_of_false (fun hr => ?_) ?_
      · obtain ⟨e, L', he⟩ := hr.raises hactor
        rw [hcall] at he
        cases he
      · rintro (⟨ha, _⟩ | ⟨_, hd⟩)
        · exact hactor ha
        · exact hdvd hd

/-! ## 3. Both -/

/-- Through `getLuaValue` an integer crosses unchanged or is rejected, unless it
is negative and the type is unsigned with all 64 bits. `fowardToActor` does the
same for the actors that are the sending service itself and for the multiples of
`2 ^ 32` among the other integers. -/
theorem integers_cross (F : NumberFormat) (L : LuaState) (v : Int64) :
    (∀ T i, L.index2value i = some (.integer v) →
      (Crosses F T L i v ↔ ¬ (T.signed = false ∧ 64 ≤ T.bits ∧ v.toInt < 0))) ∧
    ∀ S, L.index2value 1 = some (.integer v) →
      (Reaches F S L v ↔ (IsActor v ∧ (S.getID.toNat : Int) = v.toInt) ∨
        (¬ IsActor v ∧ (2 ^ 32 : Int) ∣ v.toInt)) :=
  ⟨fun T _ h => getLuaValue_crosses F T h, fun S h => fowardToActor_reaches F S h⟩

/-- The argument 7 as a `uint16_t`, and the argument 0 of `fowardToActor`. -/
theorem integers_cross_seven :
    Crosses integersOnly ⟨16, false, by decide⟩ { stack := [.integer 7] } 1 7 ∧
    Reaches integersOnly {} { stack := [.integer 0] } 0 :=
  ⟨((integers_cross integersOnly { stack := [.integer 7] } 7).1 _ 1 rfl).mpr (by decide),
    ((integers_cross integersOnly { stack := [.integer 0] } 0).2 {} rfl).mpr (by decide)⟩

/-- -1 becomes `2 ^ 64 - 1` as a `uint64_t`; `fowardToActor(7)` calls actor 0,
and `fowardToActor(2 ^ 32 + 7)` does not raise. -/
theorem integers_aliased :
    (∃ (x : BitVec 64) (L' : LuaState),
      getLuaValue integersOnly (.integral ⟨64, false, by decide⟩) 1
        { stack := [.integer (-1)] } = .ok x L' ∧ x.toNat = 2 ^ 64 - 1) ∧
    ¬ Crosses integersOnly ⟨64, false, by decide⟩ { stack := [.integer (-1)] } 1 (-1) ∧
    LuaService.fowardToActor integersOnly {} { stack := [.integer 7] } =
      .ok ⟨0, 7⟩ { stack := [.integer 7] } ∧
    ¬ Reaches integersOnly {} { stack := [.integer 7] } 7 ∧
    ¬ Reaches integersOnly {} { stack := [.integer 0x100000007] } 0x100000007 := by
  refine ⟨⟨_, _, rfl, rfl⟩, fun h => ?_, rfl, fun h => ?_, fun h => ?_⟩
  · exact absurd ((getLuaValue_crosses integersOnly _ rfl).mp h) (by decide)
  · exact absurd ((fowardToActor_reaches integersOnly {} rfl).mp h) (by decide)
  · exact absurd ((fowardToActor_reaches integersOnly {} rfl).mp h) (by decide)

end LuaRobot
