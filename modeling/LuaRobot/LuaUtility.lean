import LuaRobot.EnvChunk
import LuaRobot.IntegerCast
import LuaRobot.LuaStack

/-!
# Reading Lua values from C++

`getLuaValue` and `getLuaField` (`src_cpp/lua_utility.h`), and the two places
that read a table field by field: the configuration in `main` and the options in
`newService` (`lua_cpp/lua_register_libs.cpp`). What they print is left out.

Results:
1. `getLuaValue_top`: what a value on the top is decoded to.
2. `getLuaField_iff`: a field is decoded and the stack is left alone.
3. `lua_field`: the three types that the program reads.
4. `readConfig_iff`, `readOption_iff`: the chained reads.
5. `getLuaField_field`, `readOption_option`: what is read, or that it raises.
-/

namespace LuaRobot

open ByteStrings IntegerCast LuaStack LuaStack.StackLemmas

/-! ## Definitions -/

abbrev lua_Integer : IntegralType := { bits := 64, signed := true }

abbrev uint32_t : IntegralType := { bits := 32, signed := false }

/-- The types that `getLuaValue` tells apart. -/
inductive LuaType where
  | string_view
  | string
  | bool
  | integral (T : IntegralType)
  | double
  | LuaVector

/-- A `double` is its bits, a `LuaVector` its `strVec`. -/
@[reducible] def LuaType.Val : LuaType → Type
  | .string_view | .string => LuaStack.Bytes
  | .bool => Bool
  | .integral T => T.Val
  | .double => UInt64
  | .LuaVector => List CString

/-- `Type{}`. -/
def LuaType.default : (T : LuaType) → T.Val
  | .string_view | .string => []
  | .bool => false
  | .integral T => T.ofInt 0
  | .double => (0 : UInt64)
  | .LuaVector => []

/-- The `switch` on the type of the value on the top. -/
def appendValue (F : NumberFormat) (strVec : List CString) : Api (List CString) := do
  if (← lua_type (-1)) = LUA_TSTRING then
    match ← lua_tolstring F (-1) with
    | some value => return strVec ++ [cString value]
    | none => fun L => .error .undefined L
  else return strVec

/-- The loop over the table, with a bound on its steps. -/
def luaVectorLoop (F : NumberFormat) : ℕ → List CString → Api (List CString)
  | 0, _ => fun L => .error .diverges L
  | fuel + 1, strVec => do
    if ← lua_next (-2) then
      let strVec ← appendValue F strVec
      lua_pop 1
      luaVectorLoop F fuel strVec
    else return strVec

/-- One step more than the table on the top has entries. -/
def steps : Api ℕ := fun L =>
  match L.index2value (-1) with
  | some (.table t) => .ok ((L.tables t).entries.length + 1) L
  | _ => .ok 0 L

/-- `getLuaValue<T>(L, index)`. For a `LuaVector` the index is not used. -/
def getLuaValue (F : NumberFormat) (T : LuaType) (index : Int) : Api T.Val :=
  match T with
  | .string_view => luaL_checklstring F index
  | .string => luaL_checklstring F index
  | .bool => do
    if !(← lua_isboolean index) then
      luaL_typeerror index (lua_typename LUA_TBOOLEAN)
    lua_toboolean index
  | .integral T => do
    let v : lua_Integer.Val := (← luaL_checkinteger F index).toBitVec
    luaL_argcheck (T.cast lua_Integer (lua_Integer.cast T v) = v) index
      (ascii "integer out-of-bounds")
    return lua_Integer.cast T v
  | .double => luaL_checknumber F index
  | .LuaVector => do
    if !(← lua_istable (-1)) then return []
    let fuel ← steps
    lua_pushnil
    luaVectorLoop F fuel []

/-- `getLuaField<T>(L, index, key, dflt)`. The `lua_pop` is that of the scope. -/
def getLuaField (F : NumberFormat) (T : LuaType) (index : Int) (key : LuaStack.Bytes)
    (dflt : T.Val) : Api T.Val := do
  let top ← lua_gettop
  let index := if index < 0 then top + index + 1 else index
  luaL_checktype index LUA_TTABLE
  lua_pushlstring key
  if (← lua_rawget index) ≤ LUA_TNIL then
    lua_pop 1
    return dflt
  let v ← getLuaValue F T (-1)
  lua_pop 1
  return v

/-- What `main` reads of the configuration on the top: `threads` and
`path_table`. Without a table it reports and ends. -/
def readConfig (F : NumberFormat) : Api (Option (BitVec 32 × List CString)) := do
  if (← lua_type (-1)) ≠ LUA_TTABLE then return none
  let threads ← getLuaField F (.integral uint32_t) (-1) (ascii "threads") (LuaType.default _)
  let pathTable ← getLuaField F .LuaVector (-1) (ascii "path_table") (LuaType.default _)
  return some (threads, pathTable)

/-- The option that `newService` makes of its argument 2. -/
def readOption (F : NumberFormat) (envPath : Bytes) : Api ServiceOption := do
  luaL_checktype 2 LUA_TTABLE
  let workerID ← getLuaField F (.integral uint32_t) 2 (ascii "workerid") (LuaType.default _)
  let luaFile ← getLuaField F .string 2 (ascii "luafile") (LuaType.default _)
  return { workerID := ⟨workerID⟩, luaFile := luaFile, envPath := envPath }

/-- A value as the traversal sees it. -/
def luaValue : Value → LuaValue
  | .string s => .string s
  | _ => .other

/-- The strings among the values of the table. -/
def strings (t : Table) : List CString := getLuaVector (t.entries.map fun e => luaValue e.2)

/-- What an entry is as a `LuaVector` with default `d`. -/
def fieldStrings (tables : ℕ → Table) (d : List CString) : Value → List CString
  | .nil => d
  | .table t => strings (tables t)
  | _ => []

/-- What a value other than `nil` is decoded to, if it can be. -/
def decode (F : NumberFormat) (tables : ℕ → Table) : (T : LuaType) → Value → Option T.Val
  | .string_view, v => F.tolstring v
  | .string, v => F.tolstring v
  | .bool, .boolean b => some b
  | .bool, _ => none
  | .integral T, v =>
    (F.tointeger v).bind fun n =>
      if 64 ≤ T.bits ∨ T.InRange n.toInt then some (T.ofInt n.toInt) else none
  | .double, v => (F.tonumber v).map (Sum.elim F.integerToFloat id)
  | .LuaVector, .table t => some (strings (tables t))
  | .LuaVector, _ => some []

/-- `x` is the field `key` of table `t`, or the default `d`. -/
def Reads (F : NumberFormat) (tables : ℕ → Table) (t : ℕ) (T : LuaType) (key : LuaStack.Bytes)
    (d x : T.Val) : Prop :=
  if (tables t).get (.string key) = .nil then x = d
  else decode F tables T ((tables t).get (.string key)) = some x

/-! ## 1. Values -/

namespace LuaUtilityLemmas

theorem reads_nil {F : NumberFormat} {tables : ℕ → Table} {t : ℕ} {T : LuaType}
    {key : LuaStack.Bytes} {d x : T.Val} (h : (tables t).get (.string key) = .nil) :
    Reads F tables t T key d x ↔ x = d := by
  rw [Reads, if_pos h]

theorem reads_entry {F : NumberFormat} {tables : ℕ → Table} {t : ℕ} {T : LuaType}
    {key : LuaStack.Bytes} {d x : T.Val} (h : (tables t).get (.string key) ≠ .nil) :
    Reads F tables t T key d x ↔
      decode F tables T ((tables t).get (.string key)) = some x := by
  rw [Reads, if_neg h]

theorem getLuaVector_append (vs ws : List LuaValue) :
    getLuaVector (vs ++ ws) = getLuaVector vs ++ getLuaVector ws := List.filterMap_append

theorem appendValue_top (F : NumberFormat) (strVec : List CString) (L : LuaState) (v : Value)
    (rest : List Value) :
    appendValue F strVec { L with stack := v :: rest } =
      .ok (strVec ++ getLuaVector [luaValue v]) { L with stack := v :: rest } := by
  rw [appendValue, bind_ok (lua_type_eq (index2value_top _ rfl))]
  by_cases hv : ∃ s, v = .string s
  · rw [if_pos (typeOf_eq_string.mpr hv)]
    obtain ⟨s, rfl⟩ := hv
    rw [bind_ok (lua_tolstring_top F L (.string s) rest)]
    rfl
  · have hother : luaValue v = .other := by
      cases v with
      | string s => exact absurd ⟨s, rfl⟩ hv
      | _ => rfl
    rw [if_neg (hv ∘ typeOf_eq_string.mp), hother]
    exact congrArg (EStateM.Result.ok · _) (List.append_nil strVec).symm

theorem luaVectorLoop_ok (F : NumberFormat) {L : LuaState} {t : ℕ} {rest : List Value} :
    ∀ (todo pre : List (Value × Value)) (k : Value) (fuel : ℕ) (strVec : List CString),
      (L.tables t).entries = pre ++ todo → (L.tables t).next k = some todo.head? →
      todo.length < fuel →
      luaVectorLoop F fuel strVec { L with stack := k :: .table t :: rest } =
        .ok (strVec ++ getLuaVector (todo.map fun e => luaValue e.2))
          { L with stack := .table t :: rest } := by
  intro todo
  induction todo with
  | nil =>
    intro pre k fuel strVec _ hk hfuel
    obtain ⟨fuel, rfl⟩ := Nat.exists_eq_add_one.mpr hfuel
    rw [luaVectorLoop, bind_ok (lua_next_second hk)]
    exact congrArg (EStateM.Result.ok · _) (List.append_nil strVec).symm
  | cons e todo ih =>
    intro pre k fuel strVec hpre hk hfuel
    obtain ⟨fuel, rfl⟩ := Nat.exists_eq_add_one.mpr (Nat.lt_of_le_of_lt (Nat.zero_le _) hfuel)
    have hpre' : (L.tables t).entries = (pre ++ [e]) ++ todo := by
      rw [hpre, List.append_assoc]
      rfl
    have hmore : luaVectorLoop F (fuel + 1) strVec { L with stack := k :: .table t :: rest } =
        luaVectorLoop F fuel (strVec ++ getLuaVector [luaValue e.2])
          { L with stack := e.1 :: .table t :: rest } := by
      rw [luaVectorLoop, bind_ok (lua_next_second hk)]
      exact bind_ok (appendValue_top F strVec L e.2 (e.1 :: .table t :: rest))
    rw [hmore, ih (pre ++ [e]) e.1 fuel _ hpre' (next_of_append hpre)
      (Nat.lt_of_succ_lt_succ hfuel), List.append_assoc, ← getLuaVector_append]
    rfl

/-- The traversal of a table on the top takes its string values. -/
theorem getLuaValue_LuaVector (F : NumberFormat) (i : Int) (L : LuaState) (v : Value)
    (rest : List Value) :
    ∃ x, decode F L.tables .LuaVector v = some x ∧
      getLuaValue F .LuaVector i { L with stack := v :: rest } =
        .ok x { L with stack := v :: rest } := by
  have htype : lua_istable (-1) { L with stack := v :: rest } =
      .ok (typeOf (some v) == LUA_TTABLE) { L with stack := v :: rest } :=
    bind_ok (lua_type_eq (index2value_top _ rfl))
  by_cases hv : ∃ t, v = .table t
  · obtain ⟨t, rfl⟩ := hv
    have hsteps : steps { L with stack := .table t :: rest } =
        .ok ((L.tables t).entries.length + 1) { L with stack := .table t :: rest } := by
      rw [steps, index2value_top _ rfl]
    refine ⟨_, rfl, ?_⟩
    rw [getLuaValue, bind_ok htype]
    refine (bind_ok hsteps).trans ?_
    exact luaVectorLoop_ok F (L.tables t).entries [] .nil _ [] rfl (next_nil _)
      (Nat.lt_succ_self _)
  · have hnone : decode F L.tables .LuaVector v = some [] := by
      cases v with
      | table t => exact absurd ⟨t, rfl⟩ hv
      | _ => rfl
    have hne : (typeOf (some v) == LUA_TTABLE) = false :=
      beq_eq_false_iff_ne.mpr (hv ∘ typeOf_eq_table.mp)
    rw [hne] at htype
    refine ⟨[], hnone, ?_⟩
    rw [getLuaValue, bind_ok htype]
    rfl

/-- What the cast and the comparison let through: in a type of 64 bits or more
every integer. -/
theorem outOfBounds_iff (T : IntegralType) (x : lua_Integer.Val) :
    T.cast lua_Integer (lua_Integer.cast T x) = x ↔
      64 ≤ T.bits ∨ T.InRange (lua_Integer.toInt x) := by
  rcases Nat.lt_or_ge T.bits 64 with hlt | hge
  · have hnarrow : T.bits < lua_Integer.bits := hlt
    rw [cast_cast_iff rfl hnarrow]
    exact ⟨Or.inr, fun h => h.resolve_left (Nat.not_le.mpr hlt)⟩
  · exact iff_of_true (cast_cast_of_le hge _) (Or.inl hge)

end LuaUtilityLemmas

open LuaUtilityLemmas

/-- An integral type takes the integer of the value if the cast and the
comparison let it through. -/
theorem getLuaValue_integral (F : NumberFormat) (T : IntegralType) {L : LuaState} {i : Int}
    {v : Value} (h : L.index2value i = some v) :
    match decode F L.tables (.integral T) v with
    | some x => getLuaValue F (.integral T) i L = .ok x L
    | none => Raises (getLuaValue F (.integral T) i) L := by
  have hcheck := luaL_checkinteger_eq F h
  rw [decode]
  cases hn : F.tointeger v with
  | none =>
    rw [hn] at hcheck
    exact raises_bind hcheck
  | some n =>
    rw [hn] at hcheck
    rw [Option.bind_some, Raises, getLuaValue, bind_ok hcheck]
    by_cases hr : 64 ≤ T.bits ∨ T.InRange n.toInt
    · rw [if_pos hr, luaL_argcheck, if_pos ((outOfBounds_iff T _).mpr hr)]
      rfl
    · rw [if_neg hr, luaL_argcheck, if_neg (hr ∘ (outOfBounds_iff T _).mp)]
      exact raises_bind (raises_argerror i _ L)

/-- Only a boolean is taken for one. -/
theorem getLuaValue_bool (F : NumberFormat) {L : LuaState} {v : Value}
    (h : L.index2value (-1) = some v) :
    match decode F L.tables .bool v with
    | some x => getLuaValue F .bool (-1) L = .ok x L
    | none => Raises (getLuaValue F .bool (-1)) L := by
  have htype : lua_isboolean (-1) L = .ok (typeOf (some v) == LUA_TBOOLEAN) L :=
    bind_ok (lua_type_eq h)
  by_cases hv : ∃ b, v = .boolean b
  · obtain ⟨b, rfl⟩ := hv
    rw [decode, getLuaValue, bind_ok htype]
    have hbool : lua_toboolean (-1) L = .ok b L := by
      unfold lua_toboolean
      rw [h]
      cases b <;> rfl
    exact hbool
  · have hnone : decode F L.tables .bool v = none := by
      cases v with
      | boolean b => exact absurd ⟨b, rfl⟩ hv
      | _ => rfl
    have hne : (typeOf (some v) == LUA_TBOOLEAN) = false :=
      beq_eq_false_iff_ne.mpr (hv ∘ typeOf_eq_boolean.mp)
    rw [hne] at htype
    rw [hnone, Raises, getLuaValue, bind_ok htype]
    exact raises_bind (raises_typeerror (-1) _ _)

/-- In a type of less than 64 bits the value is the integer. -/
theorem decode_narrow {F : NumberFormat} {tables : ℕ → Table} {T : IntegralType} {v : Value}
    {x : T.Val} (hT : T.bits < 64) (h : decode F tables (.integral T) v = some x) :
    ∃ n, F.tointeger v = some n ∧ T.toInt x = n.toInt := by
  obtain ⟨n, hn, hx⟩ := Option.bind_eq_some_iff.mp h
  refine ⟨n, hn, ?_⟩
  split at hx
  · rename_i hr
    cases hx
    exact toInt_ofInt_iff.mpr (hr.resolve_left (Nat.not_le.mpr hT))
  · cases hx

/-- `getLuaValue` of the value on the top. A number may become a string there. -/
theorem getLuaValue_top (F : NumberFormat) (T : LuaType) (L : LuaState) (v : Value)
    (rest : List Value) :
    match decode F L.tables T v with
    | some x => ∃ v', getLuaValue F T (-1) { L with stack := v :: rest } =
        .ok x { L with stack := v' :: rest }
    | none => Raises (getLuaValue F T (-1)) { L with stack := v :: rest } := by
  have htop : LuaState.index2value { L with stack := v :: rest } (-1) = some v :=
    index2value_top _ rfl
  cases T with
  | string_view | string =>
    have hcheck := luaL_checklstring_top F L v rest
    rw [decode]
    cases hs : F.tolstring v with
    | none =>
      rw [hs] at hcheck
      exact hcheck
    | some s =>
      rw [hs] at hcheck
      exact ⟨_, hcheck⟩
  | bool =>
    have hbool := getLuaValue_bool F htop
    cases hd : decode F L.tables .bool v with
    | none =>
      rw [hd] at hbool
      exact hbool
    | some b =>
      rw [hd] at hbool
      exact ⟨v, hbool⟩
  | integral T =>
    have hint := getLuaValue_integral F T htop
    cases hd : decode F L.tables (.integral T) v with
    | none =>
      rw [hd] at hint
      exact hint
    | some x =>
      rw [hd] at hint
      exact ⟨v, hint⟩
  | double =>
    have hnum := luaL_checknumber_eq F htop
    have hdecode : decode F L.tables .double v =
        (F.tonumber v).map (Sum.elim F.integerToFloat id) := rfl
    rw [← hdecode] at hnum
    cases hd : decode F L.tables .double v with
    | none =>
      rw [hd] at hnum
      exact hnum
    | some d =>
      rw [hd] at hnum
      exact ⟨v, hnum⟩
  | LuaVector =>
    obtain ⟨x, hx, hval⟩ := getLuaValue_LuaVector F (-1) L v rest
    rw [hx]
    exact ⟨v, hval⟩

/-! ## 2. Fields -/

namespace LuaUtilityLemmas

/-- `getLuaField` up to `getLuaValue`, whichever way the table is indexed. -/
theorem getLuaField_eq (F : NumberFormat) (T : LuaType) {L : LuaState} {i : Int} {t : ℕ}
    (ht : L.index2value i = some (.table t)) (key : LuaStack.Bytes) (d : T.Val) :
    getLuaField F T i key d L =
      if (L.tables t).get (.string key) = .nil then .ok d L
      else (do
        let v ← getLuaValue F T (-1)
        lua_pop 1
        return v) { L with stack := (L.tables t).get (.string key) :: L.stack } := by
  obtain ⟨j, hj, hpos, hle, hjt⟩ : ∃ j : Int, (if i < 0 then L.stack.length + i + 1 else i) = j ∧
      0 < j ∧ j ≤ L.stack.length ∧ L.index2value j = some (.table t) := by
    rcases slot_of_index2value ht with ⟨hi, hle⟩ | ⟨hi, hle⟩
    · exact ⟨i, if_neg (Int.not_lt.mpr hi.le), hi, hle, ht⟩
    · exact ⟨_, if_pos hi, by omega, by omega, (index2value_abs hi hle).trans ht⟩
  have hcheck : luaL_checktype j LUA_TTABLE L = .ok () L := luaL_checktype_table hjt
  have hget : lua_rawget j { L with stack := .string key :: L.stack } =
      .ok (typeOf (some ((L.tables t).get (.string key))))
        { L with stack := (L.tables t).get (.string key) :: L.stack } := by
    rw [lua_rawget, index2value_push hpos hle, hjt]
  have htop : lua_gettop L = .ok L.stack.length L := rfl
  have hpush : lua_pushlstring key L = .ok () { L with stack := .string key :: L.stack } := rfl
  rw [getLuaField, bind_ok htop, hj, bind_ok hcheck, bind_ok hpush, bind_ok hget]
  simp only [typeOf_le_nil]
  split <;> rfl

end LuaUtilityLemmas

/-- A field is decoded from the raw entry of the table, or has its default, and
nothing else is changed. -/
theorem getLuaField_iff (F : NumberFormat) (T : LuaType) {L : LuaState} {i : Int} {t : ℕ}
    (ht : L.index2value i = some (.table t)) (key : LuaStack.Bytes) (d x : T.Val) (L' : LuaState) :
    getLuaField F T i key d L = .ok x L' ↔ L' = L ∧ Reads F L.tables t T key d x := by
  rw [getLuaField_eq F T ht, Reads]
  split
  · constructor
    · rintro h
      cases h
      exact ⟨rfl, rfl⟩
    · rintro ⟨rfl, rfl⟩
      rfl
  · have hval := getLuaValue_top F T L ((L.tables t).get (.string key)) L.stack
    cases hd : decode F L.tables T ((L.tables t).get (.string key)) with
    | none =>
      rw [hd] at hval
      obtain ⟨e, L'', he⟩ := hval
      rw [bind_error he]
      simp
    | some y =>
      rw [hd] at hval
      obtain ⟨v', hv'⟩ := hval
      rw [bind_ok hv']
      constructor
      · intro h
        cases h
        exact ⟨rfl, rfl⟩
      · rintro ⟨rfl, h⟩
        cases h
        rfl

/-- The three types that the program reads: a `LuaVector` always comes back, as
the strings of a table in the order of `lua_next`; a string is what
`luaL_checklstring` yields for the entry, and a `uint32_t` the integer that
`luaL_checkinteger` yields. -/
theorem lua_field (F : NumberFormat) (L : LuaState) (i : Int) (t : ℕ)
    (ht : L.index2value i = some (.table t)) (key : LuaStack.Bytes) (entry : Value)
    (hentry : (L.tables t).get (.string key) = entry) :
    (∀ d : List CString, getLuaField F .LuaVector i key d L =
      .ok (fieldStrings L.tables d entry) L) ∧
    (∀ (d x : Bytes) (L' : LuaState), getLuaField F .string i key d L = .ok x L' → L' = L ∧
      if entry = .nil then x = d
      else ∃ L'', luaL_checklstring F (-1) { L with stack := entry :: L.stack } = .ok x L'') ∧
    ∀ (d x : BitVec 32) (L' : LuaState), getLuaField F (.integral uint32_t) i key d L = .ok x L' →
      L' = L ∧
      if entry = .nil then x = d
      else ∃ n L'', luaL_checkinteger F (-1) { L with stack := entry :: L.stack } = .ok n L'' ∧
        n.toInt = x.toNat := by
  subst hentry
  refine ⟨fun d => ?_, fun d x L' h => ?_, fun d x L' h => ?_⟩
  · refine (getLuaField_iff F .LuaVector ht key d _ L).mpr ⟨rfl, ?_⟩
    cases hv : (L.tables t).get (.string key) with
    | nil => exact (reads_nil hv).mpr rfl
    | _ =>
      refine (reads_entry (by rw [hv]; exact Value.noConfusion)).mpr ?_
      rw [hv]
      rfl
  · obtain ⟨rfl, hreads⟩ := (getLuaField_iff F .string ht key d x L').mp h
    refine ⟨rfl, ?_⟩
    by_cases hnil : (L'.tables t).get (.string key) = .nil
    · rw [if_pos hnil]
      exact (reads_nil hnil).mp hreads
    · have hsome : F.tolstring ((L'.tables t).get (.string key)) = some x :=
        (reads_entry hnil).mp hreads
      have hcheck := luaL_checklstring_top F L' ((L'.tables t).get (.string key)) L'.stack
      rw [hsome] at hcheck
      rw [if_neg hnil]
      exact ⟨_, hcheck⟩
  · obtain ⟨rfl, hreads⟩ := (getLuaField_iff F (.integral uint32_t) ht key d x L').mp h
    refine ⟨rfl, ?_⟩
    by_cases hnil : (L'.tables t).get (.string key) = .nil
    · rw [if_pos hnil]
      exact (reads_nil hnil).mp hreads
    · obtain ⟨n, hn, hx⟩ := decode_narrow (by decide) ((reads_entry hnil).mp hreads)
      have htop : LuaState.index2value
          { L' with stack := (L'.tables t).get (.string key) :: L'.stack } (-1) =
          some ((L'.tables t).get (.string key)) := index2value_top _ rfl
      have hcheck := luaL_checkinteger_eq F htop
      rw [hn] at hcheck
      rw [if_neg hnil]
      exact ⟨n, _, hcheck, hx.symm⟩

/-- Conversions without floats. -/
def integersOnly : NumberFormat where
  integerToString v := ascii (toString v.toInt)
  floatToString _ := []
  stringToNumber _ := none
  floatToInteger _ := none
  integerToFloat _ := 0

/-- A configuration on the stack: `threads = 4`, and a `path_table` of `"a"`,
`true` and `"b\0c"`. -/
def configState : LuaState where
  tables
    | 0 => { entries := [(.string (ascii "threads"), .integer 4),
        (.string (ascii "path_table"), .table 1)] }
    | 1 => { entries := [(.integer 1, .string (ascii "a")), (.integer 2, .boolean true),
        (.integer 3, .string (ascii "b" ++ 0 :: ascii "c"))] }
    | _ => {}
  stack := [.table 0, .nil]

theorem lua_field_config :
    getLuaField integersOnly .LuaVector (-1) (ascii "path_table") [] configState =
      .ok [cString (ascii "a"), cString (ascii "b")] configState ∧
    ∀ (x : BitVec 32) (L' : LuaState), getLuaField integersOnly (.integral uint32_t) 2
      (ascii "threads") 0#32 configState = .ok x L' → L' = configState :=
  ⟨(lua_field integersOnly configState (-1) 0 rfl (ascii "path_table") (.table 1) (by decide)).1 [],
    fun x L' h => ((lua_field integersOnly configState 2 0 rfl (ascii "threads") (.integer 4)
      (by decide)).2.2 _ x L' h).1⟩

/-! ## 4. Reads one after another -/

/-- The two reads of `main` see the same table, whatever the first one found. -/
theorem readConfig_iff (F : NumberFormat) {L : LuaState} {t : ℕ}
    (ht : L.index2value (-1) = some (.table t)) (threads : BitVec 32) (path : List CString)
    (L' : LuaState) :
    readConfig F L = .ok (some (threads, path)) L' ↔ L' = L ∧
      Reads F L.tables t (.integral uint32_t) (ascii "threads") 0#32 threads ∧
      Reads F L.tables t .LuaVector (ascii "path_table") [] path := by
  have htype : lua_type (-1) L = .ok LUA_TTABLE L := lua_type_eq ht
  rw [readConfig, bind_ok htype]
  constructor
  · intro h
    obtain ⟨x, L₁, hx, hrest⟩ := bind_eq_ok.mp h
    obtain ⟨rfl, hthreads⟩ := (getLuaField_iff F _ ht _ _ _ _).mp hx
    obtain ⟨y, L₂, hy, hret⟩ := bind_eq_ok.mp hrest
    obtain ⟨rfl, hpath⟩ := (getLuaField_iff F _ ht _ _ _ _).mp hy
    cases hret
    exact ⟨rfl, hthreads, hpath⟩
  · rintro ⟨rfl, hthreads, hpath⟩
    refine (bind_ok ((getLuaField_iff F _ ht _ _ _ _).mpr ⟨rfl, hthreads⟩)).trans ?_
    exact bind_ok ((getLuaField_iff F _ ht _ _ _ _).mpr ⟨rfl, hpath⟩)

/-- `newService` reads its two fields of one table. -/
theorem readOption_iff (F : NumberFormat) {L : LuaState} {t : ℕ}
    (ht : L.index2value 2 = some (.table t)) (envPath : Bytes) (o : ServiceOption)
    (L' : LuaState) :
    readOption F envPath L = .ok o L' ↔ L' = L ∧ o.envPath = envPath ∧
      Reads F L.tables t (.integral uint32_t) (ascii "workerid") 0#32 o.workerID.toBitVec ∧
      Reads F L.tables t .string (ascii "luafile") [] o.luaFile := by
  have hcheck : luaL_checktype 2 LUA_TTABLE L = .ok () L := luaL_checktype_table ht
  rw [readOption, bind_ok hcheck]
  constructor
  · intro h
    obtain ⟨x, L₁, hx, hrest⟩ := bind_eq_ok.mp h
    obtain ⟨rfl, hworker⟩ := (getLuaField_iff F _ ht _ _ _ _).mp hx
    obtain ⟨y, L₂, hy, hret⟩ := bind_eq_ok.mp hrest
    obtain ⟨rfl, hfile⟩ := (getLuaField_iff F _ ht _ _ _ _).mp hy
    cases hret
    exact ⟨rfl, rfl, hworker, hfile⟩
  · rintro ⟨rfl, rfl, hworker, hfile⟩
    refine (bind_ok ((getLuaField_iff F _ ht _ _ _ _).mpr ⟨rfl, hworker⟩)).trans ?_
    exact bind_ok ((getLuaField_iff F _ ht _ _ _ _).mpr ⟨rfl, hfile⟩)

/-! ## 5. What is read, as a function -/

/-- The field `key` of table `t`, or the default `d`; `none` when it cannot be read. -/
def field (F : NumberFormat) (tables : ℕ → Table) (t : ℕ) (T : LuaType) (key : LuaStack.Bytes)
    (d : T.Val) : Option T.Val :=
  if (tables t).get (.string key) = .nil then some d
  else decode F tables T ((tables t).get (.string key))

/-- What argument 2 of `newService` stands for, `none` when it raises. -/
def option? (F : NumberFormat) (path : LuaStack.Bytes) (tables : ℕ → Table) :
    Value → Option ServiceOption
  | .table t => do
    let workerID ← field F tables t (.integral uint32_t) (ascii "workerid") (LuaType.default _)
    let luaFile ← field F tables t .string (ascii "luafile") (LuaType.default _)
    return { workerID := ⟨workerID⟩, luaFile := luaFile, envPath := path }
  | _ => none

namespace LuaUtilityLemmas

theorem reads_iff {F : NumberFormat} {tables : ℕ → Table} {t : ℕ} {T : LuaType}
    {key : LuaStack.Bytes} {d x : T.Val} :
    Reads F tables t T key d x ↔ field F tables t T key d = some x := by
  unfold Reads field
  split
  · rw [Option.some.injEq]
    exact eq_comm
  · rfl

theorem luaL_checktype_raises {L : LuaState} {i : Int} {v : Value}
    (h : L.index2value i = some v) (hno : ∀ t, v ≠ .table t) :
    Raises (luaL_checktype i LUA_TTABLE) L := by
  have hne : typeOf (some v) ≠ LUA_TTABLE := fun ht =>
    (typeOf_eq_table.mp ht).elim fun t ht => hno t ht
  rw [luaL_checktype, Raises, bind_ok (lua_type_eq h), if_pos hne]
  exact raises_typeerror i _ L

end LuaUtilityLemmas

theorem getLuaField_field (F : NumberFormat) (T : LuaType) {L : LuaState} {i : Int} {t : ℕ}
    (ht : L.index2value i = some (.table t)) (key : LuaStack.Bytes) (d : T.Val) :
    match field F L.tables t T key d with
    | some x => getLuaField F T i key d L = .ok x L
    | none => Raises (getLuaField F T i key d) L := by
  have hiff := getLuaField_iff F T ht key d
  cases hfield : field F L.tables t T key d with
  | some x => exact (hiff x L).mpr ⟨rfl, reads_iff.mpr hfield⟩
  | none =>
    cases hget : getLuaField F T i key d L with
    | ok x L' => cases hfield.symm.trans (reads_iff.mp ((hiff x L').mp hget).2)
    | error e L' => exact ⟨e, L', hget⟩

/-- An option that is a table, with both fields readable, is read. -/
theorem readOption_option (F : NumberFormat) (path : LuaStack.Bytes) {L : LuaState} {v : Value}
    (hv : L.index2value 2 = some v) :
    match option? F path L.tables v with
    | some o => readOption F path L = .ok o L
    | none => Raises (readOption F path) L := by
  by_cases htable : ∃ t, v = .table t
  · obtain ⟨t, rfl⟩ := htable
    have hworker := getLuaField_field F (.integral uint32_t) hv (ascii "workerid")
      (LuaType.default _)
    have hfile := getLuaField_field F .string hv (ascii "luafile") (LuaType.default _)
    rw [option?, readOption, Raises, bind_ok (luaL_checktype_table hv)]
    cases hw : field F L.tables t (.integral uint32_t) (ascii "workerid") (LuaType.default _) with
    | none =>
      rw [hw] at hworker
      exact raises_bind hworker
    | some workerID =>
      rw [hw] at hworker
      rw [bind_ok hworker, Option.bind_eq_bind, Option.bind_some]
      cases hf : field F L.tables t .string (ascii "luafile") (LuaType.default _) with
      | none =>
        rw [hf] at hfile
        exact raises_bind hfile
      | some luaFile =>
        rw [hf] at hfile
        exact bind_ok hfile
  · have hno : ∀ t, v ≠ .table t := not_exists.mp htable
    have hnone : option? F path L.tables v = none := by
      cases v with
      | table t => exact absurd rfl (hno t)
      | _ => rfl
    rw [hnone]
    exact raises_bind (luaL_checktype_raises hv hno)

end LuaRobot
