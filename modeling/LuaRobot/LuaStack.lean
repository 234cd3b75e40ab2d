import LuaRobot.ByteStrings

/-!
# The stack of the Lua C API

The part of the Lua 5.4 API that reads and writes one call frame: its slots by
positive and negative index, conversions, raw access to tables and their
traversal. A table lists its entries in the order of `lua_next`, with the keys as
Lua keeps them. Memory errors are left out.

Results:
1. `index2value_push`, `index2value_abs`: what a push does to an index, and the
   positive index of a slot.
2. `next_of_append`: `lua_next` goes through the entries one by one.
-/

namespace LuaStack

open ByteStrings

/-! ## Definitions -/

abbrev Bytes := List UInt8

/-- A Lua value. Objects are their addresses; a light C function is its name. -/
inductive Value where
  | nil
  | boolean (b : Bool)
  | integer (v : Int64)
  | float (bits : UInt64)
  | string (s : Bytes)
  | table (t : ℕ)
  | function (f : ℕ)
  | cfunction (f : String)
  | userdata (u : ℕ)
  | lightuserdata (p : ℕ)
  | thread (th : ℕ)
deriving DecidableEq

@[simp] def LUA_TNONE : Int := -1
@[simp] def LUA_TNIL : Int := 0
@[simp] def LUA_TBOOLEAN : Int := 1
@[simp] def LUA_TLIGHTUSERDATA : Int := 2
@[simp] def LUA_TNUMBER : Int := 3
@[simp] def LUA_TSTRING : Int := 4
@[simp] def LUA_TTABLE : Int := 5
@[simp] def LUA_TFUNCTION : Int := 6
@[simp] def LUA_TUSERDATA : Int := 7
@[simp] def LUA_TTHREAD : Int := 8

/-- The type tag; of an index without a slot it is `LUA_TNONE`. -/
def typeOf : Option Value → Int
  | none => LUA_TNONE
  | some .nil => LUA_TNIL
  | some (.boolean _) => LUA_TBOOLEAN
  | some (.lightuserdata _) => LUA_TLIGHTUSERDATA
  | some (.integer _) | some (.float _) => LUA_TNUMBER
  | some (.string _) => LUA_TSTRING
  | some (.table _) => LUA_TTABLE
  | some (.function _) | some (.cfunction _) => LUA_TFUNCTION
  | some (.userdata _) => LUA_TUSERDATA
  | some (.thread _) => LUA_TTHREAD

def lua_typename (t : Int) : Bytes :=
  ascii (["no value", "nil", "boolean", "userdata", "number", "string", "table", "function",
    "userdata", "thread"].getD (t + 1).toNat "")

/-- A table without metamethods. Entries with a `nil` value are absent. -/
structure Table where
  entries : List (Value × Value) := []
  nodup : (entries.map Prod.fst).Nodup := by decide
  key_ne_nil : ∀ e ∈ entries, e.1 ≠ .nil := by decide
  value_ne_nil : ∀ e ∈ entries, e.2 ≠ .nil := by decide

def Table.get (t : Table) (k : Value) : Value :=
  match t.entries.find? (·.1 = k) with
  | some e => e.2
  | none => .nil

/-- `luaH_next`: the entry after that of key `k`, `some none` at the end; `none`
when there is no such key. -/
def Table.next (t : Table) (k : Value) : Option (Option (Value × Value)) :=
  if k = .nil then some t.entries.head?
  else
    match t.entries.dropWhile (·.1 ≠ k) with
    | [] => none
    | _ :: rest => some rest.head?

/-- `metaname v` is the string `__name` in the metatable of `v`. -/
structure Heap where
  tables : ℕ → Table := fun _ => {}
  metaname : Value → Option Bytes := fun _ => none

/-- What all threads of a Lua state share. -/
structure Global extends Heap where
  gcRunning : Bool := true
  gcGenerational : Bool := false

/-- A call frame, its top slot first. -/
structure LuaState extends Global where
  stack : List Value := []

/-- What ends a C function early. `argument` is the error of `luaL_argerror`;
`undefined` is no Lua error: the function is used outside of its contract. -/
inductive Error where
  | argument (arg : Int) (extramsg : Bytes)
  | raised (v : Value)
  | undefined
  /-- a loop has not ended within the steps it was given -/
  | diverges

abbrev Api := EStateM Error LuaState

def Raises {α : Type} (x : Api α) (L : LuaState) : Prop := ∃ e L', x L = .error e L'

/-- The slot of an index, counted from the top. -/
def LuaState.slot (L : LuaState) (idx : Int) : Option ℕ :=
  if 0 < idx ∧ idx ≤ L.stack.length then some (L.stack.length - idx.toNat)
  else if idx < 0 ∧ -idx ≤ L.stack.length then some ((-idx).toNat - 1)
  else none

def LuaState.index2value (L : LuaState) (idx : Int) : Option Value :=
  (L.slot idx).bind (L.stack[·]?)

/-- How Lua converts numbers. -/
structure NumberFormat where
  integerToString : Int64 → Bytes
  floatToString : UInt64 → Bytes
  stringToNumber : Bytes → Option (Int64 ⊕ UInt64)
  floatToInteger : UInt64 → Option Int64
  integerToFloat : Int64 → UInt64

/-- `lua_tolstring` of a value. -/
def NumberFormat.tolstring (F : NumberFormat) : Value → Option Bytes
  | .string s => some s
  | .integer v => some (F.integerToString v)
  | .float bits => some (F.floatToString bits)
  | _ => none

def NumberFormat.tonumber (F : NumberFormat) : Value → Option (Int64 ⊕ UInt64)
  | .integer v => some (.inl v)
  | .float bits => some (.inr bits)
  | .string s => F.stringToNumber s
  | _ => none

/-- `lua_tointegerx` of a value. -/
def NumberFormat.tointeger (F : NumberFormat) (v : Value) : Option Int64 :=
  (F.tonumber v).bind (Sum.elim some F.floatToInteger)

def lua_gettop : Api Int := fun L => .ok L.stack.length L

def push (v : Value) : Api Unit := fun L => .ok () { L with stack := v :: L.stack }

def lua_pop (n : ℕ) : Api Unit := fun L => .ok () { L with stack := L.stack.drop n }

def lua_pushnil : Api Unit := push .nil

def lua_pushlstring (s : Bytes) : Api Unit := push (.string s)

def lua_type (idx : Int) : Api Int := fun L => .ok (typeOf (L.index2value idx)) L

def lua_istable (idx : Int) : Api Bool := do return (← lua_type idx) == LUA_TTABLE

def lua_isboolean (idx : Int) : Api Bool := do return (← lua_type idx) == LUA_TBOOLEAN

def lua_toboolean (idx : Int) : Api Bool := fun L =>
  .ok (match L.index2value idx with
    | none | some .nil | some (.boolean false) => false
    | some _ => true) L

/-- The slot at `idx` becomes `v`. -/
def LuaState.set (L : LuaState) (idx : Int) (v : Value) : LuaState :=
  match L.slot idx with
  | some n => { L with stack := L.stack.set n v }
  | none => L

/-- A number in the slot becomes a string. -/
def lua_tolstring (F : NumberFormat) (idx : Int) : Api (Option Bytes) := fun L =>
  match (L.index2value idx).bind F.tolstring with
  | some s => .ok (some s) (L.set idx (.string s))
  | none => .ok none L

def lua_tointegerx (F : NumberFormat) (idx : Int) : Api (Option Int64) := fun L =>
  .ok ((L.index2value idx).bind F.tointeger) L

/-- The bits of the `lua_Number`. -/
def lua_tonumberx (F : NumberFormat) (idx : Int) : Api (Option UInt64) := fun L =>
  .ok (((L.index2value idx).bind F.tonumber).map (Sum.elim F.integerToFloat id)) L

/-- The raw entry of the key on top takes its place. -/
def lua_rawget (idx : Int) : Api Int := fun L =>
  match L.index2value idx, L.stack with
  | some (.table t), k :: rest =>
    .ok (typeOf (some ((L.tables t).get k))) { L with stack := (L.tables t).get k :: rest }
  | _, _ => .error .undefined L

def lua_next (idx : Int) : Api Bool := fun L =>
  match L.index2value idx, L.stack with
  | some (.table t), k :: rest =>
    match (L.tables t).next k with
    | some (some e) => .ok true { L with stack := e.2 :: e.1 :: rest }
    | some none => .ok false { L with stack := rest }
    | none => .error (.raised (.string (ascii "invalid key to 'next'"))) L
  | _, _ => .error .undefined L

def luaL_argerror {α : Type} (arg : Int) (extramsg : Bytes) : Api α := fun L =>
  .error (.argument arg extramsg) L

def luaL_argcheck (cond : Prop) [Decidable cond] (arg : Int) (extramsg : Bytes) : Api Unit :=
  if cond then pure () else luaL_argerror arg extramsg

def luaL_typeerror {α : Type} (arg : Int) (tname : Bytes) : Api α := fun L =>
  let typearg :=
    match (L.index2value arg).bind L.metaname with
    | some name => name
    | none =>
      if typeOf (L.index2value arg) = LUA_TLIGHTUSERDATA then ascii "light userdata"
      else lua_typename (typeOf (L.index2value arg))
  luaL_argerror arg (tname ++ ascii " expected, got " ++ typearg) L

def luaL_checktype (arg t : Int) : Api Unit := do
  if (← lua_type arg) ≠ t then luaL_typeerror arg (lua_typename t)

def luaL_checklstring (F : NumberFormat) (arg : Int) : Api Bytes := do
  match ← lua_tolstring F arg with
  | some s => return s
  | none => luaL_typeerror arg (lua_typename LUA_TSTRING)

def luaL_checknumber (F : NumberFormat) (arg : Int) : Api UInt64 := do
  match ← lua_tonumberx F arg with
  | some d => return d
  | none => luaL_typeerror arg (lua_typename LUA_TNUMBER)

def luaL_checkinteger (F : NumberFormat) (arg : Int) : Api Int64 := do
  match ← lua_tointegerx F arg with
  | some d => return d
  | none =>
    if (← lua_tonumberx F arg).isSome then
      luaL_argerror arg (ascii "number has no integer representation")
    else luaL_typeerror arg (lua_typename LUA_TNUMBER)

/-! ## 1. Indices -/

namespace StackLemmas

theorem typeOf_eq_string {v : Value} : typeOf (some v) = LUA_TSTRING ↔ ∃ s, v = .string s := by
  cases v <;> simp [typeOf]

theorem typeOf_eq_table {v : Value} : typeOf (some v) = LUA_TTABLE ↔ ∃ t, v = .table t := by
  cases v <;> simp [typeOf]

theorem typeOf_eq_boolean {v : Value} : typeOf (some v) = LUA_TBOOLEAN ↔ ∃ b, v = .boolean b := by
  cases v <;> simp [typeOf]

theorem typeOf_le_nil {v : Value} : typeOf (some v) ≤ LUA_TNIL ↔ v = .nil := by
  cases v <;> simp [typeOf]

theorem bind_ok {ε σ α β : Type} {x : EStateM ε σ α} {f : α → EStateM ε σ β} {a : α} {L L' : σ}
    (h : x L = .ok a L') : (x >>= f) L = f a L' := by
  simp only [bind, EStateM.bind, h]

theorem bind_error {ε σ α β : Type} {x : EStateM ε σ α} {f : α → EStateM ε σ β} {e : ε} {L L' : σ}
    (h : x L = .error e L') : (x >>= f) L = .error e L' := by
  simp only [bind, EStateM.bind, h]

theorem bind_eq_ok {α β : Type} {x : Api α} {f : α → Api β} {b : β} {L L' : LuaState} :
    (x >>= f) L = .ok b L' ↔ ∃ a L₁, x L = .ok a L₁ ∧ f a L₁ = .ok b L' := by
  cases hx : x L with
  | ok a L₁ =>
    rw [bind_ok hx]
    refine ⟨fun h => ⟨a, L₁, rfl, h⟩, ?_⟩
    rintro ⟨_, _, ⟨⟩, h⟩
    exact h
  | error e L₁ =>
    rw [bind_error hx]
    refine ⟨fun h => (nomatch h), ?_⟩
    rintro ⟨_, _, ⟨⟩, _⟩

theorem slot_neg {L : LuaState} {n : ℕ} (h : n < L.stack.length) : L.slot (-n - 1) = some n := by
  unfold LuaState.slot
  rw [if_neg (by omega), if_pos (by omega)]
  exact congrArg some (by omega)

theorem slot_top {L : LuaState} {v : Value} {rest : List Value} (h : L.stack = v :: rest) :
    L.slot (-1) = some 0 :=
  slot_neg (n := 0) (by rw [h]; exact Nat.succ_pos _)

theorem index2value_top (L : LuaState) {v : Value} {rest : List Value} (h : L.stack = v :: rest) :
    L.index2value (-1) = some v := by
  rw [LuaState.index2value, slot_top h, Option.bind_some, h]
  rfl

theorem index2value_second (L : LuaState) {v w : Value} {rest : List Value}
    (h : L.stack = v :: w :: rest) : L.index2value (-2) = some w := by
  have hslot : L.slot (-2) = some 1 :=
    slot_neg (n := 1) (by rw [h]; exact Nat.succ_lt_succ (Nat.succ_pos _))
  rw [LuaState.index2value, hslot, Option.bind_some, h]
  rfl

theorem set_top (L : LuaState) {v w : Value} {rest : List Value} (h : L.stack = v :: rest) :
    L.set (-1) w = { L with stack := w :: rest } := by
  rw [LuaState.set, slot_top h, h]
  rfl

end StackLemmas

open StackLemmas

/-- A slot has the same positive index whatever is pushed over it. -/
theorem index2value_push {L : LuaState} {i : Int} (hi : 0 < i) (hle : i ≤ L.stack.length)
    (v : Value) : LuaState.index2value { L with stack := v :: L.stack } i = L.index2value i := by
  have hslot : LuaState.slot { L with stack := v :: L.stack } i =
      some (L.stack.length - i.toNat + 1) := by
    unfold LuaState.slot
    rw [if_pos ⟨hi, by rw [List.length_cons]; omega⟩, List.length_cons]
    exact congrArg some (by omega)
  have hslot' : L.slot i = some (L.stack.length - i.toNat) := by
    unfold LuaState.slot
    rw [if_pos ⟨hi, hle⟩]
  rw [LuaState.index2value, LuaState.index2value, hslot, hslot', Option.bind_some,
    Option.bind_some, List.getElem?_cons_succ]

/-- The positive index of the slot that a negative one denotes. -/
theorem index2value_abs {L : LuaState} {i : Int} (hi : i < 0) (hle : -i ≤ L.stack.length) :
    L.index2value (L.stack.length + i + 1) = L.index2value i := by
  have hslot : L.slot (L.stack.length + i + 1) = L.slot i := by
    unfold LuaState.slot
    rw [if_pos ⟨by omega, by omega⟩, if_neg (by omega), if_pos ⟨hi, hle⟩]
    exact congrArg some (by omega)
  rw [LuaState.index2value, LuaState.index2value, hslot]

namespace StackLemmas

theorem slot_of_index2value {L : LuaState} {i : Int} {v : Value} (h : L.index2value i = some v) :
    (0 < i ∧ i ≤ L.stack.length) ∨ (i < 0 ∧ -i ≤ L.stack.length) := by
  unfold LuaState.index2value LuaState.slot at h
  split at h
  · exact Or.inl ‹_›
  · split at h
    · exact Or.inr ‹_›
    · cases h

theorem lua_tolstring_top (F : NumberFormat) (L : LuaState) (v : Value) (rest : List Value) :
    lua_tolstring F (-1) { L with stack := v :: rest } =
      match F.tolstring v with
      | some s => .ok (some s) { L with stack := .string s :: rest }
        | none => .ok none { L with stack := v :: rest } := by
  rw [lua_tolstring, index2value_top _ rfl, Option.bind_some]
  cases F.tolstring v with
  | none => rfl
  | some s => exact congrArg _ (set_top _ rfl)

theorem lua_type_eq {L : LuaState} {i : Int} {v : Value} (h : L.index2value i = some v) :
    lua_type i L = .ok (typeOf (some v)) L := by
  rw [lua_type, h]

theorem raises_bind {α β : Type} {x : Api α} {f : α → Api β} {L : LuaState} (h : Raises x L) :
    Raises (x >>= f) L := by
  obtain ⟨e, L', h⟩ := h
  exact ⟨e, L', bind_error h⟩

theorem raises_argerror {α : Type} (arg : Int) (msg : Bytes) (L : LuaState) :
    Raises (luaL_argerror (α := α) arg msg) L := ⟨_, _, rfl⟩

theorem raises_typeerror {α : Type} (arg : Int) (tname : Bytes) (L : LuaState) :
    Raises (luaL_typeerror (α := α) arg tname) L := ⟨_, _, rfl⟩

theorem luaL_checktype_table {L : LuaState} {i : Int} {t : ℕ}
    (h : L.index2value i = some (.table t)) : luaL_checktype i LUA_TTABLE L = .ok () L := by
  have htype : lua_type i L = .ok LUA_TTABLE L := lua_type_eq h
  rw [luaL_checktype, bind_ok htype]
  rfl

theorem luaL_checklstring_top (F : NumberFormat) (L : LuaState) (v : Value) (rest : List Value) :
    match F.tolstring v with
    | some s => luaL_checklstring F (-1) { L with stack := v :: rest } =
        .ok s { L with stack := .string s :: rest }
    | none => Raises (luaL_checklstring F (-1)) { L with stack := v :: rest } := by
  have htop := lua_tolstring_top F L v rest
  cases hv : F.tolstring v with
  | none =>
    rw [hv] at htop
    exact ⟨_, _, bind_ok htop⟩
  | some s =>
    rw [hv] at htop
    exact bind_ok htop

theorem lua_tonumberx_eq (F : NumberFormat) {L : LuaState} {i : Int} {v : Value}
    (h : L.index2value i = some v) :
    lua_tonumberx F i L = .ok ((F.tonumber v).map (Sum.elim F.integerToFloat id)) L := by
  rw [lua_tonumberx, h, Option.bind_some]

theorem luaL_checknumber_eq (F : NumberFormat) {L : LuaState} {i : Int} {v : Value}
    (h : L.index2value i = some v) :
    match (F.tonumber v).map (Sum.elim F.integerToFloat id) with
    | some d => luaL_checknumber F i L = .ok d L
    | none => Raises (luaL_checknumber F i) L := by
  rw [Raises, luaL_checknumber, bind_ok (lua_tonumberx_eq F h)]
  cases (F.tonumber v).map (Sum.elim F.integerToFloat id) with
  | none => exact raises_typeerror i _ L
  | some d => rfl

theorem luaL_checkinteger_eq (F : NumberFormat) {L : LuaState} {i : Int} {v : Value}
    (h : L.index2value i = some v) :
    match F.tointeger v with
    | some n => luaL_checkinteger F i L = .ok n L
    | none => Raises (luaL_checkinteger F i) L := by
  have hint : lua_tointegerx F i L = .ok (F.tointeger v) L := by
    rw [lua_tointegerx, h, Option.bind_some]
  rw [Raises, luaL_checkinteger, bind_ok hint]
  cases F.tointeger v with
  | some n => rfl
  | none =>
    dsimp only
    rw [bind_ok (lua_tonumberx_eq F h)]
    split
    · exact raises_argerror i _ L
    · exact raises_typeerror i _ L

end StackLemmas

open StackLemmas

/-! ## 2. Traversal -/

theorem next_nil (t : Table) : t.next .nil = some t.entries.head? := if_pos rfl

theorem next_of_append {t : Table} {pre rest : List (Value × Value)} {e : Value × Value}
    (h : t.entries = pre ++ e :: rest) : t.next e.1 = some rest.head? := by
  have hne : e.1 ≠ .nil := t.key_ne_nil e (by rw [h]; simp)
  have hpre : ∀ x ∈ pre, x.1 ≠ e.1 := by
    have hnd := t.nodup
    rw [h, List.map_append, List.map_cons, List.nodup_append] at hnd
    exact fun x hx hxe => hnd.2.2 x.1 (List.mem_map_of_mem hx) e.1 List.mem_cons_self hxe
  have hdrop : t.entries.dropWhile (·.1 ≠ e.1) = e :: rest := by
    rw [h, List.dropWhile_append_of_pos fun x hx => by simpa using hpre x hx,
      List.dropWhile_cons_of_neg (by simp)]
  rw [Table.next, if_neg hne, hdrop]

theorem lua_next_second {L : LuaState} {t : ℕ} {k : Value} {rest : List Value}
    {e : Option (Value × Value)} (h : (L.tables t).next k = some e) :
    lua_next (-2) { L with stack := k :: .table t :: rest } =
      match e with
      | some e => .ok true { L with stack := e.2 :: e.1 :: .table t :: rest }
      | none => .ok false { L with stack := .table t :: rest } := by
  rw [lua_next, index2value_second _ rfl]
  simp only [h]
  cases e <;> rfl

end LuaStack
