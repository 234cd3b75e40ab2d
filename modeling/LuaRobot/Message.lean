import LuaRobot.Runs
import Mathlib.Data.List.AList

/-!
# Registration, dispatch and sending

`lua_scripts/message.lua`. The protocols that `server.register` is given are
tables of the script, which may change them at any time, also after they are
registered. `server` is the table `core`, so the `core.send` that `server.send`
calls is `server.send` again, with the receiver as the type; no script assigns
`core.send` another function.

What a function of a script prints or calls in turn is no part of the call here,
which is one entry of the trace. A `pack` function may register protocols and
change tables before it returns or raises; what a handler does is later events. The
tables have no `__index` or `__newindex` of their own.

Results:
1. `protocol_eq_latest`: `protocol` holds the latest registration of each type.
2. `default_dispatch_calls`: which handler is called; `default_dispatch_reported_iff`:
   what becomes of a type that was never registered.
3. `send_raises`: no call of `server.send` returns; `send_indexNil_iff`: which of
   them end at a type that is not in `protocol`.
4. `message_dispatch`: the functions do what they are for exactly when the types
   that they look up have been registered.
-/

namespace LuaRobot

open Runs

/-! ## Definitions -/

/-- A value as an index; no table has an entry under `nil` or NaN. -/
inductive Index (κ : Type*) where
  | nil
  | nan
  | key (k : κ)
deriving DecidableEq

/-- An error that ends a call. -/
inductive LuaError where
  /-- a field of `nil` is read -/
  | indexNil (name : String)
  /-- a value is called that no function stands behind -/
  | call (typename name : String)
  /-- a field is assigned under an index that no table has -/
  | tableIndex (value : String)
  /-- the error of a function that was called -/
  | raised (message : String)
deriving DecidableEq

def LuaError.message : LuaError → String
  | .indexNil name => s!"attempt to index a nil value ({name})"
  | .call typename name => s!"attempt to call a {typename} value ({name})"
  | .tableIndex value => s!"table index is {value}"
  | .raised message => message

/-- The value of a field that may hold a function. -/
inductive Field (δ ν : Type*) where
  | nil
  | boolean (b : Bool)
  | function (f : δ)
  /-- a value with a `__call` metamethod: calling it calls `f` with `self` before
  the arguments, one value for each metamethod on the way to `f` -/
  | callable (f : δ) (self : List ν)
  | other (typename : String)
deriving DecidableEq

/-- The function that a call of the field reaches, with what precedes the
arguments. -/
def Field.callee (name : String) : Field δ ν → Except LuaError (δ × List ν)
  | .function f => .ok (f, [])
  | .callable f self => .ok (f, self)
  | .nil => .error (.call "nil" name)
  | .boolean _ => .error (.call "boolean" name)
  | .other typename => .error (.call typename name)

/-- The fields of a protocol that the script reads. -/
structure Protocol (κ δ ν : Type*) where
  type : Index κ := .nil
  pack : Field δ ν := .nil
  dispatch : Field δ ν := .nil

inductive Effect (κ δ ν : Type*) where
  | print (text : String) (type : Option (Index κ))
  /-- `f(args)` is called -/
  | call (f : δ) (args : List ν)
  /-- table `p` is registered for the type -/
  | registered (type : κ) (p : ℕ)
deriving DecidableEq

/-- `protocol` maps types to tables, `tables` has what these hold. -/
structure MessageLua (κ δ ν : Type*) where
  protocol : AList fun _ : κ => ℕ
  tables : ℕ → Protocol κ δ ν
  trace : List (Effect κ δ ν) := []

variable {κ δ ν : Type*} [DecidableEq κ]

/-- `protocol[type]`. -/
def MessageLua.lookup (s : MessageLua κ δ ν) : Index κ → Option ℕ
  | .key k => s.protocol.lookup k
  | .nil | .nan => none

def MessageLua.emit (s : MessageLua κ δ ν) (e : Effect κ δ ν) : MessageLua κ δ ν :=
  { s with trace := s.trace ++ [e] }

/-- `server.register(p)`, and the error it raises. -/
def MessageLua.register (s : MessageLua κ δ ν) (p : ℕ) : MessageLua κ δ ν × Option LuaError :=
  match (s.tables p).type with
  | .nil => (s, some (.tableIndex "nil"))
  | .nan => (s, some (.tableIndex "NaN"))
  | .key type =>
    ({ s with protocol := s.protocol.insert type p }.emit (.registered type p), none)

/-- `_default_dispatch(msg, type)`, and the error it raises itself. `session` is
the constant 0. -/
def MessageLua.default_dispatch (s : MessageLua κ δ ν) (msg : ν) (type : Index κ) :
    MessageLua κ δ ν × Option LuaError :=
  let p := s.lookup type
  let s := if p.isNone then s.emit (.print "no dispatch type" none) else s
  match p with
  | none => (s, some (.indexNil "local 'p'"))
  | some p =>
    match (s.tables p).dispatch with
    | .nil | .boolean false => (s.emit (.print "dispatch is null" none), none)
    | dispatch =>
      match dispatch.callee "local 'dispatch'" with
      | .error e => (s, some e)
      | .ok (f, self) => (s.emit (.call f (self ++ [msg])), none)

/-- What a script changes, in the functions it defines or between two calls. -/
inductive Change (κ δ ν : Type*) where
  | register (p : ℕ)
  /-- the script changes table `p`, or makes a new one -/
  | assign (p : ℕ) (protocol : Protocol κ δ ν)

/-- One change. An error that `register` raises may be caught. -/
def MessageLua.change (s : MessageLua κ δ ν) : Change κ δ ν → MessageLua κ δ ν
  | .register p => (s.register p).1
  | .assign p protocol => { s with tables := Function.update s.tables p protocol }

/-- The values of the scripts and the functions they define. -/
structure Script (κ δ ν : Type*) where
  nil : ν
  index : ν → Index κ
  /-- what `f(args)` changes, and its results or the error it raises -/
  call : δ → List ν → MessageLua κ δ ν → List (Change κ δ ν) × Except String (List ν)
  /-- the error that Lua raises when its stack is full -/
  overflow : String

/-- `server.send(type, receiver, ...)` up to the results of `p.pack(...)`. -/
def MessageLua.packed (script : Script κ δ ν) (s : MessageLua κ δ ν) (type : Index κ)
    (args : List ν) : MessageLua κ δ ν × Except LuaError (List ν) :=
  let p := s.lookup type
  let s := if p.isNone then s.emit (.print "unknown send type:%u" (some type)) else s
  match p with
  | none => (s, .error (.indexNil "local 'p'"))
  | some p =>
    match (s.tables p).pack.callee "field 'pack'" with
    | .error e => (s, .error e)
    | .ok (f, self) =>
      let s := s.emit (.call f (self ++ args))
      let (changes, results) := script.call f (self ++ args) s
      (changes.foldl MessageLua.change s, results.mapError LuaError.raised)

/-- `server.send(type, receiver, ...)`, and the error it ends with. The call of
`core.send` is one of `server.send`, as long as the stack has room. -/
def MessageLua.send (script : Script κ δ ν) (room : ℕ) (s : MessageLua κ δ ν) (type : Index κ)
    (receiver : ν) (args : List ν) : MessageLua κ δ ν × Option LuaError :=
  match s.packed script type args with
  | (s, .error e) => (s, some e)
  | (s, .ok results) =>
    match room with
    | 0 => (s, some (.raised script.overflow))
    | room + 1 =>
      MessageLua.send script room s (script.index receiver) (results.headD script.nil) results.tail

/-- The types that `server.send` and its calls of itself look up, each with the
state it is looked up in. -/
def MessageLua.lookups (script : Script κ δ ν) (room : ℕ) (s : MessageLua κ δ ν) (type : Index κ)
    (receiver : ν) (args : List ν) : List (MessageLua κ δ ν × Index κ) :=
  (s, type) ::
    match s.packed script type args with
    | (_, .error _) => []
    | (s, .ok results) =>
      match room with
      | 0 => []
      | room + 1 =>
        MessageLua.lookups script room s (script.index receiver) (results.headD script.nil)
          results.tail

/-- The script was just loaded: it has registered a protocol of its own, table
0, for `server.MSG_LUA`. -/
def MessageLua.init (MSG_LUA : κ) (notImplemented : δ) : MessageLua κ δ ν :=
  (MessageLua.register
    { protocol := ∅
      tables := fun p =>
        if p = 0 then { type := .key MSG_LUA, dispatch := .function notImplemented } else {} } 0).1

inductive MessageLua.Event (κ δ ν : Type*) where
  | change (c : Change κ δ ν)
  | dispatch (msg : ν) (type : Index κ)
  /-- the stack has room for `room` more calls -/
  | send (room : ℕ) (type : Index κ) (receiver : ν) (args : List ν)

/-- One event. Who calls the function may catch the error it raises. -/
def MessageLua.step (script : Script κ δ ν) (s : MessageLua κ δ ν) :
    MessageLua.Event κ δ ν → Option (MessageLua κ δ ν)
  | .change c => some (s.change c)
  | .dispatch msg type => some (s.default_dispatch msg type).1
  | .send room type receiver args => some (s.send script room type receiver args).1

def Effect.registered? : Effect κ δ ν → Option (κ × ℕ)
  | .registered type p => some (type, p)
  | _ => none

def Effect.call? : Effect κ δ ν → Option (δ × List ν)
  | .call f args => some (f, args)
  | _ => none

/-- The registrations so far, the script's own first. -/
def MessageLua.registrations (s : MessageLua κ δ ν) : List (κ × ℕ) :=
  s.trace.filterMap Effect.registered?

/-- The functions called so far. -/
def MessageLua.calls (s : MessageLua κ δ ν) : List (δ × List ν) := s.trace.filterMap Effect.call?

/-- The table most recently registered for the type. -/
def latest (log : List (κ × ℕ)) : Index κ → Option ℕ
  | .key k => (log.reverse.find? fun x => x.1 = k).map Prod.snd
  | .nil | .nan => none

/-- The call that led from `s` to `r` has printed something and returned: nothing
was called or sent, and the registry is as it was. -/
def MessageLua.Reported (s : MessageLua κ δ ν) (r : MessageLua κ δ ν × Option LuaError) : Prop :=
  ∃ text type, r = (s.emit (.print text type), none)

/-! ## 1. The registry -/

/-- `protocol` has, for each type, the table most recently registered for it. -/
def MessageLua.Registry (s : MessageLua κ δ ν) : Prop :=
  ∀ type, s.lookup type = latest s.registrations type

namespace MessageLemmas

theorem latest_snoc (log : List (κ × ℕ)) (k k' : κ) (p : ℕ) :
    latest (log ++ [(k', p)]) (.key k) = if k' = k then some p else latest log (.key k) := by
  simp only [latest, List.reverse_append, List.reverse_singleton, List.singleton_append,
    List.find?_cons]
  by_cases h : k' = k <;> simp [h]

theorem lookup_insert (protocol : AList fun _ : κ => ℕ) (k k' : κ) (p : ℕ) :
    (protocol.insert k' p).lookup k = if k' = k then some p else protocol.lookup k := by
  split
  · next h => rw [h, AList.lookup_insert]
  · next h => exact AList.lookup_insert_ne (Ne.symm h)

omit [DecidableEq κ] in
theorem registrations_emit (s : MessageLua κ δ ν) (e : Effect κ δ ν) :
    (s.emit e).registrations = s.registrations ++ e.registered?.toList := by
  rw [MessageLua.registrations, MessageLua.emit, List.filterMap_append]
  cases h : e.registered? <;> simp [MessageLua.registrations, h]

theorem registry_emit {s : MessageLua κ δ ν} {e : Effect κ δ ν} (h : s.Registry)
    (he : e.registered? = none) : (s.emit e).Registry := by
  intro type
  rw [registrations_emit, he, Option.toList_none, List.append_nil]
  exact h type

theorem registry_register {s : MessageLua κ δ ν} (h : s.Registry) (p : ℕ) :
    (s.register p).1.Registry := by
  unfold MessageLua.register
  split
  · exact h
  · exact h
  · next type _ =>
    intro t
    rw [registrations_emit]
    cases t with
    | nil | nan => rfl
    | key k =>
      refine Eq.trans ?_ (latest_snoc _ k type p).symm
      exact (lookup_insert s.protocol k type p).trans (if_congr Iff.rfl rfl (h (.key k)))

theorem registry_change {s : MessageLua κ δ ν} (h : s.Registry) (c : Change κ δ ν) :
    (s.change c).Registry := by
  cases c with
  | register p => exact registry_register h p
  | assign p protocol => exact h

theorem registry_changes {s : MessageLua κ δ ν} (h : s.Registry) (cs : List (Change κ δ ν)) :
    (cs.foldl MessageLua.change s).Registry := by
  induction cs generalizing s with
  | nil => exact h
  | cons c cs ih => exact ih (registry_change h c)

theorem registry_dispatch {s : MessageLua κ δ ν} (h : s.Registry) (msg : ν) (type : Index κ) :
    (s.default_dispatch msg type).1.Registry := by
  unfold MessageLua.default_dispatch
  cases s.lookup type with
  | none => exact registry_emit h rfl
  | some p =>
    simp only [Option.isNone_some, Bool.false_eq_true, if_false]
    split
    · exact registry_emit h rfl
    · exact registry_emit h rfl
    · split
      · exact h
      · exact registry_emit h rfl

section Packed

variable {script : Script κ δ ν} {s s' : MessageLua κ δ ν} {type : Index κ} {args : List ν}
  {r : Except LuaError (List ν)}

theorem registry_packed (hp : s.packed script type args = (s', r)) (h : s.Registry) :
    s'.Registry := by
  have hs' : s' = (s.packed script type args).1 := (congrArg Prod.fst hp).symm
  rw [hs']
  unfold MessageLua.packed
  cases s.lookup type with
  | none => exact registry_emit h rfl
  | some p =>
    simp only [Option.isNone_some, Bool.false_eq_true, if_false]
    split
    · exact h
    · exact registry_changes (registry_emit h rfl) _

/-- The error of a missing protocol is that of this look-up, and of nothing else up
to the results of `pack`. -/
theorem packed_indexNil_iff (hp : s.packed script type args = (s', r)) :
    r = .error (.indexNil "local 'p'") ↔ s.lookup type = none := by
  have hr : r = (s.packed script type args).2 := (congrArg Prod.snd hp).symm
  rw [hr]
  unfold MessageLua.packed
  cases s.lookup type with
  | none => exact iff_of_true rfl rfl
  | some p =>
    refine iff_of_false ?_ (Option.some_ne_none p)
    simp only [Option.isNone_some, Bool.false_eq_true, if_false]
    cases (s.tables p).pack with
    | nil | boolean _ | other _ => exact fun h => by cases h
    | function f | callable f self =>
      simp only [Field.callee]
      generalize (script.call f _ _).2 = results
      cases results <;> exact fun h => by cases h

end Packed

variable {script : Script κ δ ν}

theorem registry_send {room : ℕ} {s : MessageLua κ δ ν} (h : s.Registry) (type : Index κ)
    (receiver : ν) (args : List ν) : (s.send script room type receiver args).1.Registry := by
  fun_induction MessageLua.send script room s type receiver args with
  | case1 _ s type _ args s' e hp => exact registry_packed hp h
  | case2 s type _ args s' results hp => exact registry_packed hp h
  | case3 s type receiver args s' results hp room ih => exact ih (registry_packed hp h)

theorem registry_lookups {room : ℕ} {s : MessageLua κ δ ν} (h : s.Registry) (type : Index κ)
    (receiver : ν) (args : List ν) :
    ∀ c ∈ s.lookups script room type receiver args, c.1.Registry := by
  fun_induction MessageLua.send script room s type receiver args with
  | case1 _ s type _ args s' e hp =>
    unfold MessageLua.lookups
    rw [hp]
    exact List.forall_mem_singleton.mpr h
  | case2 s type _ args s' results hp =>
    unfold MessageLua.lookups
    rw [hp]
    exact List.forall_mem_singleton.mpr h
  | case3 s type receiver args s' results hp room ih =>
    rw [MessageLua.lookups, hp]
    exact List.forall_mem_cons.mpr ⟨h, ih (registry_packed hp h)⟩

theorem registry_step {s s' : MessageLua κ δ ν} {e : MessageLua.Event κ δ ν} (h : s.Registry)
    (hs : s.step script e = some s') : s'.Registry := by
  cases e with
  | change c =>
    cases hs
    exact registry_change h c
  | dispatch msg type =>
    cases hs
    exact registry_dispatch h msg type
  | send room type receiver args =>
    cases hs
    exact registry_send h type receiver args

theorem registry_init (MSG_LUA : κ) (notImplemented : δ) :
    (MessageLua.init MSG_LUA notImplemented : MessageLua κ δ ν).Registry :=
  registry_register (fun type => by cases type <;> rfl) 0

omit [DecidableEq κ] in
theorem not_reported {s : MessageLua κ δ ν} {r : MessageLua κ δ ν × Option LuaError}
    (h : r.2.isSome) : ¬ s.Reported r := by
  rintro ⟨text, type, rfl⟩
  cases h

end MessageLemmas

open MessageLemmas

variable {script : Script κ δ ν}

/-- In every state of every run `protocol` has, for each type, the table most
recently registered for it. -/
theorem protocol_eq_latest {MSG_LUA : κ} {notImplemented : δ}
    {es : List (MessageLua.Event κ δ ν)} {s : MessageLua κ δ ν}
    (hrun : run (MessageLua.step script) (MessageLua.init MSG_LUA notImplemented) es = some s) :
    s.Registry :=
  run_invariant (G := fun _ _ => True) (fun _ _ _ h _ hs => registry_step h hs)
    (registry_init MSG_LUA notImplemented) (meets_of_forall (fun _ _ => trivial) _ es) hrun

/-! ## 2. One call of `_default_dispatch` -/

/-- `_default_dispatch` calls the `dispatch` function of the protocol, if there is
one, with the message, and nothing else. -/
theorem default_dispatch_calls (s : MessageLua κ δ ν) (msg : ν) (type : Index κ) :
    (s.default_dispatch msg type).1.calls = s.calls ++ ((s.lookup type).bind fun p =>
      ((s.tables p).dispatch.callee "local 'dispatch'").toOption).toList.map
        fun c => (c.1, c.2 ++ [msg]) := by
  unfold MessageLua.default_dispatch MessageLua.calls
  cases s.lookup type with
  | none => simp [MessageLua.emit, Effect.call?]
  | some p =>
    simp only [Option.isNone_some, Bool.false_eq_true, if_false, Option.bind_some]
    cases (s.tables p).dispatch with
    | nil => simp [MessageLua.emit, Effect.call?, Field.callee, Except.toOption]
    | boolean b => cases b <;> simp [MessageLua.emit, Effect.call?, Field.callee, Except.toOption]
    | function f => simp [MessageLua.emit, Effect.call?, Field.callee, Except.toOption]
    | callable f self => simp [MessageLua.emit, Effect.call?, Field.callee, Except.toOption]
    | other typename => simp [Field.callee, Except.toOption]

/-- A type that is not in `protocol` is reported, and then the call raises an
error of its own. -/
theorem default_dispatch_unregistered {s : MessageLua κ δ ν} {type : Index κ}
    (h : s.lookup type = none) (msg : ν) : s.default_dispatch msg type =
      (s.emit (.print "no dispatch type" none), some (.indexNil "local 'p'")) := by
  simp [MessageLua.default_dispatch, h]

theorem default_dispatch_reported_iff {s : MessageLua κ δ ν} {type : Index κ} {msg : ν} :
    (s.lookup type = none → s.Reported (s.default_dispatch msg type)) ↔
      (s.lookup type).isSome := by
  cases hp : s.lookup type with
  | none =>
    refine iff_of_false (fun hall => not_reported ?_ (hall rfl)) Bool.false_ne_true
    rw [default_dispatch_unregistered hp msg]
    rfl
  | some p => exact iff_of_true (fun hnone => by cases hnone) rfl

/-! ## 3. One call of `server.send` -/

/-- `server.send` calls itself until the call ends in an error: nothing is ever
sent. -/
theorem send_raises (script : Script κ δ ν) (room : ℕ) (s : MessageLua κ δ ν) (type : Index κ)
    (receiver : ν) (args : List ν) : (s.send script room type receiver args).2.isSome := by
  fun_induction MessageLua.send script room s type receiver args with
  | case1 | case2 => rfl
  | case3 s type receiver args s' results hp room ih => exact ih

/-- The error is that of a missing protocol exactly when the call, or one of its
calls of itself, looks up a type that is not in `protocol`. -/
theorem send_indexNil_iff {room : ℕ} {s : MessageLua κ δ ν} {type : Index κ} {receiver : ν}
    {args : List ν} : (s.send script room type receiver args).2 = some (.indexNil "local 'p'") ↔
      ∃ c ∈ s.lookups script room type receiver args, c.1.lookup c.2 = none := by
  fun_induction MessageLua.send script room s type receiver args with
  | case1 _ s type _ args s' e hp =>
    have hfirst := packed_indexNil_iff hp
    unfold MessageLua.lookups
    rw [hp]
    simpa using hfirst
  | case2 s type _ args s' results hp =>
    have hfirst := packed_indexNil_iff hp
    unfold MessageLua.lookups
    rw [hp]
    simpa using hfirst
  | case3 s type receiver args s' results hp room ih =>
    have hfound : s.lookup type ≠ none := fun hnone => by cases (packed_indexNil_iff hp).mpr hnone
    rw [MessageLua.lookups, hp, ih]
    simp [hfound]

theorem send_unregistered {s : MessageLua κ δ ν} {type : Index κ} (h : s.lookup type = none)
    (room : ℕ) (receiver : ν) (args : List ν) : s.send script room type receiver args =
      (s.emit (.print "unknown send type:%u" (some type)), some (.indexNil "local 'p'")) := by
  unfold MessageLua.send
  simp [MessageLua.packed, h]

theorem send_reported_iff {room : ℕ} {s : MessageLua κ δ ν} {type : Index κ} {receiver : ν}
    {args : List ν} :
    (s.lookup type = none → s.Reported (s.send script room type receiver args)) ∧
        (s.send script room type receiver args).2 ≠ some (.indexNil "local 'p'") ↔
      ∀ c ∈ s.lookups script room type receiver args, (c.1.lookup c.2).isSome := by
  have hraised : (s.send script room type receiver args).2 ≠ some (.indexNil "local 'p'") ↔
      ∀ c ∈ s.lookups script room type receiver args, (c.1.lookup c.2).isSome := by
    simp [Ne, send_indexNil_iff, Option.isSome_iff_ne_none]
  rw [← hraised]
  -- the call for a type that is missing itself raises, so the first part says no more
  refine and_iff_right_of_imp fun hne hnone => absurd ?_ hne
  rw [send_unregistered hnone]

/-! ## 4. Any call after any history -/

/-- In every state of every run `_default_dispatch` calls the `dispatch` function
of the protocol most recently registered for the type, once and with the
message, and no other. It only reports a type that was never registered exactly
when the type has been registered. `server.send` does the same, and does not end
at such a type in a call of itself either, exactly when every type that is looked
up on the way has been registered by then. -/
theorem message_dispatch {MSG_LUA : κ} {notImplemented : δ}
    {es : List (MessageLua.Event κ δ ν)} {s : MessageLua κ δ ν}
    (hrun : run (MessageLua.step script) (MessageLua.init MSG_LUA notImplemented) es = some s)
    (msg receiver : ν) (type : Index κ) (args : List ν) (room : ℕ) :
    (s.default_dispatch msg type).1.calls = s.calls ++
      ((latest s.registrations type).bind fun p =>
        ((s.tables p).dispatch.callee "local 'dispatch'").toOption).toList.map
          (fun c => (c.1, c.2 ++ [msg])) ∧
    ((latest s.registrations type = none → s.Reported (s.default_dispatch msg type)) ↔
      (latest s.registrations type).isSome) ∧
    ((latest s.registrations type = none → s.Reported (s.send script room type receiver args)) ∧
        (s.send script room type receiver args).2 ≠ some (.indexNil "local 'p'") ↔
      ∀ c ∈ s.lookups script room type receiver args, (latest c.1.registrations c.2).isSome) := by
  have hregistry := protocol_eq_latest hrun
  have hlookups : ∀ c ∈ s.lookups script room type receiver args,
      c.1.lookup c.2 = latest c.1.registrations c.2 :=
    fun c hc => registry_lookups hregistry type receiver args c hc c.2
  rw [← hregistry type]
  refine ⟨default_dispatch_calls s msg type, default_dispatch_reported_iff, ?_⟩
  rw [send_reported_iff]
  exact forall₂_congr fun c hc => by rw [hlookups c hc]

/-- The values are numbers, and every function returns what it is given. -/
def numbers : Script ℕ ℕ ℕ where
  nil := 0
  index := .key
  call := fun _ args _ => ([], .ok args)
  overflow := "stack overflow"

/-- Two protocols for type 5. -/
def twoProtocols : List (MessageLua.Event ℕ ℕ ℕ) :=
  [.change (.assign 1 { type := .key 5, pack := .function 20, dispatch := .function 11 }),
    .change (.register 1),
    .change (.assign 2 { type := .key 5, pack := .function 20, dispatch := .function 12 }),
    .change (.register 2)]

/-- A message of that type goes to the handler of the second. A send of it to 5 with
the value 1 looks up the types 5, 5 and 1, and ends at the last, whose protocol has no
`pack`. -/
theorem message_dispatch_again :
    ∃ s, run (MessageLua.step numbers) (MessageLua.init 1 10) twoProtocols = some s ∧
      (s.default_dispatch 7 (.key 5)).1.calls = [(12, [7])] ∧
      (s.lookups numbers 9 (.key 5) 5 [1]).map Prod.snd = [.key 5, .key 5, .key 1] ∧
      (s.send numbers 9 (.key 5) 5 [1]).2 ≠ some (.indexNil "local 'p'") := by
  obtain ⟨s, hs⟩ : ∃ s,
      run (MessageLua.step numbers) (MessageLua.init 1 10) twoProtocols = some s := ⟨_, rfl⟩
  obtain ⟨hcalls, -, hsend⟩ := message_dispatch hs 7 5 (.key 5) [1] 9
  refine ⟨s, hs, ?_, ?_, (hsend.mpr ?_).2⟩
  · rw [hcalls]
    cases hs
    rfl
  · cases hs
    rfl
  · cases hs
    decide

/-- A protocol for type 10 that has a `pack` function. -/
def packedProtocol : List (MessageLua.Event ℕ ℕ ℕ) :=
  [.change (.assign 1 { type := .key 10, pack := .function 20 }), .change (.register 1)]

/-- Nothing has been registered for type 2: a message of that type, and a send,
raise an error. A send of type 10, which has been registered, to 3, which has
not, raises the same one. -/
theorem unknownType_raises :
    (∃ s, run (MessageLua.step numbers) (MessageLua.init 1 10) [] = some s ∧
      latest s.registrations (.key 2) = none ∧
      (s.default_dispatch 7 (.key 2)).2 = some (.indexNil "local 'p'") ∧
      ¬ s.Reported (s.default_dispatch 7 (.key 2)) ∧
      ¬ s.Reported (s.send numbers 100 (.key 2) 3 [])) ∧
    ∃ s, run (MessageLua.step numbers) (MessageLua.init 1 10) packedProtocol = some s ∧
      latest s.registrations (.key 3) = none ∧
      ((s.send numbers 100 (.key 10) 3 [97, 98]).2.map LuaError.message) =
        some "attempt to index a nil value (local 'p')" := by
  refine ⟨⟨_, rfl, rfl, rfl, ?_, ?_⟩, _, rfl, rfl, rfl⟩
  · exact not_reported rfl
  · exact not_reported rfl

end LuaRobot
