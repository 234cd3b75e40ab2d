import LuaRobot.LuaStack
import LuaRobot.Runs
import LuaRobot.TracedHeap
import Mathlib.Data.List.AList

/-!
# Registering the callback

`setCallback` (`lua_cpp/lua_register_libs.cpp`), one API function after the other
on the heap of the Lua state. Each allocation may fail and may run a collection
first. Between the calls the script moves values between the objects it can
reach, from the main thread or a coroutine. The registry it reaches only through
the debug library, where it leaves the entry of the callback alone; the libraries
have other entries of it.

Results:
1. `ServiceState.setCallback`, `ServiceState.step`: the function, and all that
   happens to the state.
-/

namespace LuaRobot

open ByteStrings LuaStack TracedHeap

/-! ## Definitions -/

inductive Kind where
  | closure
  | table
  | thread
  | userdata
deriving DecidableEq

/-- `refs` are the upvalues, the keys and values, the stack (its top first) or
the user value. The collector does not look at `raw`: the extra space of a
thread, the block of a userdata. -/
structure Object where
  kind : Kind
  refs : List Value := []
  raw : ℕ := 0
deriving DecidableEq

/-- The address of a collectable object; strings are not followed. -/
def address : Value → Option ℕ
  | .table a | .function a | .userdata a | .thread a => some a
  | _ => none

def Kind.value : Kind → ℕ → Value
  | .closure => .function
  | .table => .table
  | .thread => .thread
  | .userdata => .userdata

def Object.addresses (o : Object) : List ℕ := o.refs.filterMap address

def CALLBACK_CONTEXT : Value := .string (ascii "callback_context")

/-- A `LuaService` at the address `this` with its Lua state. `L` is the running
thread, resumed by the first of `resumers`; `frame` is that of the C function
under way, its top first. A `CallbackContext` is the userdata of its address, and
its `callbackL` the block of that. -/
structure ServiceState where
  this : ℕ
  heap : Heap Object
  registry : AList fun _ : Value => Value
  mainthread : ℕ
  L : ℕ
  resumers : List ℕ := []
  frame : List Value := []
  callback : Option ℕ := none

/-- One allocation: a collection may run first, and it may fail. -/
structure Allocation where
  gc : Collection := {}
  ok : Bool := true

inductive ApiError where
  | typeerror (arg : Int) (tname : LuaStack.Bytes)
  | memory
  | undefined
  /-- the allocator does not hand out an address in use -/
  | stuck
deriving DecidableEq

abbrev HeapApi := EStateM ApiError ServiceState

namespace ServiceState

/-- `LuaService::LuaService()`: a new Lua state with its main thread and globals. -/
def init (this : ℕ) : ServiceState where
  this := this
  heap
    | 0 => some { kind := .thread, raw := this }
    | 1 => some { kind := .table }
    | _ => none
  registry := AList.insert (.integer 2) (.table 1) (AList.insert (.integer 1) (.thread 0) ∅)
  mainthread := 0
  L := 0

def roots (s : ServiceState) : List ℕ :=
  s.mainthread :: s.L :: s.resumers ++
    (s.registry.entries.map Sigma.snd ++ s.frame).filterMap address

def collect (s : ServiceState) (c : Collection) : ServiceState :=
  { s with heap := TracedHeap.collect Object.addresses c s.roots s.heap }

def modify (s : ServiceState) (a : ℕ) (f : Object → Object) : ServiceState :=
  { s with heap := Function.update s.heap a ((s.heap a).map f) }

def place (s : ServiceState) (a : ℕ) (o : Object) : ServiceState :=
  { s with heap := Function.update s.heap a (some o) }

/-- The object at `a`, if it is of that kind. -/
def object (s : ServiceState) (kind : Kind) (a : ℕ) : Option Object :=
  (s.heap a).filter fun o => o.kind = kind

/-! ### The API -/

def raise {α : Type} (e : ApiError) : HeapApi α := fun s => .error e s

def alloc (c : Allocation) : HeapApi Unit := fun s =>
  if c.ok then .ok () (s.collect c.gc) else .error .memory (s.collect c.gc)

def checkGC (c : Collection) : HeapApi Unit := fun s => .ok () (s.collect c)

/-- A new object at `a`, pushed. -/
def create (a : ℕ) (o : Object) : HeapApi Unit := fun s =>
  if (s.heap a).isSome then .error .stuck s
  else .ok () { s.place a o with frame := o.kind.value a :: s.frame }

/-- The extra space of `L`. -/
def getServiceFromL : HeapApi ℕ := fun s =>
  match s.object .thread s.L with
  | some o => .ok o.raw s
  | none => .error .undefined s

/-- Argument 1 is the first slot of the frame. The message of an error is an
allocation. -/
def luaL_checktype1 (t : Int) (message : Allocation) : HeapApi Unit := fun s =>
  if typeOf s.frame.getLast? = t then .ok () s
  else (do
    alloc message
    raise (.typeerror 1 (lua_typename t)) : HeapApi Unit) s

def lua_settop (n : ℕ) : HeapApi Unit := fun s =>
  .ok () { s with frame :=
    List.replicate (n - s.frame.length) .nil ++ s.frame.drop (s.frame.length - n) }

def lua_newuserdata (c : Allocation) (a : ℕ) (gc : Collection) : HeapApi ℕ := do
  alloc c
  create a { kind := .userdata, refs := [.nil] }
  checkGC gc
  return a

/-- The extra space of a new thread is that of the main thread. -/
def createThread (a : ℕ) : HeapApi Unit := fun s =>
  match s.object .thread s.mainthread with
  | some main => create a { kind := .thread, raw := main.raw } s
  | none => .error .undefined s

/-- The thread is on the stack of `L` when its own stack is allocated. -/
def lua_newthread (c : Allocation) (a : ℕ) (stack : Allocation) : HeapApi ℕ := do
  alloc c
  createThread a
  alloc stack
  return a

/-- `cb->callbackL = th` -/
def storeCallbackL (cb th : ℕ) : HeapApi Unit := fun s =>
  match s.object .userdata cb with
  | some _ => .ok () (s.modify cb fun o => { o with raw := th })
  | none => .error .undefined s

/-- `cb->callbackL` -/
def loadCallbackL (cb : ℕ) : HeapApi ℕ := fun s =>
  match s.object .userdata cb with
  | some o => .ok o.raw s
  | none => .error .undefined s

/-- `lua_setuservalue(L, -2)` -/
def lua_setuservalue : HeapApi Unit := fun s =>
  match s.frame with
  | v :: .userdata u :: rest =>
    .ok () { s.modify u fun o => { o with refs := [v] } with frame := .userdata u :: rest }
  | _ => .error .undefined s

/-- A key that the registry lacks takes an entry. -/
def allocEntry (k : Value) (entry : Allocation) : HeapApi Unit := fun s =>
  if (s.registry.lookup k).isNone then alloc entry s else .ok () s

def setRegistry (k : Value) : HeapApi Unit := fun s =>
  match s.frame with
  | v :: rest => .ok () { s with registry := s.registry.insert k v, frame := rest }
  | [] => .error .undefined s

/-- `lua_setfield(L, LUA_REGISTRYINDEX, k)` -/
def lua_setfield_registry (k : Value) (key entry : Allocation) : HeapApi Unit := do
  alloc key
  allocEntry k entry
  setRegistry k

/-- `lua_xmove(L, th, 1)` -/
def lua_xmove (th : ℕ) : HeapApi Unit := fun s =>
  match s.frame, s.object .thread th with
  | v :: rest, some _ =>
    .ok () { s.modify th fun o => { o with refs := v :: o.refs } with frame := rest }
  | _, _ => .error .undefined s

/-- `service->setCB(cb)` -/
def setCB (service cb : ℕ) : HeapApi Unit := fun s =>
  if service = s.this then .ok () { s with callback := some cb } else .error .undefined s

/-- What `setCallback` asks of the allocator, and where it gets its objects. -/
structure Allocations where
  message : Allocation := {}
  userdata : Allocation := {}
  cb : ℕ
  gc : Collection := {}
  thread : Allocation := {}
  th : ℕ
  stack : Allocation := {}
  key : Allocation := {}
  entry : Allocation := {}

/-- `setCallback(L)`. -/
def setCallback (c : Allocations) : HeapApi Unit := do
  let service ← getServiceFromL
  luaL_checktype1 LUA_TFUNCTION c.message
  lua_settop 1
  let cb ← lua_newuserdata c.userdata c.cb c.gc
  let th ← lua_newthread c.thread c.th c.stack
  storeCallbackL cb th
  lua_setuservalue
  lua_setfield_registry CALLBACK_CONTEXT c.key c.entry
  lua_xmove (← loadCallbackL cb)
  setCB service cb

/-! ### The script -/

/-- The stack of the running thread. -/
def stack (s : ServiceState) : List Value := (s.heap s.L).elim [] Object.refs

def setStack (s : ServiceState) (vs : List Value) : ServiceState :=
  s.modify s.L fun o => { o with refs := vs }

/-- `core.callback` with the `n` values on the top as its arguments. It has no
results, and after an error the frame is gone too. -/
def call (s : ServiceState) (n : ℕ) (c : Allocations) :
    EStateM.Result ApiError ServiceState Unit :=
  match setCallback c { s.setStack (s.stack.drop n) with frame := s.stack.take n } with
  | .ok _ s' => .ok () { s' with frame := [] }
  | .error e s' => .error e { s' with frame := [] }

inductive Event where
  /-- a value that is no object -/
  | push (v : Value)
  | pop (n : ℕ)
  /-- an entry of the registry -/
  | load (k : Value)
  | store (k : Value) (i : ℕ)
  /-- what the object in slot `i` refers to at `k` is pushed -/
  | get (i k : ℕ)
  /-- the object in slot `i` refers to the value of slot `j`, at `k` -/
  | set (i k j : ℕ)
  | new (kind : Kind) (c : Allocation) (a : ℕ)
  | resume (i : ℕ)
  | yield
  | collect (c : Collection)
  | callback (n : ℕ) (c : Allocations)

/-- `vs` with `v` at `k`, or at its end. -/
def write (vs : List Value) (k : ℕ) (v : Value) : List Value :=
  if k < vs.length then vs.set k v else vs ++ [v]

/-- A new object of the script, pushed; nothing if the allocation fails. -/
def new (s : ServiceState) (kind : Kind) (c : Allocation) (a : ℕ) : Option ServiceState :=
  let s := s.collect c.gc
  if !c.ok then some s
  else if (s.heap a).isSome then none
  else
    let raw := if kind = .thread then ((s.heap s.mainthread).map Object.raw).getD 0 else 0
    let s := s.place a { kind := kind, raw := raw }
    some (s.setStack (kind.value a :: s.stack))

def step (s : ServiceState) : Event → Option ServiceState
  | .push v => if (address v).isNone then some (s.setStack (v :: s.stack)) else none
  | .pop n => some (s.setStack (s.stack.drop n))
  | .load k =>
    if k = CALLBACK_CONTEXT then none
    else some (s.setStack ((s.registry.lookup k).getD .nil :: s.stack))
  | .store k i =>
    if k = CALLBACK_CONTEXT then none
    else s.stack[i]?.map fun v => { s with registry := s.registry.insert k v }
  | .get i k => do
    let a ← (← s.stack[i]?) |> address
    let v ← (← s.heap a).refs[k]?
    return s.setStack (v :: s.stack)
  | .set i k j => do
    let a ← (← s.stack[i]?) |> address
    let v ← s.stack[j]?
    return s.modify a fun o => { o with refs := write o.refs k v }
  | .new kind c a => s.new kind c a
  | .resume i => do
    let a ← (← s.stack[i]?) |> address
    let _ ← s.object .thread a
    return { s with L := a, resumers := s.L :: s.resumers }
  | .yield =>
    match s.resumers with
    | [] => none
    | L :: resumers => some { s with L := L, resumers := resumers }
  | .collect c => some (s.collect c)
  | .callback n c =>
    match s.call n c with
    | .ok _ s' => some s'
    | .error e s' => if e = .stuck then none else some s'

end ServiceState

end LuaRobot
