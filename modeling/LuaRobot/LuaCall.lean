import LuaRobot.LuaStack

/-!
# Calls through the Lua C API

A call of a function value takes its arguments from the stack of the caller and
leaves its results there; an error unwinds to the nearest protected call, which
keeps the result of its message handler. A yield outside of a coroutine is an
error. Metamethods of the called value are left out.

Results:
1. `lua_call_eq`, `lua_pcall_eq`: what a call leaves on the stack.
-/

namespace LuaStack

open ByteStrings

/-! ## Definitions -/

inductive Outcome where
  | returns (rs : List Value)
  | raises (v : Value)
  | yields

/-- What a function does with its arguments; `none` is undefined behaviour. -/
abbrev Callee := List Value → Global → Option Outcome × Global

def LUA_OK : Int := 0
def LUA_ERRRUN : Int := 2
def LUA_ERRSYNTAX : Int := 3
def LUA_ERRERR : Int := 5
def LUA_ERRFILE : Int := 6

/-- As many results as asked for; `none` is `LUA_MULTRET`. -/
def adjust : Option ℕ → List Value → List Value
  | none, rs => rs
  | some n, rs => rs.take n ++ List.replicate (n - rs.length) .nil

def yieldError : Value := .string (ascii "attempt to yield from outside a coroutine")

def lua_call (call : Value → Callee) (nargs : ℕ) (nresults : Option ℕ) : Api Unit := fun L =>
  match L.stack.drop nargs with
  | [] => .error .undefined L
  | f :: rest =>
    match call f (L.stack.take nargs).reverse L.toGlobal with
    | (some (.returns rs), g) =>
      .ok () { toGlobal := g, stack := (adjust nresults rs).reverse ++ rest }
    | (some (.raises v), g) => .error (.raised v) { toGlobal := g, stack := L.stack }
    | (some .yields, g) => .error (.raised yieldError) { toGlobal := g, stack := L.stack }
    | (none, g) => .error .undefined { toGlobal := g, stack := L.stack }

/-- The error `v` reaches the protected call, over `rest`. -/
def caught (call : Value → Callee) (msgh : Option Value) (v : Value) (rest : List Value) : Api Int :=
  fun L =>
    match msgh with
    | none => .ok LUA_ERRRUN { L with stack := v :: rest }
    | some h =>
      match call h [v] L.toGlobal with
      | (some (.returns rs), g) =>
        .ok LUA_ERRRUN { toGlobal := g, stack := rs.headD .nil :: rest }
      | (some _, g) =>
        .ok LUA_ERRERR { toGlobal := g, stack := .string (ascii "error in error handling") :: rest }
      | (none, g) => .error .undefined { toGlobal := g, stack := L.stack }

/-- `msgh` is the index of the message handler, 0 for none. -/
def lua_pcall (call : Value → Callee) (nargs : ℕ) (nresults : Option ℕ) (msgh : Int) : Api Int :=
  fun L =>
    let msgh := if msgh = 0 then none else L.index2value msgh
    match L.stack.drop nargs with
    | [] => .error .undefined L
    | f :: rest =>
      match call f (L.stack.take nargs).reverse L.toGlobal with
      | (some (.returns rs), g) =>
        .ok LUA_OK { toGlobal := g, stack := (adjust nresults rs).reverse ++ rest }
      | (some (.raises v), g) => caught call msgh v rest { toGlobal := g, stack := L.stack }
      | (some .yields, g) => caught call msgh yieldError rest { toGlobal := g, stack := L.stack }
      | (none, g) => .error .undefined { toGlobal := g, stack := L.stack }

/-- The value of the error; C calls a function by no name. -/
def Error.value : Error → Option Value
  | .argument arg extramsg => some (.string
      (ascii s!"bad argument #{arg} to '?' (" ++ extramsg ++ ascii ")"))
  | .raised v => some v
  | .undefined | .diverges => none

/-- A C function has ended; its results are on the top. -/
def ended : EStateM.Result Error LuaState ℕ → Option Outcome × Global
  | .ok n L => (some (.returns (L.stack.take n).reverse), L.toGlobal)
  | .error e L => (e.value.map .raises, L.toGlobal)

/-- A C function as a callee: its frame starts with the arguments. -/
def runC (f : Api ℕ) : Callee := fun args g => ended (f { toGlobal := g, stack := args.reverse })

def lua_pushcfunction (f : String) : Api Unit := push (.cfunction f)

def lua_pushlightuserdata (p : ℕ) : Api Unit := push (.lightuserdata p)

def lua_touserdata (idx : Int) : Api (Option ℕ) := fun L =>
  match L.index2value idx with
  | some (.userdata u) => .ok (some u) L
  | some (.lightuserdata p) => .ok (some p) L
  | _ => .ok none L

/-- `lua_gc(L, LUA_GCSTOP, 0)`, and so on. -/
def lua_gcstop : Api Unit := fun L => .ok () { L with gcRunning := false }

def lua_gcrestart : Api Unit := fun L => .ok () { L with gcRunning := true }

def lua_gcgen : Api Unit := fun L => .ok () { L with gcGenerational := true }

/-! ## 1. Calls -/

@[simp] theorem adjust_zero (rs : List Value) : adjust (some 0) rs = [] := by
  simp [adjust]

theorem lua_call_eq (call : Value → Callee) (nresults : Option ℕ) (g : Global) (f : Value)
    (args rest : List Value) :
    lua_call call args.length nresults { toGlobal := g, stack := args.reverse ++ f :: rest } =
      match call f args g with
      | (some (.returns rs), g') =>
        .ok () { toGlobal := g', stack := (adjust nresults rs).reverse ++ rest }
      | (some (.raises v), g') =>
        .error (.raised v) { toGlobal := g', stack := args.reverse ++ f :: rest }
      | (some .yields, g') =>
        .error (.raised yieldError) { toGlobal := g', stack := args.reverse ++ f :: rest }
      | (none, g') => .error .undefined { toGlobal := g', stack := args.reverse ++ f :: rest } := by
  simp only [lua_call, List.drop_left' List.length_reverse, List.take_left' List.length_reverse,
    List.reverse_reverse]

theorem lua_pcall_eq (call : Value → Callee) (nresults : Option ℕ) (msgh : Int) (g : Global)
    (f : Value) (args rest : List Value) :
    lua_pcall call args.length nresults msgh
        { toGlobal := g, stack := args.reverse ++ f :: rest } =
      let L : LuaState := { toGlobal := g, stack := args.reverse ++ f :: rest }
      let handler := if msgh = 0 then none else L.index2value msgh
      match call f args g with
      | (some (.returns rs), g') =>
        .ok LUA_OK { toGlobal := g', stack := (adjust nresults rs).reverse ++ rest }
      | (some (.raises v), g') =>
        caught call handler v rest { toGlobal := g', stack := args.reverse ++ f :: rest }
      | (some .yields, g') =>
        caught call handler yieldError rest { toGlobal := g', stack := args.reverse ++ f :: rest }
      | (none, g') => .error .undefined { toGlobal := g', stack := args.reverse ++ f :: rest } := by
  simp only [lua_pcall, List.drop_left' List.length_reverse, List.take_left' List.length_reverse,
    List.reverse_reverse]

end LuaStack
