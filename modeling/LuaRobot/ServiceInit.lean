import LuaRobot.LuaCall
import LuaRobot.LuaUtility

/-!
# Loading the script of a service

`LuaService::init`, `loadLuaFile` (`src_cpp/service.cpp`) and the message handler
`traceback` (`src_cpp/lua_utility.h`), for any compiler, any files and any
behaviour of the chunks; only the collector is not theirs to switch. What is
printed is left out, but to print a null pointer is undefined. A look-up of the
script that throws (`LuaRobot.PathSearch`) is left out too.

Results:
1. `traceback_spec`: the handler turns every error value into one result.
2. `loadLuaFile_spec`: how the protected function ends.
3. `service_init`: `init` tells the services that load from the others, and
   cleans up only after these.
-/

namespace LuaRobot

open ByteStrings LuaStack LuaStack.StackLemmas

/-! ## Definitions -/

/-- What `init` meets: the options in memory, the existing files, the compiler,
what a compiled chunk does, and the lines of a stack traceback. -/
structure InitEnv where
  F : NumberFormat
  option : ℕ → ServiceOption
  luaDirs : List Bytes
  files : Bytes → Bool
  loadstring : Bytes → Except Bytes ℕ
  loadfile : Bytes → Except Bytes ℕ
  /-- no file has the empty name -/
  loadfile_nil : ∃ msg, loadfile [] = .error msg
  run : ℕ → List Value → Heap → Outcome × Heap
  /-- `luaL_openlibs` and `registerLibs` -/
  openlibs : Heap → Heap
  levels : Bytes

variable (env : InitEnv)

def InitEnv.lua_tostring (idx : Int) : Api (Option LuaStack.Bytes) := lua_tolstring env.F idx

/-- `std::cout << s`. -/
def print (s : Option LuaStack.Bytes) : Api Unit := fun L =>
  match s with
  | some _ => .ok () L
  | none => .error .undefined L

def InitEnv.luaL_openlibs : Api Unit := fun L => .ok () { L with toHeap := env.openlibs L.toHeap }

/-- The compiled chunk, or the message. -/
def pushLoaded (status : Int) : Except Bytes ℕ → Api Int
  | .ok f => do
    push (.function f)
    return LUA_OK
  | .error msg => do
    push (.string msg)
    return status

/-- A Lua function; it leaves the switches of the collector alone. -/
def InitEnv.callLua : Value → Callee
  | .function f, args, g =>
    (some (env.run f args g.toHeap).1, { g with toHeap := (env.run f args g.toHeap).2 })
  | v, _, g =>
    (some (.raises (.string
      (ascii "attempt to call a " ++ lua_typename (typeOf (some v)) ++ ascii " value"))), g)

/-- `luaL_loadstring(L, s) || lua_pcall(L, 0, LUA_MULTRET, 0)`. -/
def InitEnv.luaL_dostring (s : CString) : Api Int := do
  if (← pushLoaded LUA_ERRSYNTAX (env.loadstring s.1)) ≠ LUA_OK then return 1
  if (← lua_pcall env.callLua 0 none 0) ≠ LUA_OK then return 1
  return 0

def InitEnv.luaL_loadfile (filename : CString) : Api Int :=
  pushLoaded LUA_ERRFILE (env.loadfile filename.1)

def InitEnv.luaL_traceback (msg : CString) : Api Unit :=
  push (.string (msg.1 ++ ascii "\nstack traceback:" ++ env.levels))

/-- `traceback(L)`. -/
def InitEnv.traceback : Api ℕ := do
  match ← env.lua_tostring (-1) with
  | some msg =>
    env.luaL_traceback (cString msg)
    print (← env.lua_tostring (-1))
  | none => lua_pushlstring (ascii "no error")
  return 1

/-- The two error branches of `loadLuaFile`. -/
def InitEnv.reportTop : Api ℕ := do
  print (← env.lua_tostring (-1))
  return 1

/-- `loadLuaFile(L)` from the look-up of the file on. -/
def InitEnv.runLuaFile (luaFile : LuaStack.Bytes) : Api ℕ := do
  let realPath := getFileRealPath env.files luaFile env.luaDirs
  if (← env.luaL_loadfile (cString realPath)) ≠ LUA_OK then env.reportTop
  else do
    lua_call env.callLua 0 (some 0)
    return 0

/-- `loadLuaFile(L)`. -/
def InitEnv.loadLuaFile : Api ℕ := do
  match ← lua_touserdata 1 with
  | none => fun L => .error .undefined L
  | some p =>
    env.luaL_openlibs
    if (← env.luaL_dostring (cString (env.option p).envPath)) ≠ LUA_OK then env.reportTop
    else env.runLuaFile (env.option p).luaFile

def InitEnv.call (f : Value) : Callee :=
  if f = .cfunction "traceback" then runC env.traceback
  else if f = .cfunction "loadLuaFile" then runC env.loadLuaFile
  else env.callLua f

/-- `LuaService::init` from its protected call on. -/
def InitEnv.finishInit : Api Bool := do
  if (← lua_pcall env.call 1 none 1) ≠ LUA_OK then return false
  if (← lua_gettop) > 1 then return false
  lua_pop 1
  lua_gcrestart
  -- the assertion
  if (← lua_gettop) ≠ 0 then fun L => .error .undefined L
  return true

/-- `LuaService::init(option)`, the option being at `p`. -/
def InitEnv.init (p : ℕ) : Api Bool := do
  lua_gcstop
  lua_gcgen
  lua_pushcfunction "traceback"
  lua_pushcfunction "loadLuaFile"
  lua_pushlightuserdata p
  env.finishInit

/-- The chunk was compiled and runs to its end. -/
def InitEnv.RunsChunk (loaded : Except LuaStack.Bytes ℕ) (h h' : Heap) : Prop :=
  ∃ chunk rs, loaded = .ok chunk ∧ env.run chunk [] h = (.returns rs, h')

/-- The chunk was compiled and raises a value that `lua_tostring` has no string for. -/
def InitEnv.RaisesNull (loaded : Except LuaStack.Bytes ℕ) (h : Heap) : Prop :=
  ∃ chunk v h', loaded = .ok chunk ∧ env.run chunk [] h = (.raises v, h') ∧
    env.F.tolstring v = none

/-- The script is in a directory, loads, and runs. -/
def InitEnv.RunsFile (luaFile : LuaStack.Bytes) (h h' : Heap) : Prop :=
  getFileRealPath env.files luaFile env.luaDirs ≠ [] ∧
  env.RunsChunk (env.loadfile (cString (getFileRealPath env.files luaFile env.luaDirs)).1) h h'

/-- The chunk of `envPath` runs, and then the script. -/
def InitEnv.Loads (p : ℕ) (h : Heap) : Prop :=
  ∃ h₁ h₂, env.RunsChunk (env.loadstring (cString (env.option p).envPath).1) (env.openlibs h) h₁ ∧
    env.RunsFile (env.option p).luaFile h₁ h₂

/-- What `init` is for: it returns, says whether the service has loaded, and
leaves an empty stack and a running collector. -/
def InitEnv.Reports (p : ℕ) (L : LuaState) : Prop :=
  ∃ b L', env.init p L = .ok b L' ∧ (b = true ↔ env.Loads p L.toHeap) ∧ L'.stack = [] ∧
    L'.gcRunning = true

/-! ## 1. The message handler -/

variable {env}

/-- The handler ends with one string on top, whatever the error value is. -/
theorem traceback_spec (env : InitEnv) (v : Value) (g : Global) :
    ∃ s, runC env.traceback [v] g = (some (.returns [.string s]), g) := by
  have htop := lua_tolstring_top env.F { toGlobal := g } v []
  cases hv : env.F.tolstring v with
  | none =>
    rw [hv] at htop
    have hrun : env.traceback { toGlobal := g, stack := [v] } =
        .ok 1 { toGlobal := g, stack := [.string (ascii "no error"), v] } := by
      rw [InitEnv.traceback, InitEnv.lua_tostring, bind_ok htop]
      rfl
    refine ⟨ascii "no error", ?_⟩
    rw [runC, List.reverse_singleton, hrun]
    rfl
  | some msg =>
    rw [hv] at htop
    let trace : LuaStack.Bytes := (cString msg).1 ++ ascii "\nstack traceback:" ++ env.levels
    have hprint := lua_tolstring_top env.F { toGlobal := g } (.string trace) [.string msg]
    have hrun : env.traceback { toGlobal := g, stack := [v] } =
        .ok 1 { toGlobal := g, stack := [.string trace, .string msg] } := by
      have hpush : env.luaL_traceback (cString msg) { toGlobal := g, stack := [.string msg] } =
          .ok () { toGlobal := g, stack := [.string trace, .string msg] } := rfl
      rw [InitEnv.traceback, InitEnv.lua_tostring, bind_ok htop]
      refine (bind_ok hpush).trans ?_
      rw [bind_ok hprint]
      rfl
    refine ⟨trace, ?_⟩
    rw [runC, List.reverse_singleton, hrun]
    rfl

/-! ## 2. The protected function -/

namespace ServiceInitLemmas

theorem reportTop_eq (env : InitEnv) (L : LuaState) (v : Value) (rest : List Value) :
    (∃ s, env.F.tolstring v = some s ∧ env.reportTop { L with stack := v :: rest } =
      .ok 1 { L with stack := .string s :: rest }) ∨
    (env.F.tolstring v = none ∧ env.reportTop { L with stack := v :: rest } =
      .error .undefined { L with stack := v :: rest }) := by
  have htop := lua_tolstring_top env.F L v rest
  cases hv : env.F.tolstring v with
  | none =>
    rw [hv] at htop
    refine Or.inr ⟨rfl, ?_⟩
    rw [InitEnv.reportTop, InitEnv.lua_tostring, bind_ok htop]
    rfl
  | some s =>
    rw [hv] at htop
    refine Or.inl ⟨s, rfl, ?_⟩
    rw [InitEnv.reportTop, InitEnv.lua_tostring, bind_ok htop]
    rfl

theorem not_runsChunk_error (msg : LuaStack.Bytes) (h h' : Heap) :
    ¬ env.RunsChunk (.error msg) h h' := by
  rintro ⟨_, _, ⟨⟩, _⟩

theorem not_runsChunk_ok {chunk : ℕ} {h h₁ : Heap} {o : Outcome}
    (hrun : env.run chunk [] h = (o, h₁)) (ho : ∀ rs, o ≠ .returns rs) (h' : Heap) :
    ¬ env.RunsChunk (.ok chunk) h h' := by
  rintro ⟨_, rs, ⟨⟩, hok⟩
  rw [hrun] at hok
  exact ho rs (congrArg Prod.fst hok)

theorem runsChunk_unique {loaded : Except LuaStack.Bytes ℕ} {h h₁ h₂ : Heap}
    (h₁runs : env.RunsChunk loaded h h₁) (h₂runs : env.RunsChunk loaded h h₂) : h₁ = h₂ := by
  obtain ⟨_, _, rfl, hrun⟩ := h₁runs
  obtain ⟨_, _, ⟨⟩, hrun'⟩ := h₂runs
  rw [hrun] at hrun'
  exact congrArg Prod.snd hrun'

theorem callLua_eq {chunk : ℕ} {g : Global} {o : Outcome} {h : Heap}
    (hrun : env.run chunk [] g.toHeap = (o, h)) :
    env.callLua (.function chunk) [] g = (some o, { g with toHeap := h }) := by
  rw [InitEnv.callLua, hrun]

theorem raisesNull_iff {chunk : ℕ} {h h' : Heap} {v : Value}
    (hrun : env.run chunk [] h = (.raises v, h')) :
    env.RaisesNull (.ok chunk) h ↔ env.F.tolstring v = none := by
  constructor
  · rintro ⟨_, w, h'', ⟨⟩, hrun', hw⟩
    rw [hrun] at hrun'
    cases hrun'
    exact hw
  · exact fun hv => ⟨chunk, v, h', rfl, hrun, hv⟩

theorem not_raisesNull {chunk : ℕ} {h h' : Heap} {o : Outcome}
    (hrun : env.run chunk [] h = (o, h')) (ho : ∀ v, o ≠ .raises v) :
    ¬ env.RaisesNull (.ok chunk) h := by
  rintro ⟨_, v, _, ⟨⟩, hrun', _⟩
  rw [hrun] at hrun'
  exact ho v (congrArg Prod.fst hrun')

theorem dostring_spec (s : CString) (L : LuaState) :
    (∃ rs h, env.RunsChunk (env.loadstring s.1) L.toHeap h ∧
      ¬ env.RaisesNull (env.loadstring s.1) L.toHeap ∧
      env.luaL_dostring s L = .ok 0 { L with toHeap := h, stack := rs ++ L.stack }) ∨
    ∃ v h, (∀ h, ¬ env.RunsChunk (env.loadstring s.1) L.toHeap h) ∧
      (env.F.tolstring v = none ↔ env.RaisesNull (env.loadstring s.1) L.toHeap) ∧
      env.luaL_dostring s L = .ok 1 { L with toHeap := h, stack := v :: L.stack } := by
  rw [InitEnv.luaL_dostring]
  cases env.loadstring s.1 with
  | error msg =>
    have hpush : pushLoaded LUA_ERRSYNTAX (.error msg) L =
        .ok LUA_ERRSYNTAX { L with stack := .string msg :: L.stack } := rfl
    refine Or.inr ⟨.string msg, L.toHeap, not_runsChunk_error msg _, ?_, (bind_ok hpush).trans rfl⟩
    refine iff_of_false (Option.some_ne_none _) ?_
    rintro ⟨_, _, _, ⟨⟩, _⟩
  | ok chunk =>
    have hpush : pushLoaded LUA_ERRSYNTAX (.ok chunk) L =
        .ok LUA_OK { L with stack := .function chunk :: L.stack } := rfl
    have hcall := lua_pcall_eq env.callLua none 0 L.toGlobal (.function chunk) [] L.stack
    rcases hrun : env.run chunk [] L.toHeap with ⟨o, h⟩
    rw [callLua_eq hrun] at hcall
    rw [bind_ok hpush]
    cases o with
    | returns rs =>
      exact Or.inl ⟨rs.reverse, h, ⟨chunk, rs, rfl, hrun⟩,
        not_raisesNull hrun fun _ => Outcome.noConfusion, (bind_ok hcall).trans rfl⟩
    | raises v =>
      exact Or.inr ⟨v, h, not_runsChunk_ok hrun (fun _ => Outcome.noConfusion),
        (raisesNull_iff hrun).symm, (bind_ok hcall).trans rfl⟩
    | yields =>
      exact Or.inr ⟨yieldError, h, not_runsChunk_ok hrun (fun _ => Outcome.noConfusion),
        iff_of_false (Option.some_ne_none _) (not_raisesNull hrun fun _ => Outcome.noConfusion),
        (bind_ok hcall).trans rfl⟩

/-- The call of the script, with what the first chunk has left below it. -/
theorem call_spec (script : ℕ) (L : LuaState) :
    (∃ h, env.RunsChunk (.ok script) L.toHeap h ∧
      lua_call env.callLua 0 (some 0) { L with stack := .function script :: L.stack } =
        .ok () { L with toHeap := h }) ∨
    ((∀ h, ¬ env.RunsChunk (.ok script) L.toHeap h) ∧
      ∃ v h, lua_call env.callLua 0 (some 0) { L with stack := .function script :: L.stack } =
        .error (.raised v) { L with toHeap := h, stack := .function script :: L.stack }) := by
  have hcall := lua_call_eq env.callLua (some 0) L.toGlobal (.function script) [] L.stack
  rcases hrun : env.run script [] L.toHeap with ⟨o, h⟩
  rw [callLua_eq hrun] at hcall
  cases o with
  | returns rs =>
    dsimp only at hcall
    rw [adjust_zero] at hcall
    exact Or.inl ⟨h, ⟨script, rs, rfl, hrun⟩, hcall⟩
  | raises v =>
    exact Or.inr ⟨not_runsChunk_ok hrun (fun _ => Outcome.noConfusion), v, h, hcall⟩
  | yields =>
    exact Or.inr ⟨not_runsChunk_ok hrun (fun _ => Outcome.noConfusion), yieldError, h, hcall⟩

/-- Nothing is loaded under the empty name. -/
theorem found_of_loadfile {luaFile : LuaStack.Bytes} {script : ℕ}
    (h : env.loadfile (cString (getFileRealPath env.files luaFile env.luaDirs)).1 = .ok script) :
    getFileRealPath env.files luaFile env.luaDirs ≠ [] := by
  intro hnil
  rw [hnil] at h
  obtain ⟨msg, hmsg⟩ := env.loadfile_nil
  have hempty : (cString []).1 = [] := rfl
  rw [hempty, hmsg] at h
  cases h

/-- How the protected function ends when the service has not loaded: with one
result, with an error, or in the printing of a null pointer. -/
def Fails : Option Outcome → Prop
  | none => True
  | some (.returns rs) => ∃ v, rs = [v]
  | some (.raises _) => True
  | some .yields => False

theorem fails_reportTop (env : InitEnv) (L : LuaState) (v : Value) (rest : List Value) :
    ∃ o, Fails o ∧ (o = none ↔ env.F.tolstring v = none) ∧
      ended (env.reportTop { L with stack := v :: rest }) = (o, L.toGlobal) := by
  rcases reportTop_eq env L v rest with ⟨s, hs, heq⟩ | ⟨hnone, heq⟩
  · rw [heq, hs]
    exact ⟨some (.returns [.string s]), ⟨.string s, rfl⟩, by simp, rfl⟩
  · rw [heq, hnone]
    exact ⟨none, trivial, iff_of_true rfl rfl, rfl⟩

theorem runLuaFile_spec (env : InitEnv) (luaFile : LuaStack.Bytes) (L : LuaState) :
    ∃ o h, ended (env.runLuaFile luaFile L) = (o, { L.toGlobal with toHeap := h }) ∧
      o ≠ none ∧ ((∃ h', env.RunsFile luaFile L.toHeap h' ∧ o = some (.returns [])) ∨
        ((∀ h', ¬ env.RunsFile luaFile L.toHeap h') ∧ Fails o)) := by
  rw [InitEnv.runLuaFile, InitEnv.luaL_loadfile]
  unfold InitEnv.RunsFile
  cases hload : env.loadfile (cString (getFileRealPath env.files luaFile env.luaDirs)).1 with
  | error msg =>
    have hpush : pushLoaded LUA_ERRFILE (.error msg) L =
        .ok LUA_ERRFILE { L with stack := .string msg :: L.stack } := rfl
    obtain ⟨o, ho, hnone, hend⟩ := fails_reportTop env L (.string msg) L.stack
    refine ⟨o, L.toHeap, ?_, fun h => Option.some_ne_none _ (hnone.mp h),
      Or.inr ⟨fun h' hf => not_runsChunk_error msg _ h' hf.2, ho⟩⟩
    rw [bind_ok hpush]
    exact hend
  | ok script =>
    have hpush : pushLoaded LUA_ERRFILE (.ok script) L =
        .ok LUA_OK { L with stack := .function script :: L.stack } := rfl
    rw [bind_ok hpush]
    rcases call_spec script L with ⟨h, hruns, hcall⟩ | ⟨hno, v, h, hcall⟩
    · refine ⟨some (.returns []), h, ?_, Option.some_ne_none _,
        Or.inl ⟨h, ⟨found_of_loadfile hload, hruns⟩, rfl⟩⟩
      exact congrArg ended (bind_ok hcall)
    · refine ⟨some (.raises v), h, ?_, Option.some_ne_none _,
        Or.inr ⟨fun h' hf => hno h' hf.2, trivial⟩⟩
      exact congrArg ended (bind_error hcall)

end ServiceInitLemmas

open ServiceInitLemmas

/-- When the service loads the protected function has no result; otherwise it
ends with one result, with an error, or with a null pointer to print. -/
theorem loadLuaFile_spec (env : InitEnv) (p : ℕ) (g : Global) :
    ∃ o h, runC env.loadLuaFile [.lightuserdata p] g = (o, { g with toHeap := h }) ∧
      (o = none ↔ env.RaisesNull (env.loadstring (cString (env.option p).envPath).1)
        (env.openlibs g.toHeap)) ∧
      ((env.Loads p g.toHeap ∧ o = some (.returns [])) ∨ (¬ env.Loads p g.toHeap ∧ Fails o)) := by
  let frame : LuaState := { toGlobal := g, stack := [.lightuserdata p] }
  let opened : LuaState := { frame with toHeap := env.openlibs g.toHeap }
  have htouch : lua_touserdata 1 frame = .ok (some p) frame := rfl
  have hopen : env.luaL_openlibs frame = .ok () opened := rfl
  rw [runC, List.reverse_singleton, InitEnv.loadLuaFile, bind_ok htouch]
  dsimp only
  rw [bind_ok hopen]
  rcases dostring_spec (cString (env.option p).envPath) opened with
    ⟨rs, h₁, hchunk, hnull, hdo⟩ | ⟨v, h₁, hchunk, hnull, hdo⟩
  · rw [bind_ok hdo]
    obtain ⟨o, h, hend, hsome, hcases⟩ := runLuaFile_spec env (env.option p).luaFile
      { opened with toHeap := h₁, stack := rs ++ opened.stack }
    refine ⟨o, h, hend, iff_of_false hsome hnull, ?_⟩
    rcases hcases with ⟨h₂, hfile, ho⟩ | ⟨hno, ho⟩
    · exact Or.inl ⟨⟨h₁, h₂, hchunk, hfile⟩, ho⟩
    · refine Or.inr ⟨?_, ho⟩
      rintro ⟨h₁', h₂, hchunk', hfile⟩
      rw [runsChunk_unique hchunk' hchunk] at hfile
      exact hno h₂ hfile
  · have hfail : ¬ env.Loads p g.toHeap := fun ⟨h, _, hruns, _⟩ => hchunk h hruns
    obtain ⟨o, ho, hnone, hend⟩ :=
      fails_reportTop env { opened with toHeap := h₁ } v opened.stack
    refine ⟨o, h₁, ?_, hnone.trans hnull, Or.inr ⟨hfail, ho⟩⟩
    rw [bind_ok hdo]
    exact hend

/-! ## 3. The service -/

namespace ServiceInitLemmas

/-- The state of `init` at its protected call. -/
def ready (p : ℕ) (L : LuaState) : LuaState :=
  { L with
    gcRunning := false
    gcGenerational := true
    stack := [.lightuserdata p, .cfunction "loadLuaFile", .cfunction "traceback"] }

theorem pcall_spec (env : InitEnv) (p : ℕ) (L : LuaState) :
    ∃ (o : Option Outcome) (h : Heap),
      (o = none ↔ env.RaisesNull (env.loadstring (cString (env.option p).envPath).1)
        (env.openlibs L.toHeap)) ∧
      ((env.Loads p L.toHeap ∧ o = some (.returns []) ∧ lua_pcall env.call 1 none 1 (ready p L) =
        .ok LUA_OK { ready p L with toHeap := h, stack := [.cfunction "traceback"] }) ∨
      (¬ env.Loads p L.toHeap ∧ o ≠ none ∧ ∃ status v, lua_pcall env.call 1 none 1 (ready p L) =
        .ok status { ready p L with toHeap := h, stack := [v, .cfunction "traceback"] }) ∨
      (¬ env.Loads p L.toHeap ∧ o = none ∧ ∃ L', lua_pcall env.call 1 none 1 (ready p L) =
        .error .undefined L')) := by
  have hload : env.call (.cfunction "loadLuaFile") = runC env.loadLuaFile := by
    rw [InitEnv.call, if_neg (by decide), if_pos rfl]
  have htrace : env.call (.cfunction "traceback") = runC env.traceback := by
    rw [InitEnv.call, if_pos rfl]
  have hpcall := lua_pcall_eq env.call none 1 (ready p L).toGlobal (.cfunction "loadLuaFile")
    [.lightuserdata p] [.cfunction "traceback"]
  obtain ⟨o, h, hrun, hnull, hcases⟩ := loadLuaFile_spec env p (ready p L).toGlobal
  rw [hload, hrun] at hpcall
  refine ⟨o, h, hnull, ?_⟩
  rcases hcases with ⟨hloads, rfl⟩ | ⟨hno, hfails⟩
  · exact Or.inl ⟨hloads, rfl, hpcall⟩
  · cases o with
    | none => exact Or.inr (Or.inr ⟨hno, rfl, _, hpcall⟩)
    | some o =>
      refine Or.inr (Or.inl ⟨hno, Option.some_ne_none _, ?_⟩)
      cases o with
      | returns rs =>
        obtain ⟨v, rfl⟩ := hfails
        exact ⟨LUA_OK, v, hpcall⟩
      | raises v =>
        -- the handler is called with the error
        obtain ⟨s, hs⟩ := traceback_spec env v { (ready p L).toGlobal with toHeap := h }
        have hcaught : caught env.call (some (.cfunction "traceback")) v [.cfunction "traceback"]
            { ready p L with toHeap := h } =
            .ok LUA_ERRRUN { ready p L with
              toHeap := h
              stack := [.string s, .cfunction "traceback"] } := by
          simp only [caught, htrace, hs]
          rfl
        exact ⟨LUA_ERRRUN, .string s, hpcall.trans hcaught⟩
      | yields => exact hfails.elim

end ServiceInitLemmas

/-- The first chunk raises a value that cannot be printed. -/
def InitEnv.PrintsNull (env : InitEnv) (p : ℕ) (h : Heap) : Prop :=
  env.RaisesNull (env.loadstring (cString (env.option p).envPath).1) (env.openlibs h)

/-- `init` cleans up and returns true when the service loads. Otherwise, if there
is no null pointer to print, it returns false with a value and the handler left
on the stack and the collector stopped. -/
theorem init_spec (env : InitEnv) (p : ℕ) {L : LuaState} (hL : L.stack = []) :
    (env.Loads p L.toHeap ∧ ¬ env.PrintsNull p L.toHeap ∧ ∃ L', env.init p L = .ok true L' ∧
      L'.stack = [] ∧ L'.gcRunning = true) ∨
    (¬ env.Loads p L.toHeap ∧ ¬ env.PrintsNull p L.toHeap ∧ ∃ v L', env.init p L = .ok false L' ∧
      L'.stack = [v, .cfunction "traceback"] ∧ L'.gcRunning = false) ∨
    (¬ env.Loads p L.toHeap ∧ env.PrintsNull p L.toHeap ∧
      ∃ L', env.init p L = .error .undefined L') := by
  have hinit : env.init p L = env.finishInit (ready p L) := by
    rw [ready, ← hL]
    rfl
  obtain ⟨o, h, hnull, hcases⟩ := pcall_spec env p L
  rw [hinit, InitEnv.finishInit]
  rcases hcases with ⟨hloads, ho, hpcall⟩ | ⟨hno, ho, status, v, hpcall⟩ | ⟨hno, ho, L', hpcall⟩
  · rw [ho] at hnull
    rw [bind_ok hpcall]
    exact Or.inl ⟨hloads, fun hn => Option.some_ne_none _ (hnull.mpr hn), _, rfl, rfl, rfl⟩
  · rw [bind_ok hpcall]
    refine Or.inr (Or.inl ⟨hno, ho ∘ hnull.mpr, v,
      { ready p L with toHeap := h, stack := [v, .cfunction "traceback"] }, ?_, rfl, rfl⟩)
    by_cases hstatus : status = LUA_OK
    · rw [if_neg (not_not.mpr hstatus)]
      rfl
    · rw [if_pos hstatus]
      rfl
  · exact Or.inr (Or.inr ⟨hno, hnull.mp ho, L', bind_error hpcall⟩)

/-- On a fresh state `init` tells the services that load from the others whenever
it returns, and it returns unless the first chunk raises a value without a
string. It leaves the stack empty and the collector running exactly when the
service loads. -/
theorem service_init (env : InitEnv) (p : ℕ) (L : LuaState) (hL : L.stack = []) :
    (∀ b L', env.init p L = .ok b L' → (b = true ↔ env.Loads p L.toHeap)) ∧
    ((∃ b L', env.init p L = .ok b L') ↔ ¬ env.PrintsNull p L.toHeap) ∧
    (env.Reports p L ↔ env.Loads p L.toHeap) := by
  rcases init_spec env p hL with
    ⟨hloads, hnull, L₁, hinit, hstack, hgc⟩ | ⟨hno, hnull, v, L₁, hinit, hstack, hgc⟩ |
    ⟨hno, hnull, L₁, hinit⟩
  · refine ⟨fun b L' h => ?_, iff_of_true ⟨true, L₁, hinit⟩ hnull, iff_of_true ?_ hloads⟩
    · rw [hinit] at h
      cases h
      exact iff_of_true rfl hloads
    · exact ⟨true, L₁, hinit, iff_of_true rfl hloads, hstack, hgc⟩
  · refine ⟨fun b L' h => ?_, iff_of_true ⟨false, L₁, hinit⟩ hnull, iff_of_false ?_ hno⟩
    · rw [hinit] at h
      cases h
      exact iff_of_false Bool.false_ne_true hno
    · rintro ⟨b, L', h, _, hempty, _⟩
      rw [hinit] at h
      cases h
      rw [hstack] at hempty
      cases hempty
  · refine ⟨fun b L' h => ?_, iff_of_false ?_ (not_not.mpr hnull), iff_of_false ?_ hno⟩
    · rw [hinit] at h
      cases h
    · rintro ⟨b, L', h⟩
      rw [hinit] at h
      cases h
    · rintro ⟨b, L', h, _⟩
      rw [hinit] at h
      cases h

/-- Chunks that do nothing; the script exists or not. -/
def emptyScripts (found : Bool) : InitEnv where
  F := integersOnly
  option _ := { luaFile := ascii "server.lua" }
  luaDirs := [ascii "lua_scripts"]
  files _ := found
  loadstring _ := .ok 0
  loadfile filename := if filename = [] then .error (ascii "cannot open ") else .ok 1
  loadfile_nil := ⟨_, if_pos rfl⟩
  run _ _ h := (.returns [], h)
  openlibs := id
  levels := []

theorem service_init_empty : (emptyScripts true).Reports 0 {} :=
  (service_init (emptyScripts true) 0 {} rfl).2.2.mpr
    ⟨_, _, ⟨0, [], rfl, rfl⟩, by decide, 1, [], rfl, rfl⟩

/-- With no such script `init` returns false, two slots are left on the stack and
the collector is stopped. -/
theorem missingScript_leaves :
    ∃ L', (emptyScripts false).init 0 {} = .ok false L' ∧ L'.stack.length = 2 ∧
      L'.gcRunning = false ∧ ¬ (emptyScripts false).Reports 0 {} := by
  refine ⟨_, rfl, rfl, rfl, ?_⟩
  rintro ⟨b, L', h, _, hstack, _⟩
  cases h
  cases hstack

end LuaRobot
