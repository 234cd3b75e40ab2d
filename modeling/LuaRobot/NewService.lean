import LuaRobot.Boot
import LuaRobot.ServiceLua

/-!
# The services that a script asks for

`server.new_service` (`lua_scripts/service.lua`) makes a session and calls
`core.new_service`, the C function `newService` (`lua_cpp/lua_register_libs.cpp`),
which reads the option and hands it to `Server::newService`. The calls of one
script, while no other thread makes a request.

Results:
1. `newService_option`: the C function returns or raises by the option alone.
2. `new_service_calls`: what any calls come to, whichever of them raise.
-/

namespace LuaRobot

open ByteStrings LuaStack LuaStack.StackLemmas LuaUtilityLemmas PlacementLemmas WaterLevel
  BootLemmas

/-! ## Definitions -/

/-- The C function `newService`, with the server as it leaves it. -/
def newService (F : NumberFormat) (path : LuaStack.Bytes) (s : Server) : Api Server := do
  let option ← readOption F path
  return s.newService option

variable {τ : Type}

/-- A service script, and the server that it makes requests of. -/
structure Requester (τ : Type) where
  lua : ServiceLua τ
  server : Server

/-- A call of `server.new_service`: the option, and the tables that there are then. -/
structure OptionCall where
  tables : ℕ → Table
  option : Value

/-- `server.new_service(option)`, and whether it returns. The arguments of
`core_new_service` are the session and the option. -/
def Requester.new_service (F : NumberFormat) (path : LuaStack.Bytes) (s : Requester τ)
    (call : OptionCall) : Requester τ × Bool :=
  let lua := s.lua.make_session
  match newService F path s.server
      { tables := call.tables, stack := [call.option, .integer lua.uid] } with
  | .ok server _ => ({ lua, server }, true)
  | .error _ _ => ({ lua, server := s.server }, false)

/-- One call after the other; the script catches the errors. -/
def Requester.new_services (F : NumberFormat) (path : LuaStack.Bytes) (s : Requester τ)
    (calls : List OptionCall) : Requester τ :=
  calls.foldl (fun s call => (s.new_service F path call).1) s

/-- The options that are read, in the order of the calls. -/
def readable (F : NumberFormat) (path : LuaStack.Bytes) (calls : List OptionCall) :
    List ServiceOption :=
  calls.filterMap fun call => option? F path call.tables call.option

/-! ## 1. One call -/

theorem newService_option (F : NumberFormat) (path : LuaStack.Bytes) (s : Server) {L : LuaState}
    {v : Value} (hv : L.index2value 2 = some v) :
    match option? F path L.tables v with
    | some o => newService F path s L = .ok (s.newService o) L
    | none => Raises (newService F path s) L := by
  have hread := readOption_option F path hv
  cases ho : option? F path L.tables v with
  | some o =>
    rw [ho] at hread
    exact bind_ok hread
  | none =>
    rw [ho] at hread
    exact raises_bind hread

/-- A session is made in any case, and the server has the request when the option can
be read. -/
theorem new_service_option (F : NumberFormat) (path : LuaStack.Bytes) (s : Requester τ)
    (call : OptionCall) : s.new_service F path call =
      match option? F path call.tables call.option with
      | some o => (⟨s.lua.make_session, s.server.newService o⟩, true)
      | none => (⟨s.lua.make_session, s.server⟩, false) := by
  have hcall := newService_option F path s.server (v := call.option)
    (L := { tables := call.tables, stack := [call.option, .integer s.lua.make_session.uid] }) rfl
  unfold Requester.new_service
  cases ho : option? F path call.tables call.option with
  | some o =>
    simp only [ho] at hcall
    simp only [hcall]
  | none =>
    simp only [ho] at hcall
    obtain ⟨e, L', hraise⟩ := hcall
    simp only [hraise]

/-! ## 2. All calls -/

namespace NewServiceLemmas

theorem readable_cons (F : NumberFormat) (path : LuaStack.Bytes) (call : OptionCall)
    (calls : List OptionCall) : readable F path (call :: calls) =
      (option? F path call.tables call.option).toList ++ readable F path calls := by
  rw [readable, List.filterMap_cons]
  cases option? F path call.tables call.option <;> rfl

theorem new_services_server (F : NumberFormat) (path : LuaStack.Bytes) (calls : List OptionCall)
    (s : Requester τ) : (s.new_services F path calls).server =
      s.server.newServices (readable F path calls) := by
  induction calls generalizing s with
  | nil => rfl
  | cons call calls ih =>
    have hcons : s.new_services F path (call :: calls) =
        (s.new_service F path call).1.new_services F path calls := rfl
    rw [hcons, ih, new_service_option, readable_cons]
    cases option? F path call.tables call.option <;> rfl

theorem new_services_lua (F : NumberFormat) (path : LuaStack.Bytes) (calls : List OptionCall)
    (s : Requester τ) : (s.new_services F path calls).lua =
      ServiceLua.make_session^[calls.length] s.lua := by
  induction calls generalizing s with
  | nil => rfl
  | cons call calls ih =>
    have hcons : s.new_services F path (call :: calls) =
        (s.new_service F path call).1.new_services F path calls := rfl
    rw [hcons, ih, new_service_option, List.length_cons, Function.iterate_succ_apply]
    cases option? F path call.tables call.option <;> rfl

/-- The requests after that of `main` go round the workers from the second on. -/
theorem wentRound_booted {threads : UInt32} {path : LuaStack.Bytes} (hT : 0 < threads.toNat)
    (os : List ServiceOption) (ho : ∀ o ∈ os, (Server.make threads).Unpinned o)
    (hlt : os.length + 1 < maxCount) :
    WentRound threads ((booted threads path).newServices os) (os.length + 1) := by
  rw [← newService_make]
  exact wentRound_newServices hT (bootOption path :: os)
    (List.forall_mem_cons.mpr ⟨unpinned_boot _ path, ho⟩) hlt

theorem unpinned_of_length {s s' : Server} (h : s'.workerVec.length = s.workerVec.length)
    {o : ServiceOption} (ho : s.Unpinned o) : s'.Unpinned o := by
  unfold Server.Unpinned at ho ⊢
  rwa [h]

end NewServiceLemmas

open NewServiceLemmas

/-- The script is the first service, all it does is to call `server.new_service` with
any options that name no worker, and no other thread makes a request meanwhile. Every call makes a session. A call whose option
cannot be read raises an error and leaves the server alone; the others place their
requests on the workers in turn, from the second on, however many failed between. -/
theorem new_service_calls {F : NumberFormat} {path : LuaStack.Bytes} {threads : UInt32}
    (lua : ServiceLua τ) (calls : List OptionCall) (hT : 0 < threads.toNat)
    (hunpinned : ∀ o ∈ readable F path calls, (Server.make threads).Unpinned o)
    (hlen : (readable F path calls).length + 1 < maxCount) :
    let start : Requester τ := ⟨lua, booted threads path⟩
    (start.new_services F path calls).lua = ServiceLua.make_session^[calls.length] lua ∧
    (∀ i, i < threads.toNat → (start.new_services F path calls).server.count i =
      roundRobin threads.toNat ((readable F path calls).length + 1) i) ∧
    ∀ calls₁ call calls₂, calls = calls₁ ++ call :: calls₂ →
      let s := start.new_services F path calls₁
      s.new_service F path call =
        match option? F path call.tables call.option with
        | some o => (⟨s.lua.make_session, s.server.update
            (((readable F path calls₁).length + 1) % threads.toNat) (·.newService o)
            (newService_workerID o)⟩, true)
        | none => (⟨s.lua.make_session, s.server⟩, false) := by
  intro start
  refine ⟨new_services_lua F path calls start, fun i hi => ?_, ?_⟩
  · rw [new_services_server]
    exact (wentRound_booted hT _ hunpinned hlen).count i hi
  · rintro calls₁ call calls₂ rfl s
    rw [new_service_option]
    cases ho : option? F path call.tables call.option with
    | none => rfl
    | some o =>
      have happend : readable F path (calls₁ ++ call :: calls₂) =
          readable F path calls₁ ++ o :: readable F path calls₂ := by
        rw [readable, List.filterMap_append]
        exact congrArg (readable F path calls₁ ++ ·) ((readable_cons ..).trans (by rw [ho]; rfl))
      rw [happend] at hunpinned hlen
      rw [List.length_append, List.length_cons] at hlen
      have hwent : WentRound threads s.server ((readable F path calls₁).length + 1) := by
        rw [new_services_server]
        exact wentRound_booted hT _ (fun p hp => hunpinned p (List.mem_append_left _ hp)) (by omega)
      have hlength : s.server.workerVec.length = (Server.make threads).workerVec.length :=
        hwent.length.trans (wentRound_make threads).length.symm
      have ho' := unpinned_of_length hlength
        (hunpinned o (List.mem_append_right _ List.mem_cons_self))
      simp only [(wentRound_step hT hwent ho' (by omega)).1]

/-- Three calls on two workers: an option without fields, a string in place of the
option, and again one without fields. -/
def threeCalls : List OptionCall :=
  [.table 2, .string [], .table 2].map (⟨configState.tables, ·⟩)

theorem new_service_calls_three :
    readable integersOnly [] threeCalls = [{}, {}] ∧ ∀ i, i < 2 →
      (Requester.new_services integersOnly [] (⟨ServiceLua.init, booted 2 []⟩ : Requester ℕ)
        threeCalls).server.count i = roundRobin 2 3 i := by
  have hreadable : readable integersOnly [] threeCalls = [{}, {}] := rfl
  have hunpinned : ∀ o ∈ readable integersOnly [] threeCalls, (Server.make 2).Unpinned o := by
    rw [hreadable]
    decide
  exact ⟨hreadable, (@new_service_calls ℕ integersOnly [] 2 ServiceLua.init threeCalls (by decide)
    hunpinned (by rw [hreadable]; decide)).2.1⟩

end LuaRobot
