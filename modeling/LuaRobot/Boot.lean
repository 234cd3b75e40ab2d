import LuaRobot.LuaUtility
import LuaRobot.Process

/-!
# From `main` to the services

`main` (`main.cpp`) reads the configuration, constructs the server, publishes the
search path and the directories as static members, and asks for one service,
`server.lua`. All later requests are those of `core.new_service`
(`lua_register_libs.cpp`), from scripts that the workers' handlers run, and they take
the search path from the server.

Results:
1. `main_outcomes`: what `main` makes of the value the configuration returns.
2. `boot_first`: the first handler of every run is that of `server.lua`.
3. `service_environment`: every service is given the search path of `main`, and a
   module is found over it where a script would be looked for.
-/

namespace LuaRobot

open Runs WaterLevel ByteStrings LuaLexer LuaLexer.LexerLemmas LuaStack LuaStack.StackLemmas
  LuaUtilityLemmas PlacementLemmas ThreadsLemmas RequestsLemmas ProgressLemmas ProcessLemmas
  EnvChunkLemmas PathSearchLemmas

/-! ## Definitions -/

/-- The static members of `Server`. -/
structure Statics where
  envPath : LuaStack.Bytes
  luaDirs : List CString

/-- The option that `main` makes. -/
def bootOption (path : LuaStack.Bytes) : ServiceOption :=
  { luaFile := ascii "server.lua", envPath := path }

/-- `main` up to `server->run()`, `none` when it returns -1 before. An error is not
caught. -/
def main (F : NumberFormat) : Api (Option (Statics × Server)) := do
  match ← readConfig F with
  | none => return none
  | some (threads, pathTable) =>
    let path := envPath pathTable
    let server := Server.make ⟨threads⟩
    return some (⟨path, pathTable⟩, server.newService (bootOption path))

/-- The server with its first request on the first worker; with no worker the
request is dropped. -/
def booted (threads : UInt32) (path : LuaStack.Bytes) : Server :=
  if threads.toNat = 0 then Server.make threads
  else (Server.make threads).update 0 (·.newService (bootOption path))
    (newService_workerID (bootOption path))

variable {ι : Type}

/-- A request of the main thread is that of `main`, and one of a script is read by
`newService`. -/
def Event.ByProgram (F : NumberFormat) (host : ι → Option ℕ) (path : LuaStack.Bytes) :
    Event ι → Prop
  | .request p option =>
    match host p with
    | none => option = bootOption path
    | some _ => ∃ L L', readOption F path L = .ok option L'
  | _ => True

def Call.option? : Call → Option ServiceOption
  | .idle => none
  | .scan option .. | .fetchAdd option _ | .post option _ => some option

/-- The one worker is started, and `main` asks for `server.lua`. -/
def bootOne (path : LuaStack.Bytes) : List (ProcessEvent Unit) :=
  [.main, .main, .system (.request () (bootOption path)), .system (.load ()),
    .system (.choose ()), .system (.fetchAdd ()), .system (.post ())]

/-- The directories of `configState`. -/
def configDirs : List CString := [cString (ascii "a"), cString (ascii "b")]

/-- A directory that the chunk, the substitution and the splitting leave as it is. -/
def PlainDir (d : CString) : Prop :=
  ((39 : UInt8) ∉ d.1 ∧ 92 ∉ d.1 ∧ 10 ∉ d.1 ∧ 13 ∉ d.1) ∧ CleanDir d.1

instance (d : CString) : Decidable (PlainDir d) :=
  inferInstanceAs (Decidable (((39 : UInt8) ∉ d.1 ∧ 92 ∉ d.1 ∧ 10 ∉ d.1 ∧ 13 ∉ d.1) ∧
    LUA_PATH_SEP ∉ d.1 ∧ LUA_PATH_MARK ∉ d.1))

/-! ## 1. The configuration -/

namespace BootLemmas

theorem unpinned_boot (s : Server) (path : LuaStack.Bytes) : s.Unpinned (bootOption path) :=
  Or.inl rfl

/-- The first worker of a new server is the one that `nextMinWorker` chooses. -/
theorem nextMinWorker_make {threads : UInt32} (h : 0 < threads.toNat) :
    (Server.make threads).nextMinWorker = some 0 := by
  have hround := wentRound_make threads
  have hcount : ∀ i, (Server.make threads).Shared i → (Server.make threads).count i = 0 := by
    intro i hi
    rw [hround.count i ((hround.shared i).mp hi), roundRobin_zero]
  have h0 := hcount 0 ((hround.shared 0).mpr h)
  refine nextMinWorker_of_firstMin ⟨(hround.shared 0).mpr h, fun j hj => ?_, fun j hj hlt => ?_⟩ ?_
  · rw [h0]
    exact Nat.zero_le _
  · exact absurd hlt (Nat.not_lt_zero j)
  · rw [h0]
    decide

theorem nextMinWorker_no_worker {threads : UInt32} (h : threads.toNat = 0) :
    (Server.make threads).nextMinWorker = none := by
  have hvec : (Server.make threads).workerVec = [] :=
    List.length_eq_zero_iff.mp ((wentRound_make threads).length.trans h)
  rw [Server.nextMinWorker, hvec]
  rfl

theorem newService_make (threads : UInt32) (path : LuaStack.Bytes) :
    (Server.make threads).newService (bootOption path) = booted threads path := by
  unfold booted
  split
  · next h =>
    unfold Server.newService
    rw [getWorkerByWorkerID_eq_none.mpr (unpinned_boot _ path), nextMinWorker_no_worker h]
  · next h =>
    exact newService_of_unpinned (unpinned_boot _ path)
      (nextMinWorker_make (Nat.pos_of_ne_zero h))

/-- Without a table there is nothing to read. -/
theorem readConfig_of_not_table (F : NumberFormat) {L : LuaState} {v : Value}
    (hv : L.index2value (-1) = some v) (hno : ∀ t, v ≠ .table t) : readConfig F L = .ok none L := by
  rw [readConfig, bind_ok (lua_type_eq hv)]
  have hne : typeOf (some v) ≠ LUA_TTABLE := fun h =>
    (typeOf_eq_table.mp h).elim fun t ht => hno t ht
  rw [if_pos hne]
  rfl

theorem field_LuaVector (F : NumberFormat) (L : LuaState) (t : ℕ) (key : LuaStack.Bytes)
    (d : List CString) : ∃ ps, field F L.tables t .LuaVector key d = some ps := by
  unfold field
  split
  · exact ⟨d, rfl⟩
  · obtain ⟨ps, hps, _⟩ := getLuaValue_LuaVector F 0 L ((L.tables t).get (.string key)) []
    exact ⟨ps, hps⟩

/-- Of a table both fields are read, or `threads` cannot be. -/
theorem readConfig_field (F : NumberFormat) {L : LuaState} {t : ℕ}
    (ht : L.index2value (-1) = some (.table t)) :
    match field F L.tables t (.integral uint32_t) (ascii "threads") 0#32 with
    | some threads => ∃ ps, field F L.tables t .LuaVector (ascii "path_table") [] = some ps ∧
        readConfig F L = .ok (some (threads, ps)) L
    | none => Raises (readConfig F) L := by
  have hfield := getLuaField_field F (.integral uint32_t) ht (ascii "threads") (LuaType.default _)
  have htype : lua_type (-1) L = .ok LUA_TTABLE L := lua_type_eq ht
  cases hthreads : field F L.tables t (.integral uint32_t) (ascii "threads") 0#32 with
  | some threads =>
    obtain ⟨ps, hps⟩ := field_LuaVector F L t (ascii "path_table") []
    refine ⟨ps, hps, (readConfig_iff F ht threads ps L).mpr ⟨rfl, ?_, ?_⟩⟩
    · exact reads_iff.mpr hthreads
    · exact reads_iff.mpr hps
  | none =>
    have hraises : Raises (getLuaField F (.integral uint32_t) (-1) (ascii "threads")
        (LuaType.default _)) L := by
      rw [show field F L.tables t (.integral uint32_t) (ascii "threads") (LuaType.default _) = none
        from hthreads] at hfield
      exact hfield
    rw [readConfig, Raises, bind_ok htype]
    exact raises_bind hraises

end BootLemmas

open BootLemmas

/-- What `main` makes of the value that the configuration script returns. Without a
table it returns -1. Of a table it reads `threads`, `0` if there is none, and the
strings among the values of `path_table`; it raises an error, which nothing
catches, exactly when `threads` cannot be read. With no worker the request for
`server.lua` is dropped without a word. -/
theorem main_outcomes (F : NumberFormat) (L : LuaState) (v : Value)
    (hv : L.index2value (-1) = some v) :
    (main F L = .ok none L ↔ ∀ t, v ≠ .table t) ∧
    (∀ statics server L', main F L = .ok (some (statics, server)) L' ↔ L' = L ∧
      ∃ t threads ps, v = .table t ∧
        field F L.tables t (.integral uint32_t) (ascii "threads") 0#32 = some threads ∧
        field F L.tables t .LuaVector (ascii "path_table") [] = some ps ∧
        statics = ⟨envPath ps, ps⟩ ∧ server = booted ⟨threads⟩ (envPath ps)) ∧
    (Raises (main F) L ↔ ∃ t, v = .table t ∧
      field F L.tables t (.integral uint32_t) (ascii "threads") 0#32 = none) := by
  by_cases htable : ∃ t, v = .table t
  · obtain ⟨t, rfl⟩ := htable
    have hconfig := readConfig_field F hv
    cases hthreads : field F L.tables t (.integral uint32_t) (ascii "threads") 0#32 with
    | some threads =>
      rw [hthreads] at hconfig
      obtain ⟨ps, hps, hread⟩ := hconfig
      have hmain : main F L = .ok (some (⟨envPath ps, ps⟩, booted ⟨threads⟩ (envPath ps))) L := by
        rw [main, bind_ok hread, ← newService_make]
        rfl
      rw [hmain]
      refine ⟨iff_of_false nofun fun h => h t rfl, fun statics server L' => ⟨?_, ?_⟩,
        iff_of_false ?_ ?_⟩
      · intro h
        cases h
        exact ⟨rfl, t, threads, ps, rfl, hthreads, hps, rfl, rfl⟩
      · rintro ⟨rfl, t', threads', ps', ht, hthreads', hps', rfl, rfl⟩
        cases ht
        cases hthreads.symm.trans hthreads'
        cases hps.symm.trans hps'
        rfl
      · rintro ⟨e, L', h⟩
        cases hmain.symm.trans h
      · rintro ⟨t', ht, hnone⟩
        cases ht
        cases hthreads.symm.trans hnone
    | none =>
      rw [hthreads] at hconfig
      have hmain : Raises (main F) L := raises_bind hconfig
      obtain ⟨e, L₁, herror⟩ := id hmain
      rw [herror]
      refine ⟨iff_of_false nofun fun h => h t rfl, fun statics server L' => iff_of_false nofun ?_,
        iff_of_true hmain ⟨t, rfl, hthreads⟩⟩
      rintro ⟨_, t', threads', _, ht, hthreads', _⟩
      cases ht
      cases hthreads.symm.trans hthreads'
  · have hno : ∀ t, v ≠ .table t := not_exists.mp htable
    have hmain : main F L = .ok none L := by
      rw [main, bind_ok (readConfig_of_not_table F hv hno)]
      rfl
    rw [hmain]
    refine ⟨iff_of_true rfl hno, fun statics server L' => iff_of_false nofun ?_,
      iff_of_false ?_ ?_⟩
    · rintro ⟨_, t, _, _, ht, _⟩
      exact hno t ht
    · rintro ⟨e, L', h⟩
      cases hmain.symm.trans h
    · rintro ⟨t, ht, _⟩
      exact hno t ht

theorem main_outcomes_config :
    main integersOnly configState =
      .ok (some (⟨envPath configDirs, configDirs⟩, booted 4 (envPath configDirs))) configState :=
  ((main_outcomes integersOnly configState (.table 0) rfl).2.1 _ _ _).mpr
    ⟨rfl, 0, 4#32, configDirs, rfl, rfl, rfl, rfl, rfl⟩

/-! ## 2. The first handler -/

/-- How far the first request of `main` has come: its call, and the server. -/
inductive BootCall (threads : UInt32) (path : LuaStack.Bytes) : Call → Server → Prop
  | scans (i : ℕ) : BootCall threads path
      (.scan (bootOption path) i (((Server.make threads).workerVec.take i).foldl scanWorker scanInit))
      (Server.make threads)
  | chose : 0 < threads.toNat →
      BootCall threads path (.fetchAdd (bootOption path) 0) (Server.make threads)
  | counted : 0 < threads.toNat → BootCall threads path (.post (bootOption path) 0)
      ((Server.make threads).update 0 Worker.fetchAdd fetchAdd_workerID)
  | returned : BootCall threads path .idle (booted threads path)

/-- The system before any handler, by the requests that the main thread has made. -/
inductive Booting [DecidableEq ι] (host : ι → Option ℕ) (threads : UInt32)
    (path : LuaStack.Bytes) : System ι → List ServiceOption → Prop
  | before : Booting host threads path (System.init threads) []
  | requested {p : ι} {c : Call} {server : Server} : BootCall threads path c server →
      Booting host threads path ((System.init threads).move p c server) [bootOption path]

namespace BootLemmas

variable {threads : UInt32} {path : LuaStack.Bytes}

theorem make_untouched {w : ℕ} {wk : Worker}
    (h : (Server.make threads).workerVec[w]? = some wk) :
    wk.th = none ∧ wk.genID = 0 ∧ wk.ioCtx = [] := by
  rw [make_worker h]
  exact ⟨rfl, rfl, rfl⟩

/-- A worker of the server: nothing is posted to it but, at the end, the one
request to the first worker. -/
theorem bootCall_worker {c : Call} {server : Server} (h : BootCall threads path c server) {w : ℕ}
    {wk : Worker} (hwk : server.workerVec[w]? = some wk) :
    wk.th = none ∧ wk.genID = 0 ∧ (wk.ioCtx = [] ∨ w = 0 ∧ server = booted threads path ∧
      c = .idle ∧ wk.ioCtx = [bootOption path]) := by
  cases h with
  | scans i | chose h =>
    obtain ⟨hth, hgen, hctx⟩ := make_untouched hwk
    exact ⟨hth, hgen, Or.inl hctx⟩
  | counted h =>
    rw [workerVec_update] at hwk
    obtain ⟨wk₀, hwk₀, rfl⟩ := Option.map_eq_some_iff.mp hwk
    obtain ⟨hth, hgen, hctx⟩ := make_untouched hwk₀
    split <;> exact ⟨hth, hgen, Or.inl hctx⟩
  | returned =>
    unfold booted at hwk
    split at hwk
    · obtain ⟨hth, hgen, hctx⟩ := make_untouched hwk
      exact ⟨hth, hgen, Or.inl hctx⟩
    · rw [workerVec_update] at hwk
      obtain ⟨wk₀, hwk₀, rfl⟩ := Option.map_eq_some_iff.mp hwk
      obtain ⟨hth, hgen, hctx⟩ := make_untouched hwk₀
      split
      · next hw =>
        refine ⟨hth, hgen, Or.inr ⟨hw.symm, rfl, rfl, ?_⟩⟩
        exact congrArg (· ++ [bootOption path]) hctx
      · exact ⟨hth, hgen, Or.inl hctx⟩

/-- `nextMinWorker` of the new server. -/
theorem afterScan_make (threads : UInt32) (path : LuaStack.Bytes) :
    BootCall threads path
      (afterScan (bootOption path) ((Server.make threads).workerVec.foldl scanWorker scanInit).2)
      (Server.make threads) := by
  rw [afterScan, ← nextMinWorker_eq]
  rcases Nat.eq_zero_or_pos threads.toNat with h | h
  · have hmake : Server.make threads = booted threads path := (if_pos h).symm
    rw [nextMinWorker_no_worker h]
    exact hmake ▸ .returned
  · rw [nextMinWorker_make h]
    exact .chose h

variable [DecidableEq ι] [Fintype ι] {host : ι → Option ℕ}

omit [Fintype ι] in
theorem booting_not_busy {s : System ι} {log : List ServiceOption}
    (h : Booting host threads path s log) (w : ℕ) : ¬ s.server.Busy w := by
  rintro ⟨wk, hwk, hbusy⟩
  have hth : wk.th = none := by
    cases h with
    | before => exact (make_untouched hwk).1
    | requested hc => exact (bootCall_worker hc hwk).1
  rw [hth] at hbusy
  cases hbusy

/-- The one thread in a call makes the step. -/
theorem bootCall_step {p : ι} {c : Call} {server : Server} (h : BootCall threads path c server)
    {e : Event ι} {q : ι} (he : e.caller? = some q) {s' : System ι}
    (hs : step host ((System.init threads).move p c server) e = some s') :
    ∃ c' server', BootCall threads path c' server' ∧
      s' = (System.init threads).move p c' server' := by
  have hcalling : ((System.init threads).move p c server).calls q ≠ .idle → q = p := by
    intro hq
    by_contra hne
    exact hq (move_calls_of_ne _ _ _ hne)
  cases e with
  | request r option | start v j | finish v ok => cases he
  | load r =>
    cases he
    obtain ⟨option, i, acc, wk, hcall, hwk, rfl⟩ := step_spec.mp hs
    obtain rfl := hcalling (by rw [hcall]; exact nofun)
    rw [move_calls_self] at hcall
    cases h with
    | scans i =>
      cases hcall
      refine ⟨_, _, .scans (i + 1), ?_⟩
      have hwk' : (Server.make threads).workerVec[i]? = some wk := hwk
      rw [move_move, List.take_add_one, hwk', List.foldl_append]
      rfl
    | chose | counted | returned => cases hcall
  | choose r =>
    cases he
    obtain ⟨option, acc, hcall, rfl⟩ := step_spec.mp hs
    obtain rfl := hcalling (by rw [hcall]; exact nofun)
    rw [move_calls_self] at hcall
    have hchose := afterScan_make threads path
    cases h with
    | scans i =>
      obtain ⟨rfl, hi, rfl⟩ := Call.scan.inj hcall
      refine ⟨_, _, hchose, ?_⟩
      have hall : (Server.make threads).workerVec.take i = (Server.make threads).workerVec :=
        List.take_of_length_le (Nat.le_of_eq hi.symm)
      rw [move_move, hall]
      rfl
    | chose | counted | returned => cases hcall
  | fetchAdd r =>
    cases he
    obtain ⟨option, w, hcall, rfl⟩ := step_spec.mp hs
    obtain rfl := hcalling (by rw [hcall]; exact nofun)
    rw [move_calls_self] at hcall
    cases h with
    | chose hpos =>
      cases hcall
      exact ⟨_, _, .counted hpos, move_move ..⟩
    | scans | counted | returned => cases hcall
  | post r =>
    cases he
    obtain ⟨option, w, hcall, rfl⟩ := step_spec.mp hs
    obtain rfl := hcalling (by rw [hcall]; exact nofun)
    rw [move_calls_self] at hcall
    cases h with
    | counted hpos =>
      cases hcall
      refine ⟨_, _, .returned, ?_⟩
      have hbooted : booted threads path =
          ((Server.make threads).update 0 Worker.fetchAdd fetchAdd_workerID).update 0
            (·.post (bootOption path)) (post_workerID _) := by
        rw [update_update, booted, if_neg hpos.ne']
        rfl
      rw [move_move, hbooted]
      rfl
    | scans | chose | returned => cases hcall

end BootLemmas

open BootLemmas

/-- The option, if the main thread makes a request. -/
def Event.mainRequest? (host : ι → Option ℕ) : Event ι → Option ServiceOption
  | .request p option => if host p = none then some option else none
  | .load _ | .choose _ | .fetchAdd _ | .post _ | .start .. | .finish .. => none

variable {threads : UInt32} {path : LuaStack.Bytes} [DecidableEq ι] [Fintype ι]
  {host : ι → Option ℕ}

/-- An event that starts no handler, if the main thread makes no other request. -/
theorem booting_step {s s' : System ι} {log : List ServiceOption} {e : Event ι}
    (h : Booting host threads path s log) (hstart : ∀ w j, e ≠ .start w j)
    (hmain : log ++ (e.mainRequest? host).toList <+: [bootOption path])
    (hs : step host s e = some s') :
    Booting host threads path s' (log ++ (e.mainRequest? host).toList) := by
  cases e with
  | start w j => exact absurd rfl (hstart w j)
  | finish w ok =>
    obtain ⟨⟨hbusy, _⟩, _⟩ := step_spec.mp hs
    exact absurd hbusy (booting_not_busy h w)
  | request q option =>
    obtain ⟨⟨_, hbusy⟩, rfl⟩ := step_spec.mp hs
    have hq : host q = none :=
      Option.eq_none_iff_forall_ne_some.mpr fun w hw => booting_not_busy h w (hbusy w hw)
    have hrequest : (Event.request q option).mainRequest? host = some option := if_pos hq
    rw [hrequest, Option.toList_some] at hmain ⊢
    cases h with
    | before =>
      obtain ⟨rfl, -⟩ := List.cons_prefix_cons.mp hmain
      have henter : (Server.make threads).enter (bootOption path) =
          .scan (bootOption path) 0 scanInit := by
        rw [Server.enter, getWorkerByWorkerID_eq_none.mpr (unpinned_boot _ path)]
      have hscan : BootCall threads path (.scan (bootOption path) 0 scanInit)
          (Server.make threads) := .scans 0
      rw [← henter] at hscan
      exact .requested hscan
    | requested hc => exact absurd hmain.length_le (Nat.lt_irrefl 1)
  | load q | choose q | fetchAdd q | post q =>
    rw [Event.mainRequest?, Option.toList_none, List.append_nil]
    cases h with
    | before => exact absurd (rank_caller rfl hs).1 (Nat.not_lt_zero _)
    | requested hc =>
      obtain ⟨c', server', hc', rfl⟩ := bootCall_step hc rfl hs
      exact .requested hc'

/-- The run up to the first handler. -/
theorem booting_run {s : System ι} {es : List (Event ι)}
    (hrun : run (step host) (System.init threads) es = some s)
    (hstart : ∀ w j, Event.start w j ∉ es)
    (hmain : es.filterMap (Event.mainRequest? host) <+: [bootOption path]) :
    Booting host threads path s (es.filterMap (Event.mainRequest? host)) := by
  induction es using List.reverseRecOn generalizing s with
  | nil =>
    cases hrun
    exact .before
  | append_singleton es e ih =>
    obtain ⟨t, ht, hs⟩ := run_snoc.mp hrun
    have hlog : (es ++ [e]).filterMap (Event.mainRequest? host) =
        es.filterMap (Event.mainRequest? host) ++ (e.mainRequest? host).toList := by
      rw [List.filterMap_append, List.filterMap_cons]
      cases e.mainRequest? host <;> rfl
    rw [hlog] at hmain ⊢
    have hbefore := ih ht (fun w j hmem => hstart w j (List.mem_append_left _ hmem))
      ((List.prefix_append _ _).trans hmain)
    refine booting_step hbefore (fun w j he => hstart w j ?_) hmain hs
    rw [he]
    exact List.mem_append_right _ (List.mem_singleton_self _)

/-- Before anything else, `server.lua`: in every run of the process whose main thread
makes no request but that of `main`, the first handler is taken by the first worker.
It creates service `0x01000001` with the option of `main`, and nothing else waits
anywhere. -/
theorem boot_first {p p' : Process ι} {es : List (ProcessEvent ι)} {w j : ℕ}
    (hrun : run (Process.step host) (Process.init threads) es = some p)
    (hfirst : ∀ v i, ProcessEvent.system (.start v i) ∉ es)
    (hmain : (es.filterMap ProcessEvent.system?).filterMap (Event.mainRequest? host) <+:
      [bootOption path])
    (hs : Process.step host p (.system (.start w j)) = some p') :
    w = 0 ∧ j = 0 ∧ 0 < threads.toNat ∧
    (es.filterMap ProcessEvent.system?).filterMap (Event.mainRequest? host) = [bootOption path] ∧
    ∀ v wk, p'.system.server.workerVec[v]? = some wk → wk.ioCtx = [] ∧
      wk.th = if v = 0 then
        some ⟨0x01000001, ({} : LuaService).setContext 1, bootOption path⟩ else none := by
  have hbooting := booting_run (process_refines hrun) (fun v i hmem => ?_) hmain
  · obtain ⟨_, system, hsystem, rfl⟩ := step_system.mp hs
    obtain ⟨⟨wk, hwk, hfree, hj⟩, rfl⟩ := step_spec.mp hsystem
    generalize hlog : (es.filterMap ProcessEvent.system?).filterMap (Event.mainRequest? host) =
      log at hbooting
    generalize hsys : p.system = system at hbooting hwk ⊢
    cases hbooting with
    | before =>
      obtain ⟨_, _, hctx⟩ := make_untouched hwk
      rw [hctx] at hj
      exact absurd hj (Nat.not_lt_zero j)
    | @requested q c server hc =>
      obtain ⟨_, hgen, hctx | ⟨rfl, _, rfl, hctx⟩⟩ := bootCall_worker hc hwk
      · rw [hctx] at hj
        exact absurd hj (Nat.not_lt_zero j)
      rw [hctx] at hj
      obtain rfl : j = 0 := Nat.lt_one_iff.mp hj
      have hpos : 0 < threads.toNat := by
        rw [← length_run (process_refines hrun), hsys]
        exact (List.getElem?_eq_some_iff.mp hwk).1
      refine ⟨rfl, rfl, hpos, rfl, ?_⟩
      refine forall_update (startHandler_workerID 0) (fun v vk hv hvk => ?_) fun wk' hwk' => ?_
      · obtain ⟨hth, _, hctx' | ⟨hzero, _⟩⟩ := bootCall_worker hc hvk
        · exact ⟨hctx', hth.trans (if_neg hv).symm⟩
        · exact absurd hzero hv
      · cases hwk.symm.trans hwk'
        have hhead : wk.ioCtx[0]? = some (bootOption path) := congrArg (·[0]?) hctx
        have hid : wk.workerID = 1 := workerID_eq hwk
        rw [startHandler_eq hhead, hctx, hgen, hid]
        exact ⟨rfl, rfl⟩
  · obtain ⟨e, he, hsome⟩ := List.mem_filterMap.mp hmem
    cases e with
    | main | returns v => cases hsome
    | system e =>
      cases hsome
      exact hfirst v i he

theorem boot_first_one :
    ∃ p p', run (Process.step fun _ => none) (Process.init 1) (bootOne []) = some p ∧
      Process.step (fun _ => none) p (.system (.start 0 0)) = some p' ∧
      ∀ v wk, p'.system.server.workerVec[v]? = some wk → wk.ioCtx = [] ∧
        wk.th = if v = 0 then
          some ⟨0x01000001, ({} : LuaService).setContext 1, bootOption []⟩ else none := by
  obtain ⟨p, p', hrun, hs⟩ : ∃ p p',
      run (Process.step fun _ => none) (Process.init 1) (bootOne []) = some p ∧
        Process.step (fun _ => none) p (.system (.start 0 0)) = some p' := ⟨_, _, rfl, rfl⟩
  exact ⟨p, p', hrun, hs,
    (boot_first hrun (by simp [bootOne]) (List.prefix_rfl : [bootOption []] <+: _) hs).2.2.2.2⟩

/-! ## 3. The environment of the services -/

/-- The option of every call under way, and of every request that was accepted, has
the search path. -/
def Carries (path : LuaStack.Bytes) (s : System ι) (log : List Record) : Prop :=
  (∀ q option, (s.calls q).option? = some option → option.envPath = path) ∧
  ∀ w option, Record.accepted w option ∈ log → option.envPath = path

namespace BootLemmas

theorem main_envPath {F : NumberFormat} {L L' : LuaState} {statics : Statics} {server : Server}
    (h : main F L = .ok (some (statics, server)) L') :
    statics.envPath = envPath statics.luaDirs := by
  obtain ⟨config, L₁, _, hrest⟩ := bind_eq_ok.mp h
  cases config with
  | none => cases hrest
  | some config =>
    cases hrest
    rfl

/-- The fields of the table do not reach the search path. -/
theorem readOption_envPath {F : NumberFormat} {L L' : LuaState} {option : ServiceOption}
    (h : readOption F path L = .ok option L') : option.envPath = path := by
  obtain ⟨_, L₁, _, hworker⟩ := bind_eq_ok.mp h
  obtain ⟨_, L₂, _, hfile⟩ := bind_eq_ok.mp hworker
  obtain ⟨_, L₃, _, hreturn⟩ := bind_eq_ok.mp hfile
  cases hreturn
  rfl

omit [Fintype ι] in
theorem carries_move {s : System ι} {log : List Record} (h : Carries path s log) (p : ι) (c : Call)
    (server : Server) (hc : ∀ option, c.option? = some option → option.envPath = path) :
    Carries path (s.move p c server) log := by
  refine ⟨fun q option hq => ?_, h.2⟩
  rcases eq_or_ne q p with rfl | hne
  · rw [move_calls_self] at hq
    exact hc option hq
  · rw [move_calls_of_ne _ _ _ hne] at hq
    exact h.1 q option hq

omit [DecidableEq ι] [Fintype ι] in
theorem byProgram_envPath {F : NumberFormat} {q : ι} {option : ServiceOption}
    (h : (Event.request q option).ByProgram F host path) : option.envPath = path := by
  cases hq : host q with
  | none =>
    simp only [Event.ByProgram, hq] at h
    rw [h]
    rfl
  | some w =>
    simp only [Event.ByProgram, hq] at h
    obtain ⟨L, L', hread⟩ := h
    exact readOption_envPath hread

theorem option?_enter (s : Server) (o : ServiceOption) : (s.enter o).option? = some o := by
  unfold Server.enter
  split <;> rfl

theorem option?_afterScan {o option : ServiceOption} {id : UInt32}
    (h : (afterScan o id).option? = some option) : option = o := by
  unfold afterScan at h
  split at h
  · exact (Option.some.inj h).symm
  · cases h

end BootLemmas

theorem carries_step {F : NumberFormat} {s s' : System ι} {log : List Record} {e : Event ι}
    (h : Carries path s log) (he : e.ByProgram F host path) (hs : step host s e = some s') :
    Carries path s' (log ++ record s e) := by
  have hnil : Carries path s (log ++ []) := by rwa [List.append_nil]
  cases e with
  | request q option =>
    obtain ⟨_, rfl⟩ := step_spec.mp hs
    refine carries_move hnil q _ _ fun o ho => ?_
    cases (option?_enter _ _).symm.trans ho
    exact byProgram_envPath he
  | load q =>
    obtain ⟨option, i, acc, wk, hcall, _, rfl⟩ := step_spec.mp hs
    refine carries_move hnil q _ _ fun o ho => h.1 q o ?_
    rw [hcall]
    exact ho
  | choose q =>
    obtain ⟨option, acc, hcall, rfl⟩ := step_spec.mp hs
    refine carries_move hnil q _ _ fun o ho => h.1 q o ?_
    rw [hcall, option?_afterScan ho]
    rfl
  | fetchAdd q =>
    obtain ⟨option, w, hcall, rfl⟩ := step_spec.mp hs
    refine carries_move hnil q _ _ fun o ho => h.1 q o ?_
    rw [hcall]
    exact ho
  | post q =>
    obtain ⟨option, w, hcall, rfl⟩ := step_spec.mp hs
    have hrec : record s (.post q) = [.accepted w option] := by simp [record, hcall]
    have hoption : option.envPath = path := h.1 q option (by rw [hcall]; rfl)
    have hidle : ∀ o, Call.idle.option? = some o → o.envPath = path :=
      fun o ho => absurd ho (Option.some_ne_none o).symm
    refine ⟨(carries_move h q .idle _ hidle).1, fun v o ho => ?_⟩
    rw [hrec] at ho
    rcases List.mem_append.mp ho with hlog | hnew
    · exact h.2 v o hlog
    · cases List.mem_singleton.mp hnew
      exact hoption
  | start w j =>
    obtain ⟨_, rfl⟩ := step_spec.mp hs
    exact hnil
  | finish w ok =>
    obtain ⟨_, rfl⟩ := step_spec.mp hs
    refine ⟨h.1, fun v o ho => ?_⟩
    rcases List.mem_append.mp ho with hlog | hnew
    · exact h.2 v o hlog
    · obtain ⟨c, _, hc⟩ := List.mem_map.mp hnew
      cases hc

theorem carries_run {F : NumberFormat} {s : System ι} {es : List (Event ι)}
    (hrun : run (step host) (System.init threads) es = some s)
    (hprogram : ∀ e ∈ es, e.ByProgram F host path) :
    Carries path s (records threads host es) := by
  have hinit : Carries path (System.init threads : System ι) [] := ⟨nofun, nofun⟩
  exact run_rule (fun _ _ _ _ h he hs => carries_step h he hs) hinit (meets_of_mem hprogram _) hrun

/-- What the services of the program find: where no directory of `path_table` has a
quote, a backslash, a line break, a `;` or a `?`, every service that is being created,
whoever asked for it, runs a chunk that Lua reads as the assignment of the search path,
and for every set of files `package.searchpath` over that path finds, for a module
without `.` and `;`, the file that `getFileRealPath` finds for its name with `.lua`, or
both find none. `require` gets to this path only for a module that is neither loaded
nor preloaded, and after it to `package.cpath`. -/
theorem service_environment {F : NumberFormat} {L L' : LuaState} {statics : Statics}
    {server : Server} {p : Process ι} {es : List (ProcessEvent ι)}
    (hmain : main F L = .ok (some (statics, server)) L')
    (hrun : run (Process.step host) (Process.init threads) es = some p)
    (hprogram : ∀ e, ProcessEvent.system e ∈ es → e.ByProgram F host statics.envPath)
    (hdirs : ∀ d ∈ statics.luaDirs, PlainDir d) (w : ℕ) (wk : Worker) (c : Creation)
    (hwk : p.system.server.workerVec[w]? = some wk) (hc : wk.th = some c) :
    lex (cString c.option.envPath).1 = .ok (envTokens (searchPath statics.luaDirs)) ∧
    ∀ (files : LuaStack.Bytes → Bool) (dirsep m : LuaStack.Bytes), files [] = false →
      (46 : UInt8) ∉ m → LUA_PATH_SEP ∉ m →
      Agree (searchpath files dirsep m (searchPath statics.luaDirs))
        (getFileRealPath files (m ++ ascii ".lua") (statics.luaDirs.map Subtype.val)) := by
  have hpath : c.option.envPath = envPath statics.luaDirs := by
    have hsystem := process_refines hrun
    have hpending : c.option ∈ wk.pending := by
      rw [Worker.pending, hc]
      exact List.mem_cons_self
    have haccepted := (tracked_run hsystem w wk hwk).mem_iff.mpr (List.mem_append_right _ hpending)
    obtain ⟨r, hr, hoption⟩ := List.mem_filterMap.mp haccepted
    have hevents : ∀ e ∈ es.filterMap ProcessEvent.system?,
        e.ByProgram F host statics.envPath := by
      intro e he
      obtain ⟨event, hevent, hsome⟩ := List.mem_filterMap.mp he
      cases event with
      | main | returns v => cases hsome
      | system e' =>
        cases hsome
        exact hprogram e hevent
    rw [← main_envPath hmain]
    cases r with
    | handled v option => cases hoption
    | accepted v option =>
      obtain ⟨_, hsome⟩ := Option.ite_none_right_eq_some.mp hoption
      cases hsome
      exact (carries_run hsystem hevents).2 v _ hr
  constructor
  · have hplain := (searchPath_plain statics.luaDirs).mpr fun d hd => (hdirs d hd).1
    rw [hpath]
    show lex (envChunk statics.luaDirs) = _
    rw [envChunk_eq, lex_env, (readString_iff 39 (searchPath statics.luaDirs) []).mpr hplain,
      Except.bind, lex_nil]
    simp [envTokens, Except.map]
  · intro files dirsep m hempty hdot hsep
    have hclean : ∀ d ∈ statics.luaDirs.map Subtype.val, CleanDir d := by
      intro d hd
      obtain ⟨dir, hdir, rfl⟩ := List.mem_map.mp hd
      exact (hdirs dir hdir).2
    rw [← searchPath_eq, searchpath, gsub_of_not_mem dirsep hdot, candidates_eq hclean hsep]
    exact agree_find hempty _ _

theorem service_environment_one :
    ∃ p wk c, run (Process.step fun _ => none) (Process.init 1)
        (bootOne (envPath configDirs) ++ [.system (.start 0 0)]) = some p ∧
      p.system.server.workerVec[0]? = some wk ∧ wk.th = some c ∧
      lex (cString c.option.envPath).1 = .ok (envTokens (searchPath configDirs)) := by
  obtain ⟨p, wk, c, hrun, hwk, hc⟩ : ∃ p wk c, run (Process.step fun _ => none) (Process.init 1)
      (bootOne (envPath configDirs) ++ [.system (.start 0 0)]) = some p ∧
        p.system.server.workerVec[0]? = some wk ∧ wk.th = some c := ⟨_, _, _, rfl, rfl, rfl⟩
  obtain ⟨server, hmain⟩ : ∃ server, main integersOnly configState =
      .ok (some (⟨envPath configDirs, configDirs⟩, server)) configState := ⟨_, rfl⟩
  refine ⟨p, wk, c, hrun, hwk, hc, (service_environment hmain hrun ?_ ?_ 0 wk c hwk hc).1⟩
  · simp [bootOne, Event.ByProgram]
  · show ∀ d ∈ configDirs, PlainDir d
    decide

end LuaRobot
