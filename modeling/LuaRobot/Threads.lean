import LuaRobot.Placement
import LuaRobot.Runs
import Mathlib.Data.Fintype.Basic

/-!
# The server under its threads

Threads `ι` call `Server::newService` while the threads of the workers run the
creation handlers. `host p` says which worker's thread `p` is: the script that a
handler's `init` runs may call `core.new_service`, so such a thread makes
requests only inside a handler, and the handler goes on only after they have
returned. A thread with `host p = none` (the main thread) makes requests at any
time. One event is one access to shared memory: a load of a worker's counter, a
`fetch_add`, an `asio::post`, or a handler up to or after `init`. A posted
handler is taken at most once, in any order, and a worker runs one at a time.

Results:
1. `step_spec`: what one event does, with its guard.
2. `run_newService`: a call that nothing interrupts is `Server.newService`.
3. `workers_step`: what every event keeps of each worker; `length_run`,
   `shared_step` and `inRange_step`: of the server and the calls.
-/

namespace LuaRobot

open Runs PlacementLemmas

/-! ## Definitions -/

/-- Where a thread is in `Server::newService`. -/
inductive Call where
  /-- in no call -/
  | idle
  /-- in the loop of `nextMinWorker`, before the load of `workerVec[i]` -/
  | scan (option : ServiceOption) (i : ℕ) (acc : UInt32 × UInt32)
  /-- in `Worker::newService` of worker `w`, before the `fetch_add` -/
  | fetchAdd (option : ServiceOption) (w : ℕ)
  /-- in `Worker::newService` of worker `w`, before the `asio::post` -/
  | post (option : ServiceOption) (w : ℕ)
deriving DecidableEq

structure System (ι : Type) where
  server : Server
  calls : ι → Call

inductive Event (ι : Type) where
  /-- `p` enters `Server::newService` -/
  | request (p : ι) (option : ServiceOption)
  /-- one iteration of the loop of `nextMinWorker` -/
  | load (p : ι)
  /-- the loop ends, and `nextMinWorker` returns -/
  | choose (p : ι)
  | fetchAdd (p : ι)
  | post (p : ι)
  /-- worker `w` takes its `j`-th handler and runs it up to `init` -/
  | start (w j : ℕ)
  /-- `init` returns `ok` on worker `w`, and the handler ends -/
  | finish (w : ℕ) (ok : Bool)

theorem fetchAdd_workerID (w : Worker) : w.fetchAdd.workerID = w.workerID := rfl

theorem post_workerID (option : ServiceOption) (w : Worker) :
    (w.post option).workerID = w.workerID := rfl

/-- The first lines of `Server::newService`. -/
def Server.enter (s : Server) (option : ServiceOption) : Call :=
  match s.getWorkerByWorkerID option.workerID with
  | some w => .fetchAdd option w
  | none => .scan option 0 scanInit

/-- The call after `nextMinWorker` has returned. -/
def afterScan (option : ServiceOption) (minWorkerID : UInt32) : Call :=
  match scanResult minWorkerID with
  | some w => .fetchAdd option w
  | none => .idle

/-- The thread of worker `w` is inside a handler. -/
def Server.Busy (s : Server) (w : ℕ) : Prop :=
  ∃ wk, s.workerVec[w]? = some wk ∧ wk.th.isSome = true

instance (s : Server) (w : ℕ) : Decidable (s.Busy w) :=
  decidable_of_iff ((s.workerVec[w]?).any fun wk => wk.th.isSome) (by
    unfold Server.Busy
    cases s.workerVec[w]? <;> simp)

/-- Worker `w` has a `j`-th queued handler and is inside none. -/
def Server.CanStart (s : Server) (w j : ℕ) : Prop :=
  ∃ wk, s.workerVec[w]? = some wk ∧ wk.th.isNone = true ∧ j < wk.ioCtx.length

instance (s : Server) (w j : ℕ) : Decidable (s.CanStart w j) :=
  decidable_of_iff ((s.workerVec[w]?).any fun wk => wk.th.isNone && decide (j < wk.ioCtx.length))
    (by
      unfold Server.CanStart
      cases s.workerVec[w]? <;> simp)

section

variable {ι : Type} [DecidableEq ι]

/-- Thread `p` moves to `c`, and the server becomes `server`. -/
def System.move (s : System ι) (p : ι) (c : Call) (server : Server) : System ι :=
  ⟨server, Function.update s.calls p c⟩

/-- Every thread on worker `w`'s thread has returned from its request. -/
def System.Returned (host : ι → Option ℕ) (s : System ι) (w : ℕ) : Prop :=
  ∀ p, host p = some w → s.calls p = .idle

/-- Thread `p` is at a point where it may call `Server::newService`. -/
def System.MayCall (host : ι → Option ℕ) (s : System ι) (p : ι) : Prop :=
  s.calls p = .idle ∧ ∀ w, host p = some w → s.server.Busy w

instance (host : ι → Option ℕ) (s : System ι) (p : ι) : Decidable (s.MayCall host p) :=
  decidable_of_iff (s.calls p = .idle ∧ (host p).all fun w => decide (s.server.Busy w))
    (by
      unfold System.MayCall
      cases host p <;> simp)

namespace ThreadsLemmas

@[simp] theorem move_server (s : System ι) (p : ι) (c : Call) (server : Server) :
    (s.move p c server).server = server := rfl

@[simp] theorem move_calls_self (s : System ι) (p : ι) (c : Call) (server : Server) :
    (s.move p c server).calls p = c := Function.update_self ..

theorem move_calls_of_ne (s : System ι) {p q : ι} (c : Call) (server : Server) (h : q ≠ p) :
    (s.move p c server).calls q = s.calls q := Function.update_of_ne h ..

@[simp] theorem move_move (s : System ι) (p : ι) (c c' : Call) (server server' : Server) :
    (s.move p c server).move p c' server' = s.move p c' server' := by
  simp [System.move]

theorem move_idle {s : System ι} {p : ι} (server : Server) (h : s.calls p = .idle) :
    s.move p .idle server = { s with server } := by
  rw [System.move, ← h, Function.update_eq_self]

end ThreadsLemmas

variable [Fintype ι]

instance (host : ι → Option ℕ) (s : System ι) (w : ℕ) : Decidable (s.Returned host w) :=
  inferInstanceAs (Decidable (∀ p, host p = some w → s.calls p = .idle))

/-- One event. -/
def step (host : ι → Option ℕ) (s : System ι) : Event ι → Option (System ι)
  | .request p option =>
    if s.MayCall host p then some (s.move p (s.server.enter option) s.server) else none
  | .load p =>
    match s.calls p with
    | .scan option i acc =>
      (s.server.workerVec[i]?).map fun w => s.move p (.scan option (i + 1) (scanWorker acc w)) s.server
    | _ => none
  | .choose p =>
    match s.calls p with
    | .scan option i acc =>
      if i = s.server.workerVec.length then some (s.move p (afterScan option acc.2) s.server)
      else none
    | _ => none
  | .fetchAdd p =>
    match s.calls p with
    | .fetchAdd option w =>
      some (s.move p (.post option w) (s.server.update w Worker.fetchAdd fetchAdd_workerID))
    | _ => none
  | .post p =>
    match s.calls p with
    | .post option w =>
      some (s.move p .idle (s.server.update w (·.post option) (post_workerID option)))
    | _ => none
  | .start w j =>
    if s.server.CanStart w j then
      some { s with server := s.server.update w (·.startHandler j) (startHandler_workerID j) }
    else none
  | .finish w ok =>
    if s.server.Busy w ∧ s.Returned host w then
      some { s with server := s.server.update w (·.finishHandler ok) (finishHandler_workerID ok) }
    else none

/-- A server that was just constructed, and no thread in a call. -/
def System.init (threads : UInt32) : System ι := ⟨Server.make threads, fun _ => .idle⟩

/-- One creation on a server with one worker, requested by the main thread, with
what `init` returns. -/
def oneCreation (ok : Bool) : List (Event Unit) :=
  [.request () {}, .load (), .choose (), .fetchAdd (), .post (), .start 0 0, .finish 0 ok]

/-! ## 1. One event -/

/-- The guard and the effect of an event. -/
def StepSpec (host : ι → Option ℕ) (s s' : System ι) : Event ι → Prop
  | .request p option => s.MayCall host p ∧ s' = s.move p (s.server.enter option) s.server
  | .load p => ∃ option i acc w, s.calls p = .scan option i acc ∧
      s.server.workerVec[i]? = some w ∧
      s' = s.move p (.scan option (i + 1) (scanWorker acc w)) s.server
  | .choose p => ∃ option acc, s.calls p = .scan option s.server.workerVec.length acc ∧
      s' = s.move p (afterScan option acc.2) s.server
  | .fetchAdd p => ∃ option w, s.calls p = .fetchAdd option w ∧
      s' = s.move p (.post option w) (s.server.update w Worker.fetchAdd fetchAdd_workerID)
  | .post p => ∃ option w, s.calls p = .post option w ∧
      s' = s.move p .idle (s.server.update w (·.post option) (post_workerID option))
  | .start w j => s.server.CanStart w j ∧
      s' = { s with server := s.server.update w (·.startHandler j) (startHandler_workerID j) }
  | .finish w ok => (s.server.Busy w ∧ s.Returned host w) ∧
      s' = { s with server := s.server.update w (·.finishHandler ok) (finishHandler_workerID ok) }

theorem step_spec {host : ι → Option ℕ} {s s' : System ι} {e : Event ι} :
    step host s e = some s' ↔ StepSpec host s s' e := by
  cases e with
  | request p option =>
    simp only [step, StepSpec, Option.ite_none_right_eq_some, Option.some.injEq]
    exact and_congr_right fun _ => eq_comm
  | load p =>
    simp only [step, StepSpec]
    cases s.calls p <;> simp [eq_comm, and_assoc]
  | choose p =>
    simp only [step, StepSpec]
    cases s.calls p <;> simp [eq_comm, and_assoc]
  | fetchAdd p =>
    simp only [step, StepSpec]
    cases s.calls p <;> simp [eq_comm, and_assoc]
  | post p =>
    simp only [step, StepSpec]
    cases s.calls p <;> simp [eq_comm, and_assoc]
  | start w j =>
    simp only [step, StepSpec, Option.ite_none_right_eq_some, Option.some.injEq]
    exact and_congr_right fun _ => eq_comm
  | finish w ok =>
    simp only [step, StepSpec, Option.ite_none_right_eq_some, Option.some.injEq]
    exact and_congr_right fun _ => eq_comm

/-! ## 2. An uninterrupted call -/

/-- The events of the scan of `nextMinWorker` by `p`, from the entry to the
return. -/
def scanEvents (s : Server) (p : ι) (option : ServiceOption) : List (Event ι) :=
  .request p option :: (List.replicate s.workerVec.length (.load p) ++ [.choose p])

/-- The events of one call by `p`, if nothing else happens. -/
def callEvents (s : Server) (p : ι) (option : ServiceOption) : List (Event ι) :=
  match s.getWorkerByWorkerID option.workerID with
  | some _ => [.request p option, .fetchAdd p, .post p]
  | none =>
    scanEvents s p option ++
      match s.nextMinWorker with
      | some _ => [.fetchAdd p, .post p]
      | none => []

namespace ThreadsLemmas

theorem nextMinWorker_eq (s : Server) :
    s.nextMinWorker = scanResult (s.workerVec.foldl scanWorker scanInit).2 := by
  unfold Server.nextMinWorker
  split
  · next h =>
    rw [List.isEmpty_iff.mp h]
    rfl
  · rfl

/-- The loads of the scan, from the `i`-th to the last. -/
theorem run_loads {host : ι → Option ℕ} {option : ServiceOption} {p : ι} (s : System ι) (n : ℕ) :
    ∀ (i : ℕ) (acc : UInt32 × UInt32), i + n = s.server.workerVec.length →
      run (step host) (s.move p (.scan option i acc) s.server) (List.replicate n (.load p)) =
        some (s.move p (.scan option s.server.workerVec.length
          ((s.server.workerVec.drop i).foldl scanWorker acc)) s.server) := by
  induction n with
  | zero =>
    intro i acc hi
    rw [List.drop_of_length_le (by omega), ← hi]
    rfl
  | succ n ih =>
    intro i acc hi
    have hlt : i < s.server.workerVec.length := by omega
    have hstep : step host (s.move p (.scan option i acc) s.server) (.load p) =
        some (s.move p (.scan option (i + 1) (scanWorker acc s.server.workerVec[i])) s.server) :=
      step_spec.mpr ⟨option, i, acc, _, by simp, List.getElem?_eq_getElem hlt, by simp⟩
    rw [List.replicate_succ, run_cons_eq _ hstep, ih (i + 1) _ (by omega),
      List.drop_eq_getElem_cons hlt, List.foldl_cons]

/-- A scan that nothing interrupts chooses what `nextMinWorker` returns. -/
theorem run_scan {host : ι → Option ℕ} {s : System ι} {p : ι} {option : ServiceOption}
    (hp : s.MayCall host p) (ho : s.server.Unpinned option) :
    run (step host) s (scanEvents s.server p option) =
      some (s.move p (match s.server.nextMinWorker with
        | some w => .fetchAdd option w
        | none => .idle) s.server) := by
  have hreq : step host s (.request p option) =
      some (s.move p (.scan option 0 scanInit) s.server) := by
    refine step_spec.mpr ⟨hp, ?_⟩
    rw [Server.enter, getWorkerByWorkerID_eq_none.mpr ho]
  rw [scanEvents, run_cons_eq _ hreq,
    run_append_eq _ (run_loads s s.server.workerVec.length 0 scanInit (by omega)), List.drop_zero]
  have hchoose : step host (s.move p (.scan option s.server.workerVec.length
      (s.server.workerVec.foldl scanWorker scanInit)) s.server) (.choose p) =
      some (s.move p (afterScan option (s.server.workerVec.foldl scanWorker scanInit).2)
        s.server) :=
    step_spec.mpr ⟨option, s.server.workerVec.foldl scanWorker scanInit, by simp, by simp⟩
  rw [run_cons_eq _ hchoose, run_nil, afterScan, nextMinWorker_eq]

/-- The rest of a call, once the worker is chosen. -/
theorem run_add_post {host : ι → Option ℕ} {s : System ι} {p : ι} {option : ServiceOption}
    (w : ℕ) (hp : s.calls p = .idle) :
    run (step host) (s.move p (.fetchAdd option w) s.server) [.fetchAdd p, .post p] =
      some { s with server := s.server.update w (·.newService option) (newService_workerID option) } := by
  have hadd : step host (s.move p (.fetchAdd option w) s.server) (.fetchAdd p) =
      some (s.move p (.post option w) (s.server.update w Worker.fetchAdd fetchAdd_workerID)) :=
    step_spec.mpr ⟨option, w, by simp, by simp⟩
  have hpost : step host
      (s.move p (.post option w) (s.server.update w Worker.fetchAdd fetchAdd_workerID)) (.post p) =
      some (s.move p .idle ((s.server.update w Worker.fetchAdd fetchAdd_workerID).update w
        (·.post option) (post_workerID option))) :=
    step_spec.mpr ⟨option, w, by simp, by simp⟩
  rw [run_cons_eq _ hadd, run_cons_eq _ hpost, run_nil, move_idle _ hp, update_update]
  rfl

end ThreadsLemmas

open ThreadsLemmas

/-- A call of `Server::newService` that no other event interrupts does what the
sequential `Server.newService` does. -/
theorem run_newService {host : ι → Option ℕ} {s : System ι} {p : ι} (option : ServiceOption)
    (hp : s.MayCall host p) :
    run (step host) s (callEvents s.server p option) =
      some { s with server := s.server.newService option } := by
  unfold callEvents Server.newService
  cases hw : s.server.getWorkerByWorkerID option.workerID with
  | some w =>
    have hreq : step host s (.request p option) =
        some (s.move p (.fetchAdd option w) s.server) := by
      refine step_spec.mpr ⟨hp, ?_⟩
      rw [Server.enter, hw]
    simp only
    rw [run_cons_eq _ hreq, run_add_post w hp.1]
  | none =>
    simp only
    rw [run_append_eq _ (run_scan hp (getWorkerByWorkerID_eq_none.mp hw))]
    cases s.server.nextMinWorker with
    | some w => exact run_add_post w hp.1
    | none => rw [run_nil, move_idle _ hp.1]

/-! ## 3. What every event keeps -/

/-- The events that only read the server. -/
def Event.ReadsOnly : Event ι → Prop
  | .request .. | .load _ | .choose _ => True
  | .fetchAdd _ | .post _ | .start .. | .finish .. => False

/-- The worker that a call is about to touch exists, and so does every worker
the scan may return. -/
def Call.InRange (n : ℕ) : Call → Prop
  | .idle => True
  | .scan _ _ acc => acc.2.toNat ≤ n
  | .fetchAdd _ w => w < n
  | .post _ w => w < n

namespace ThreadsLemmas

theorem enter_inRange (s : Server) (option : ServiceOption) :
    (s.enter option).InRange s.workerVec.length := by
  unfold Server.enter
  cases h : s.getWorkerByWorkerID option.workerID with
  | none => exact Nat.zero_le _
  | some w =>
    unfold Server.getWorkerByWorkerID at h
    split at h
    · cases h
    · next hn =>
      cases h
      have h0 : option.workerID.toNat ≠ 0 := fun h0 => hn (Or.inl (UInt32.toNat_inj.mp h0))
      have hT : ¬ option.workerID.toNat > s.workerVec.length := fun hT => hn (Or.inr hT)
      simp only [Call.InRange]
      omega

theorem afterScan_inRange {n : ℕ} {option : ServiceOption} {id : UInt32} (h : id.toNat ≤ n) :
    (afterScan option id).InRange n := by
  unfold afterScan scanResult
  split
  · next w hw =>
    split at hw
    · cases hw
    · next h0 =>
      cases hw
      have h0' : id.toNat ≠ 0 := fun h => h0 (UInt32.toNat_inj.mp h)
      simp only [Call.InRange]
      omega
  · trivial

theorem scanWorker_inRange {s : Server} {acc : UInt32 × UInt32} {i : ℕ} {w : Worker}
    (hw : s.workerVec[i]? = some w) (h : acc.2.toNat ≤ s.workerVec.length) :
    (scanWorker acc w).2.toNat ≤ s.workerVec.length := by
  have hi := (List.getElem?_eq_some_iff.mp hw).1
  have hid := s.numbered i w hw
  simp only [scanWorker]
  split
  · simp only
    omega
  · exact h

end ThreadsLemmas

theorem server_of_readsOnly {host : ι → Option ℕ} {s s' : System ι} {e : Event ι}
    (h : step host s e = some s') (he : e.ReadsOnly) : s'.server = s.server := by
  cases e with
  | request p option =>
    obtain ⟨_, rfl⟩ := step_spec.mp h
    rfl
  | load p =>
    obtain ⟨_, _, _, _, _, _, rfl⟩ := step_spec.mp h
    rfl
  | choose p =>
    obtain ⟨_, _, _, rfl⟩ := step_spec.mp h
    rfl
  | fetchAdd p | post p | start w j | finish w ok => cases he

/-- A statement about each worker for itself is kept when the four operations on
a worker keep it. -/
theorem workers_step {host : ι → Option ℕ} {s s' : System ι} {e : Event ι}
    {I : ℕ → Worker → Prop} (h : ∀ w wk, s.server.workerVec[w]? = some wk → I w wk)
    (hs : step host s e = some s')
    (hadd : ∀ w wk, I w wk → I w wk.fetchAdd)
    (hpost : ∀ w wk option, I w wk → I w (wk.post option))
    (hstart : ∀ w wk j option, e = .start w j → wk.workerID = UInt32.ofNat (w + 1) →
      wk.th = none → wk.ioCtx[j]? = some option → I w wk → I w (wk.startHandler j))
    (hfinish : ∀ w wk c ok, e = .finish w ok → wk.th = some c → I w wk →
      I w (wk.finishHandler ok)) :
    ∀ w wk, s'.server.workerVec[w]? = some wk → I w wk := by
  have hother (w : ℕ) : ∀ v vk, v ≠ w → s.server.workerVec[v]? = some vk → I v vk :=
    fun v vk _ => h v vk
  cases e with
  | request p option | load p | choose p =>
    rw [server_of_readsOnly hs trivial]
    exact h
  | fetchAdd p =>
    obtain ⟨_, w, _, rfl⟩ := step_spec.mp hs
    exact forall_update fetchAdd_workerID (hother w) fun wk hwk => hadd w wk (h w wk hwk)
  | post p =>
    obtain ⟨option, w, _, rfl⟩ := step_spec.mp hs
    exact forall_update (post_workerID option) (hother w)
      fun wk hwk => hpost w wk option (h w wk hwk)
  | start w j =>
    obtain ⟨⟨wk, hw, hfree, hj⟩, rfl⟩ := step_spec.mp hs
    refine forall_update (startHandler_workerID j) (hother w) fun wk' hw' => ?_
    cases hw.symm.trans hw'
    exact hstart w wk j _ rfl (workerID_eq hw) (Option.isNone_iff_eq_none.mp hfree)
      (List.getElem?_eq_getElem hj) (h w wk hw)
  | finish w ok =>
    obtain ⟨⟨⟨wk, hw, hbusy⟩, _⟩, rfl⟩ := step_spec.mp hs
    obtain ⟨c, hc⟩ := Option.isSome_iff_exists.mp hbusy
    refine forall_update (finishHandler_workerID ok) (hother w) fun wk' hw' => ?_
    cases hw.symm.trans hw'
    exact hfinish w wk c ok rfl hc (h w wk hw)

theorem length_step {host : ι → Option ℕ} {s s' : System ι} {e : Event ι}
    (h : step host s e = some s') :
    s'.server.workerVec.length = s.server.workerVec.length := by
  cases e with
  | request p option | load p | choose p => rw [server_of_readsOnly h trivial]
  | fetchAdd p | post p =>
    obtain ⟨_, _, _, rfl⟩ := step_spec.mp h
    exact List.length_modify ..
  | start w j | finish w ok =>
    obtain ⟨_, rfl⟩ := step_spec.mp h
    exact List.length_modify ..

theorem length_run {threads : UInt32} {host : ι → Option ℕ} {es : List (Event ι)} {s : System ι}
    (hrun : run (step host) (System.init threads) es = some s) :
    s.server.workerVec.length = threads.toNat :=
  run_invariant (I := fun s => s.server.workerVec.length = threads.toNat)
    (fun _ _ _ hI _ hs => (length_step hs).trans hI) (wentRound_make threads).length
    (meets_of_forall (fun _ _ => trivial) _ es) hrun

theorem shared_step {host : ι → Option ℕ} {s s' : System ι} {e : Event ι}
    (h : step host s e = some s') (i : ℕ) : s'.server.Shared i ↔ s.server.Shared i := by
  cases e with
  | request p option | load p | choose p => rw [server_of_readsOnly h trivial]
  | fetchAdd p =>
    obtain ⟨_, _, _, rfl⟩ := step_spec.mp h
    exact shared_update fetchAdd_workerID fun _ => rfl
  | post p =>
    obtain ⟨option, _, _, rfl⟩ := step_spec.mp h
    exact shared_update (post_workerID option) fun _ => rfl
  | start w j =>
    obtain ⟨_, rfl⟩ := step_spec.mp h
    exact shared_update (startHandler_workerID j) (startHandler_shareThread j)
  | finish w ok =>
    obtain ⟨_, rfl⟩ := step_spec.mp h
    exact shared_update (finishHandler_workerID ok) (finishHandler_shareThread ok)

theorem inRange_step {host : ι → Option ℕ} {s s' : System ι} {e : Event ι}
    (h : step host s e = some s') (hr : ∀ p, (s.calls p).InRange s.server.workerVec.length) :
    ∀ p, (s'.calls p).InRange s'.server.workerVec.length := by
  rw [length_step h]
  -- only the thread of the event moves
  have hmove : ∀ (p : ι) (c : Call) (server : Server), c.InRange s.server.workerVec.length →
      ∀ q, ((s.move p c server).calls q).InRange s.server.workerVec.length := by
    intro p c server hc q
    by_cases hq : q = p
    · rw [hq, move_calls_self]; exact hc
    · rw [move_calls_of_ne _ _ _ hq]; exact hr q
  cases e with
  | request p option =>
    obtain ⟨_, rfl⟩ := step_spec.mp h
    exact hmove p _ _ (enter_inRange s.server option)
  | load p =>
    obtain ⟨option, i, acc, w, hc, hw, rfl⟩ := step_spec.mp h
    have hp := hr p
    rw [hc] at hp
    exact hmove p _ _ (scanWorker_inRange hw hp)
  | choose p =>
    obtain ⟨option, acc, hc, rfl⟩ := step_spec.mp h
    have hp := hr p
    rw [hc] at hp
    exact hmove p _ _ (afterScan_inRange hp)
  | fetchAdd p =>
    obtain ⟨option, w, hc, rfl⟩ := step_spec.mp h
    have hp := hr p
    rw [hc] at hp
    exact hmove p _ _ hp
  | post p =>
    obtain ⟨option, w, hc, rfl⟩ := step_spec.mp h
    exact hmove p _ _ trivial
  | start w j | finish w ok =>
    obtain ⟨_, rfl⟩ := step_spec.mp h
    exact hr

end

end LuaRobot
