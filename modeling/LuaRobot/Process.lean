import LuaRobot.Progress

/-!
# The threads of the process

`Worker::run`, `Worker::wait`, `Server::run`, `Server::wait`, the loop of
`Server::Server` that starts the threads, and `Server::~Server`, around the
system of `LuaRobot.Threads`. The work guard keeps `ioCtx.run()` from returning
before `ioCtx.stop()`; from then on no handler is taken, and the thread of the
worker leaves `run()` when it is inside none. A request may still be posted. The
main thread makes requests only between the constructor and `Server::run`.

A run ends with the wait of the destructor, before the members of the server are
destroyed. `lua_close` (`StateDeleter`) comes after that; it runs the `__gc`
finalizers of the scripts, which may still call `core.new_service`.

Results:
1. `process_refines`: a run of the process is a run of the system.
2. `processInv_step`, `processInv_run`: what the threads do by where the main
   thread is.
-/

namespace LuaRobot

open Runs PlacementLemmas ThreadsLemmas RequestsLemmas ProgressLemmas

/-! ## Definitions -/

/-- The `std::thread` of a worker: without a thread yet, in `ioCtx.run()`, past
it, joined. -/
inductive ThreadState where
  | notStarted
  | running
  | returned
  | joined
deriving DecidableEq

/-- Which call of `Server::wait`: that of `Server::run`, or of `~Server`. -/
inductive Waiter where
  | run
  | destructor
deriving DecidableEq

inductive Main where
  /-- in the constructor, before `run` of worker `i` -/
  | constructing (i : ℕ)
  /-- in `main`, up to the call of `Server::run` -/
  | serving
  /-- in `Worker::wait` of worker `i`, before `ioCtx.stop()` -/
  | stopping (waiter : Waiter) (i : ℕ)
  /-- in `Worker::wait` of worker `i`, before the join -/
  | joining (waiter : Waiter) (i : ℕ)
  /-- the destructor has waited; what it destroys comes after the run -/
  | ended
deriving DecidableEq

/-- `stopped w` is `ioCtx.stopped()` of worker `w`. -/
structure Process (ι : Type) where
  system : System ι
  stopped : ℕ → Bool
  th : ℕ → ThreadState
  main : Main

inductive ProcessEvent (ι : Type) where
  /-- the next action of the main thread -/
  | main
  /-- `ioCtx.run()` of worker `w` returns -/
  | returns (w : ℕ)
  | system (e : Event ι)

def ProcessEvent.system? {ι : Type} : ProcessEvent ι → Option (Event ι)
  | .system e => some e
  | .main | .returns _ => none

variable {ι : Type}

def Process.size (p : Process ι) : ℕ := p.system.server.workerVec.length

/-- The server is constructed up to its loop over the threads. -/
def Process.init (threads : UInt32) : Process ι where
  system := System.init threads
  stopped _ := false
  th _ := .notStarted
  main := .constructing 0

def Process.Permits (host : ι → Option ℕ) (p : Process ι) : Event ι → Prop
  | .request q _ => host q = none → p.main = .serving
  | .start w _ => p.th w = .running ∧ p.stopped w = false
  | .load _ | .choose _ | .fetchAdd _ | .post _ | .finish .. => True

instance (host : ι → Option ℕ) (p : Process ι) : (e : Event ι) → Decidable (p.Permits host e)
  | .request q _ => inferInstanceAs (Decidable (host q = none → p.main = .serving))
  | .start w _ => inferInstanceAs (Decidable (p.th w = .running ∧ p.stopped w = false))
  | .load _ | .choose _ | .fetchAdd _ | .post _ | .finish .. => isTrue trivial

/-- `Server::wait` goes on to worker `i`; after the last one it returns. -/
def Process.afterWait : Waiter → Main
  | .run => .stopping .destructor 0
  | .destructor => .ended

variable [DecidableEq ι] [Fintype ι]

/-- The next action of the main thread, `none` while it is blocked. It enters
`Server::run` when its requests have returned. -/
def Process.mainStep (host : ι → Option ℕ) (p : Process ι) : Option (Process ι) :=
  match p.main with
  | .constructing i =>
    if i < p.size then
      some { p with th := Function.update p.th i .running, main := .constructing (i + 1) }
    else some { p with main := .serving }
  | .serving =>
    if ∀ q, host q = none → p.system.calls q = .idle then
      some { p with main := .stopping .run 0 }
    else none
  | .stopping waiter i =>
    if i < p.size then
      some { p with stopped := Function.update p.stopped i true, main := .joining waiter i }
    else some { p with main := Process.afterWait waiter }
  | .joining waiter i =>
    match p.th i with
    | .running => none
    | .returned =>
      some { p with th := Function.update p.th i .joined, main := .stopping waiter (i + 1) }
    -- `th.joinable()` is false
    | .notStarted | .joined => some { p with main := .stopping waiter (i + 1) }
  | .ended => none

/-- Worker `w` has stopped and is inside no handler. -/
def Process.CanReturn (p : Process ι) (w : ℕ) : Prop :=
  w < p.size ∧ p.th w = .running ∧ p.stopped w = true ∧ ¬ p.system.server.Busy w

omit [DecidableEq ι] [Fintype ι] in
instance (p : Process ι) (w : ℕ) : Decidable (p.CanReturn w) :=
  inferInstanceAs (Decidable (_ ∧ _ ∧ _ ∧ _))

def Process.step (host : ι → Option ℕ) (p : Process ι) : ProcessEvent ι → Option (Process ι)
  | .main => p.mainStep host
  | .returns w =>
    if p.CanReturn w then some { p with th := Function.update p.th w .returned } else none
  | .system e =>
    if p.Permits host e then (LuaRobot.step host p.system e).map fun system => { p with system }
    else none

/-- What the thread of a worker and its context may be at, by where the main
thread is. -/
def Main.Allows (m : Main) (w : ℕ) (th : ThreadState) (stopped : Bool) : Prop :=
  match m with
  | .constructing i => th = (if w < i then .running else .notStarted) ∧ stopped = false
  | .serving => th = .running ∧ stopped = false
  | .stopping .run i => if w < i then th = .joined else th = .running ∧ stopped = false
  | .joining .run i =>
    if w < i then th = .joined
    else if w = i then (th = .running ∨ th = .returned) ∧ stopped = true
    else th = .running ∧ stopped = false
  | .stopping .destructor _ | .joining .destructor _ | .ended => th = .joined

/-- A worker whose thread is not in `ioCtx.run()` is inside no handler, a thread
it hosts calls only from inside one, and the main thread calls only while it
serves. -/
structure ProcessInv (host : ι → Option ℕ) (p : Process ι) : Prop where
  threads : ∀ w, w < p.size → p.main.Allows w (p.th w) (p.stopped w)
  joining : ∀ waiter i, p.main = .joining waiter i → i < p.size
  handlers : ∀ w, p.system.server.Busy w → p.th w = .running
  hosted : ∀ q w, host q = some w → p.system.calls q ≠ .idle → p.system.server.Busy w
  callers : ∀ q, host q = none → p.system.calls q ≠ .idle → p.main = .serving
  calls : p.system.InBounds

/-! ## 1. The system under the process -/

namespace ProcessLemmas

omit [Fintype ι] [DecidableEq ι] in
theorem busy_iff {s : Server} {w : ℕ} :
    s.Busy w ↔ ((s.workerVec[w]?).map Worker.th).any Option.isSome = true := by
  unfold Server.Busy
  cases s.workerVec[w]? <;> simp

theorem busy_congr {s s' : Server} {w : ℕ}
    (h : (s'.workerVec[w]?).map Worker.th = (s.workerVec[w]?).map Worker.th) :
    s'.Busy w ↔ s.Busy w := by
  rw [busy_iff, busy_iff, h]

theorem busy_lt {s : Server} {w : ℕ} (h : s.Busy w) : w < s.workerVec.length := by
  obtain ⟨wk, hwk, _⟩ := h
  exact (List.getElem?_eq_some_iff.mp hwk).1

theorem th_update_of_ne (s : Server) {w v : ℕ} {f : Worker → Worker}
    (hf : ∀ wk, (f wk).workerID = wk.workerID) (h : v ≠ w) :
    ((s.update w f hf).workerVec[v]?).map Worker.th = (s.workerVec[v]?).map Worker.th := by
  rw [workerVec_update]
  simp [Ne.symm h]

/-- No call starts or ends a handler. -/
theorem busy_caller {host : ι → Option ℕ} {s s' : System ι} {q : ι} {e : Event ι}
    (he : e.caller? = some q) (hs : LuaRobot.step host s e = some s') (w : ℕ) :
    s'.server.Busy w ↔ s.server.Busy w := by
  cases e with
  | request r option | start v j | finish v ok => cases he
  | load r | choose r => rw [server_of_readsOnly hs trivial]
  | fetchAdd r =>
    obtain ⟨option, v, _, rfl⟩ := step_spec.mp hs
    exact busy_congr (field_update_of_keeps _ _ w fetchAdd_workerID fun _ => rfl)
  | post r =>
    obtain ⟨option, v, _, rfl⟩ := step_spec.mp hs
    exact busy_congr (field_update_of_keeps _ _ w (post_workerID option) fun _ => rfl)

/-- What the main thread does, by where it is. -/
inductive MainStep (host : ι → Option ℕ) (p : Process ι) : Process ι → Prop
  | starts {i : ℕ} : p.main = .constructing i → i < p.size →
      MainStep host p { p with th := Function.update p.th i .running, main := .constructing (i + 1) }
  | constructed {i : ℕ} : p.main = .constructing i → p.size ≤ i →
      MainStep host p { p with main := .serving }
  | runs : p.main = .serving → (∀ q, host q = none → p.system.calls q = .idle) →
      MainStep host p { p with main := .stopping .run 0 }
  | stops {waiter : Waiter} {i : ℕ} : p.main = .stopping waiter i → i < p.size →
      MainStep host p
        { p with stopped := Function.update p.stopped i true, main := .joining waiter i }
  | waited {waiter : Waiter} {i : ℕ} : p.main = .stopping waiter i → p.size ≤ i →
      MainStep host p { p with main := Process.afterWait waiter }
  | joins {waiter : Waiter} {i : ℕ} : p.main = .joining waiter i → p.th i = .returned →
      MainStep host p
        { p with th := Function.update p.th i .joined, main := .stopping waiter (i + 1) }
  | skips {waiter : Waiter} {i : ℕ} : p.main = .joining waiter i → p.th i ≠ .running →
      p.th i ≠ .returned → MainStep host p { p with main := .stopping waiter (i + 1) }

omit [DecidableEq ι] in
theorem mainStep_cases {host : ι → Option ℕ} {p p' : Process ι} (h : p.mainStep host = some p') :
    MainStep host p p' := by
  unfold Process.mainStep at h
  split at h
  · next i hm =>
    split at h
    · next hi =>
      cases h
      exact .starts hm hi
    · next hi =>
      cases h
      exact .constructed hm (Nat.le_of_not_lt hi)
  · next hm =>
    split at h
    · next hidle =>
      cases h
      exact .runs hm hidle
    · cases h
  · next waiter i hm =>
    split at h
    · next hi =>
      cases h
      exact .stops hm hi
    · next hi =>
      cases h
      exact .waited hm (Nat.le_of_not_lt hi)
  · next waiter i hm =>
    split at h
    · cases h
    · next hth =>
      cases h
      exact .joins hm hth
    · next hth =>
      cases h
      exact .skips hm (by rw [hth]; decide) (by rw [hth]; decide)
    · next hth =>
      cases h
      exact .skips hm (by rw [hth]; decide) (by rw [hth]; decide)
  · cases h

omit [DecidableEq ι] in
theorem mainStep_system {host : ι → Option ℕ} {p p' : Process ι}
    (h : p.mainStep host = some p') : p'.system = p.system := by
  cases mainStep_cases h <;> rfl

/-- What an event does, other than the next action of the main thread. -/
theorem step_system {host : ι → Option ℕ} {p p' : Process ι} {e : Event ι} :
    Process.step host p (.system e) = some p' ↔ p.Permits host e ∧
      ∃ system, LuaRobot.step host p.system e = some system ∧ p' = { p with system } := by
  simp only [Process.step]
  split
  · next hpermits =>
    rw [Option.map_eq_some_iff]
    exact ⟨fun ⟨system, hs, h⟩ => ⟨hpermits, system, hs, h.symm⟩,
      fun ⟨_, system, hs, h⟩ => ⟨system, hs, h.symm⟩⟩
  · next hno => exact iff_of_false nofun fun h => hno h.1

theorem step_returns {host : ι → Option ℕ} {p p' : Process ι} {w : ℕ} :
    Process.step host p (.returns w) = some p' ↔
      p.CanReturn w ∧ p' = { p with th := Function.update p.th w .returned } := by
  simp only [Process.step, Option.ite_none_right_eq_some, Option.some.injEq]
  exact and_congr_right fun _ => eq_comm

end ProcessLemmas

open ProcessLemmas

theorem process_refines {host : ι → Option ℕ} {p p' : Process ι} {es : List (ProcessEvent ι)}
    (hrun : run (Process.step host) p es = some p') :
    run (step host) p.system (es.filterMap ProcessEvent.system?) = some p'.system := by
  refine run_project (A := Process.system) (fun p e p' hs => ?_) hrun
  cases e with
  | main => exact mainStep_system hs
  | returns w =>
    obtain ⟨_, rfl⟩ := step_returns.mp hs
    rfl
  | system e =>
    obtain ⟨_, system, hsystem, rfl⟩ := step_system.mp hs
    exact hsystem

/-! ## 2. The threads -/

namespace ProcessLemmas

variable {host : ι → Option ℕ} {p : Process ι}

omit [DecidableEq ι] [Fintype ι] in
/-- The main thread leaves the system alone. -/
theorem inv_main (h : ProcessInv host p) {th : ℕ → ThreadState} {stopped : ℕ → Bool} {m : Main}
    (hthreads : ∀ w, w < p.size → m.Allows w (th w) (stopped w))
    (hjoining : ∀ waiter i, m = .joining waiter i → i < p.size)
    (hhandlers : ∀ w, p.system.server.Busy w → th w = .running)
    (hcallers : ∀ q, host q = none → p.system.calls q ≠ .idle → m = .serving) :
    ProcessInv host { p with stopped := stopped, th := th, main := m } where
  threads := hthreads
  joining := hjoining
  handlers := hhandlers
  hosted := h.hosted
  callers := hcallers
  calls := h.calls

omit [DecidableEq ι] [Fintype ι] in
theorem allows_of_lt (h : ProcessInv host p) {m : Main} (hm : p.main = m) {w : ℕ}
    (hw : w < p.size) : m.Allows w (p.th w) (p.stopped w) := by
  rw [← hm]
  exact h.threads w hw

omit [DecidableEq ι] in
theorem inv_mainStep {p' : Process ι} (h : ProcessInv host p) (hs : p.mainStep host = some p') :
    ProcessInv host p' := by
  -- outside of its requests the main thread is in no call
  have hcallers : ∀ {m m' : Main}, p.main = m → m ≠ .serving →
      ∀ q, host q = none → p.system.calls q ≠ .idle → m' = .serving :=
    fun hm hne q hq hcall => absurd (hm.symm.trans (h.callers q hq hcall)) hne
  cases mainStep_cases hs with
  | @starts i hm hi =>
    refine inv_main h (fun w hw => ?_) nofun (fun w hbusy => ?_) (hcallers hm nofun)
    · obtain ⟨hth, hstop⟩ := allows_of_lt h hm hw
      refine ⟨?_, hstop⟩
      rcases Nat.lt_trichotomy w i with hlt | rfl | hgt
      · rw [Function.update_of_ne hlt.ne, hth, if_pos hlt, if_pos (Nat.lt_succ_of_lt hlt)]
      · rw [Function.update_self, if_pos (Nat.lt_succ_self w)]
      · rw [Function.update_of_ne hgt.ne', hth, if_neg hgt.not_gt, if_neg (by omega)]
    · rcases eq_or_ne w i with rfl | hne
      · exact Function.update_self ..
      · exact (Function.update_of_ne hne ..).trans (h.handlers w hbusy)
  | @constructed i hm hi =>
    refine inv_main h (fun w hw => ?_) nofun h.handlers fun _ _ _ => rfl
    obtain ⟨hth, hstop⟩ := allows_of_lt h hm hw
    exact ⟨hth.trans (if_pos (Nat.lt_of_lt_of_le hw hi)), hstop⟩
  | runs hm hidle =>
    refine inv_main h (fun w hw => ?_) nofun h.handlers fun q hq hcall =>
      absurd (hidle q hq) hcall
    exact allows_of_lt h hm hw
  | @stops waiter i hm hi =>
    refine inv_main h (fun w hw => ?_) (fun _ j hj => ?_) h.handlers (hcallers hm nofun)
    · have hw' := allows_of_lt h hm hw
      cases waiter with
      | destructor => exact hw'
      | run =>
        simp only [Main.Allows] at hw' ⊢
        rcases Nat.lt_trichotomy w i with hlt | rfl | hgt
        · rwa [if_pos hlt] at hw' ⊢
        · rw [if_neg (lt_irrefl w)] at hw' ⊢
          rw [if_pos rfl]
          exact ⟨Or.inl hw'.1, Function.update_self ..⟩
        · rw [if_neg hgt.not_gt] at hw' ⊢
          rw [if_neg hgt.ne', Function.update_of_ne hgt.ne']
          exact hw'
    · cases hj
      exact hi
  | @waited waiter i hm hi =>
    cases waiter with
    | destructor =>
      exact inv_main h (fun w hw => allows_of_lt h hm hw) nofun h.handlers
        (hcallers hm nofun)
    | run =>
      refine inv_main h (fun w hw => ?_) nofun h.handlers (hcallers hm nofun)
      have hw' := allows_of_lt h hm hw
      simp only [Main.Allows, if_pos (Nat.lt_of_lt_of_le hw hi)] at hw'
      exact hw'
  | @joins waiter i hm hth =>
    refine inv_main h (fun w hw => ?_) nofun (fun w hbusy => ?_) (hcallers hm nofun)
    · have hw' := allows_of_lt h hm hw
      rcases eq_or_ne w i with rfl | hne
      · cases waiter with
        | destructor => exact Function.update_self ..
        | run =>
          simp only [Main.Allows, if_pos (Nat.lt_succ_self w), Function.update_self]
      · simp only [Function.update_of_ne hne]
        cases waiter with
        | destructor => exact hw'
        | run =>
          simp only [Main.Allows, if_neg hne] at hw' ⊢
          rcases Nat.lt_or_gt_of_ne hne with hlt | hgt
          · rw [if_pos hlt] at hw'
            rwa [if_pos (Nat.lt_succ_of_lt hlt)]
          · rw [if_neg hgt.not_gt] at hw'
            rwa [if_neg (by omega)]
    · have hne : w ≠ i := by
        rintro rfl
        exact absurd (hth.symm.trans (h.handlers w hbusy)) nofun
      exact (Function.update_of_ne hne ..).trans (h.handlers w hbusy)
  | @skips waiter i hm hrunning hreturned =>
    have hi := allows_of_lt h hm (h.joining waiter i hm)
    cases waiter with
    | destructor =>
      exact inv_main h (fun w hw => allows_of_lt h hm hw) nofun h.handlers
        (hcallers hm nofun)
    | run =>
      simp only [Main.Allows, if_neg (lt_irrefl i), if_true] at hi
      exact absurd hi.1 (not_or.mpr ⟨hrunning, hreturned⟩)

/-- A thread whose `ioCtx.run()` returns is inside no handler. -/
theorem inv_returns {p' : Process ι} {w : ℕ} (h : ProcessInv host p)
    (hs : p.step host (.returns w) = some p') : ProcessInv host p' := by
  obtain ⟨⟨_, hrun, hstop, hfree⟩, rfl⟩ := step_returns.mp hs
  refine inv_main h (fun v hv => ?_) h.joining (fun v hv => ?_) h.callers
  · have hv' := h.threads v hv
    rcases eq_or_ne v w with rfl | hne
    · rw [Function.update_self]
      -- a running thread that was stopped is the one that is joined
      cases hm : p.main with
      | constructing i =>
        rw [hm] at hv'
        exact absurd (hstop.symm.trans hv'.2) nofun
      | serving =>
        rw [hm] at hv'
        exact absurd (hstop.symm.trans hv'.2) nofun
      | ended =>
        rw [hm] at hv'
        exact absurd (hrun.symm.trans hv') nofun
      | stopping waiter i =>
        rw [hm] at hv'
        cases waiter with
        | destructor => exact absurd (hrun.symm.trans hv') nofun
        | run =>
          simp only [Main.Allows, hrun, hstop] at hv'
          split at hv'
          · cases hv'
          · cases hv'.2
      | joining waiter i =>
        rw [hm] at hv'
        cases waiter with
        | destructor => exact absurd (hrun.symm.trans hv') nofun
        | run =>
          simp only [Main.Allows, hrun, hstop] at hv' ⊢
          by_cases hlt : v < i
          · rw [if_pos hlt] at hv'
            cases hv'
          · rw [if_neg hlt] at hv' ⊢
            split at hv'
            · next heq =>
              rw [if_pos heq]
              exact ⟨Or.inr trivial, trivial⟩
            · cases hv'.2
    · rw [Function.update_of_ne hne]
      exact hv'
  · have hne : v ≠ w := by
      rintro rfl
      exact hfree hv
    exact (Function.update_of_ne hne ..).trans (h.handlers v hv)

/-- A thread in a call goes on with it. -/
theorem inv_caller (h : ProcessInv host p) {q : ι} {e : Event ι} {system : System ι}
    (he : e.caller? = some q) (hs : LuaRobot.step host p.system e = some system) :
    ProcessInv host { p with system } := by
  obtain ⟨hlt, hother⟩ := rank_caller he hs
  have hcalls : ∀ r, system.calls r ≠ .idle → p.system.calls r ≠ .idle := by
    intro r hr hidle
    rcases eq_or_ne r q with rfl | hne
    · rw [hidle] at hlt
      exact absurd hlt (Nat.not_lt_zero _)
    · exact hr ((hother r hne).trans hidle)
  have hbusy := busy_caller he hs
  have hlen := length_step hs
  exact {
    threads := fun w hw => h.threads w (hw.trans_eq hlen)
    joining := fun waiter i hm => (h.joining waiter i hm).trans_eq hlen.symm
    handlers := fun w hw => h.handlers w ((hbusy w).mp hw)
    hosted := fun r w hr hcall => (hbusy w).mpr (h.hosted r w hr (hcalls r hcall))
    callers := fun r hr hcall => h.callers r hr (hcalls r hcall)
    calls := inBounds_step h.calls hs }

/-- A thread enters a call. -/
theorem inv_request (h : ProcessInv host p) {q : ι} {option : ServiceOption} {system : System ι}
    (hmain : host q = none → p.main = .serving)
    (hs : LuaRobot.step host p.system (.request q option) = some system) :
    ProcessInv host { p with system } := by
  have hbounds := inBounds_step h.calls hs
  obtain ⟨⟨_, hbusy⟩, rfl⟩ := step_spec.mp hs
  refine ⟨h.threads, h.joining, h.handlers, fun r w hr hcall => ?_, fun r hr hcall => ?_, hbounds⟩
  · rcases eq_or_ne r q with rfl | hne
    · exact hbusy w hr
    · exact h.hosted r w hr (by rwa [move_calls_of_ne _ _ _ hne] at hcall)
  · rcases eq_or_ne r q with rfl | hne
    · exact hmain hr
    · exact h.callers r hr (by rwa [move_calls_of_ne _ _ _ hne] at hcall)

omit [DecidableEq ι] [Fintype ι] in
/-- A handler starts or ends on worker `w`. -/
theorem inv_handler (h : ProcessInv host p) {w : ℕ} {f : Worker → Worker}
    (hf : ∀ wk, (f wk).workerID = wk.workerID)
    (hbounds : { p.system with server := p.system.server.update w f hf }.InBounds)
    (hrun : p.th w = .running)
    (hhosted : ∀ q, host q = some w → p.system.calls q ≠ .idle →
      (p.system.server.update w f hf).Busy w) :
    ProcessInv host { p with system := { p.system with server := p.system.server.update w f hf } } where
  threads v hv := h.threads v (Nat.lt_of_lt_of_eq hv (update_length _ _ _ hf))
  joining waiter i hm := (h.joining waiter i hm).trans_eq (update_length _ _ _ hf).symm
  handlers v hv := by
    rcases eq_or_ne v w with rfl | hne
    · exact hrun
    · exact h.handlers v ((busy_congr (th_update_of_ne _ hf hne)).mp hv)
  hosted q v hq hcall := by
    rcases eq_or_ne v w with rfl | hne
    · exact hhosted q hq hcall
    · exact (busy_congr (th_update_of_ne _ hf hne)).mpr (h.hosted q v hq hcall)
  callers := h.callers
  calls := hbounds

theorem inv_system {p' : Process ι} {e : Event ι} (h : ProcessInv host p)
    (hs : p.step host (.system e) = some p') : ProcessInv host p' := by
  obtain ⟨hpermits, system, hsystem, rfl⟩ := step_system.mp hs
  have hbounds := inBounds_step h.calls hsystem
  cases e with
  | request q option => exact inv_request h hpermits hsystem
  | load q | choose q | fetchAdd q | post q => exact inv_caller h rfl hsystem
  | start w j =>
    obtain ⟨⟨wk, hw, hfree, hj⟩, rfl⟩ := step_spec.mp hsystem
    refine inv_handler h (startHandler_workerID j) hbounds hpermits.1 fun _ _ _ => ?_
    refine ⟨wk.startHandler j, ?_, ?_⟩
    · rw [workerVec_update, hw, Option.map_some, if_pos rfl]
    · rw [startHandler_eq (List.getElem?_eq_getElem hj)]
      rfl
  | finish w ok =>
    obtain ⟨⟨hbusy, hreturned⟩, rfl⟩ := step_spec.mp hsystem
    exact inv_handler h (finishHandler_workerID ok) hbounds (h.handlers w hbusy) fun q hq hcall =>
      absurd (hreturned q hq) hcall

end ProcessLemmas

theorem processInv_step {host : ι → Option ℕ} {p p' : Process ι} {e : ProcessEvent ι}
    (h : ProcessInv host p) (hs : p.step host e = some p') : ProcessInv host p' := by
  cases e with
  | main => exact inv_mainStep h hs
  | returns w => exact inv_returns h hs
  | system e => exact inv_system h hs

omit [DecidableEq ι] [Fintype ι] in
theorem processInv_init (host : ι → Option ℕ) (threads : UInt32) :
    ProcessInv host (Process.init threads) where
  threads _ _ := ⟨rfl, rfl⟩
  joining := nofun
  handlers w hw := by
    obtain ⟨wk, hwk, hbusy⟩ := hw
    rw [make_worker hwk] at hbusy
    cases hbusy
  hosted _ _ _ hcall := absurd rfl hcall
  callers _ _ hcall := absurd rfl hcall
  calls := inBounds_init threads

theorem processInv_run {host : ι → Option ℕ} {threads : UInt32} {p : Process ι}
    {es : List (ProcessEvent ι)} (hrun : run (Process.step host) (Process.init threads) es = some p) :
    ProcessInv host p :=
  run_invariant (fun _ _ _ h _ hs => processInv_step h hs) (processInv_init host threads)
    (meets_of_forall (fun _ _ => trivial) _ es) hrun

end LuaRobot
