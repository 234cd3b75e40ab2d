import LuaRobot.Process
import Mathlib.Algebra.BigOperators.Group.Finset.Piecewise

/-!
# Stopping the process

`Server::run` goes straight on to `Server::wait`, which stops and joins the
workers one after another; a handler under way is let to its end, and those still
queued are destroyed with their worker, after the runs described here, though
`serviceNum` counts them.

Results:
1. `shutdown_quiescent`: when `Server::wait` has returned nothing runs any more.
2. `returned_frozen`: a worker whose thread has returned creates nothing more, also
   while requests are still posted to it.
3. `rank_step`, `closing_enabled`, `shutdown_terminates`: `Server::wait` returns
   if no request is made and no handler is begun any more, and every `init` returns.
4. `shutdown_accounts`: what was handled by then, and what is lost.
-/

namespace LuaRobot

open Runs PlacementLemmas ThreadsLemmas RequestsLemmas ProgressLemmas ProcessLemmas

/-! ## Definitions -/

/-- The first `Server::wait` has returned. -/
def Main.Waited : Main → Prop
  | .stopping .destructor _ | .joining .destructor _ | .ended => True
  | .constructing _ | .serving | .stopping .run _ | .joining .run _ => False

/-- The thread of worker `w` is past `ioCtx.run()`. -/
def ThreadState.Past (th : ThreadState) : Prop := th = .returned ∨ th = .joined

/-- A worker in a later state, all handlers over: nothing but its queue and its
counter may have changed. -/
structure Worker.Frozen (wk wk' : Worker) : Prop where
  serviceMap : wk'.serviceMap = wk.serviceMap
  genID : wk'.genID = wk.genID
  th : wk'.th = wk.th
  ioCtx : wk.ioCtx <+: wk'.ioCtx

/-- The actions that the main thread has left, a started thread counted twice. -/
def Main.rank (n : ℕ) : Main → ℕ
  | .ended => 0
  | .joining .destructor i => 2 * (n - i)
  | .stopping .destructor i => 2 * (n - i) + 1
  | .joining .run i => 2 * (n - i) + (2 * n + 1)
  | .stopping .run i => 2 * (n - i) + 1 + (2 * n + 1)
  | .serving => 4 * n + 3
  | .constructing i => 2 * (n - i) + (4 * n + 4)

/-- A server with one worker creates the first of two services that the main thread
asks for, and stops. -/
def stopAfterOne : List (ProcessEvent Unit) :=
  [.main, .main] ++ (twoRequests ++ [Event.finish 0 true]).map .system ++
    [.main, .main, .returns 0, .main, .main]

variable {ι : Type}

/-- The event neither makes a request nor begins a handler. -/
def ProcessEvent.Closing : ProcessEvent ι → Prop
  | .system (.request ..) | .system (.start ..) => False
  | _ => True

variable [DecidableEq ι] [Fintype ι]

def Process.callsLeft (p : Process ι) : ℕ := ∑ q, (p.system.calls q).rank p.size

def Process.handlersLeft (p : Process ι) : ℕ :=
  ∑ w ∈ Finset.range p.size, if p.system.server.Busy w then 1 else 0

def Process.threadsLeft (p : Process ι) : ℕ :=
  ∑ w ∈ Finset.range p.size, if p.th w = .running then 1 else 0

/-- The actions that are left if no request is made and no handler begun. -/
def Process.rank (p : Process ι) : ℕ :=
  p.callsLeft + p.handlersLeft + p.threadsLeft + p.main.rank p.size

/-! ## 1. After `Server::wait` -/

namespace ShutdownLemmas

variable {host : ι → Option ℕ} {p p' : Process ι}

omit [DecidableEq ι] [Fintype ι] in
theorem joined_of_waited (h : ProcessInv host p) (hm : p.main.Waited) {w : ℕ} (hw : w < p.size) :
    p.th w = .joined := by
  have hallows := h.threads w hw
  cases hmain : p.main with
  | constructing i | serving =>
    rw [hmain] at hm
    cases hm
  | ended =>
    rw [hmain] at hallows
    exact hallows
  | stopping waiter i | joining waiter i =>
    rw [hmain] at hm hallows
    cases waiter with
    | run => cases hm
    | destructor => exact hallows

omit [DecidableEq ι] [Fintype ι] in
theorem not_busy_of_waited (h : ProcessInv host p) (hm : p.main.Waited) (w : ℕ) :
    ¬ p.system.server.Busy w := fun hbusy =>
  absurd ((joined_of_waited h hm (busy_lt hbusy)).symm.trans (h.handlers w hbusy)) nofun

omit [DecidableEq ι] [Fintype ι] in
theorem quiescent_of_waited (h : ProcessInv host p) (hm : p.main.Waited) :
    p.system.Quiescent where
  calls q := by
    by_contra hcall
    cases hq : host q with
    | none =>
      rw [h.callers q hq hcall] at hm
      exact hm
    | some w => exact not_busy_of_waited h hm w (h.hosted q w hq hcall)
  handlers wk hwk := by
    obtain ⟨w, hw⟩ := List.mem_iff_getElem?.mp hwk
    rw [← Option.not_isSome_iff_eq_none]
    exact fun hbusy => not_busy_of_waited h hm w ⟨wk, hw, hbusy⟩

/-- The system has no event left. -/
theorem no_system_of_waited (h : ProcessInv host p) (hm : p.main.Waited) (e : Event ι) :
    p.step host (.system e) = none := by
  have hq := quiescent_of_waited h hm
  by_contra hsome
  obtain ⟨p', hs⟩ := Option.ne_none_iff_exists'.mp hsome
  obtain ⟨hpermits, system, hsystem, _⟩ := step_system.mp hs
  cases e with
  | request q option =>
    obtain ⟨⟨_, hbusy⟩, _⟩ := step_spec.mp hsystem
    cases hhost : host q with
    | none =>
      rw [hpermits hhost] at hm
      exact hm
    | some w => exact not_busy_of_waited h hm w (hbusy w hhost)
  | load q =>
    obtain ⟨_, _, _, _, hcall, _⟩ := step_spec.mp hsystem
    exact absurd ((hq.calls q).symm.trans hcall) nofun
  | choose q | fetchAdd q | post q =>
    obtain ⟨_, _, hcall, _⟩ := step_spec.mp hsystem
    exact absurd ((hq.calls q).symm.trans hcall) nofun
  | start w j =>
    obtain ⟨⟨wk, hw, _⟩, _⟩ := step_spec.mp hsystem
    have hlt : w < p.size := (List.getElem?_eq_some_iff.mp hw).1
    exact absurd ((joined_of_waited h hm hlt).symm.trans hpermits.1) nofun
  | finish w ok =>
    obtain ⟨⟨hbusy, _⟩, _⟩ := step_spec.mp hsystem
    exact not_busy_of_waited h hm w hbusy

theorem waited_step (h : ProcessInv host p) (hm : p.main.Waited) {e : ProcessEvent ι}
    (hs : p.step host e = some p') : p'.main.Waited ∧ p'.system = p.system := by
  cases e with
  | main =>
    refine ⟨?_, mainStep_system hs⟩
    cases mainStep_cases hs with
    | starts hmain | constructed hmain | runs hmain =>
      rw [hmain] at hm
      cases hm
    | @stops waiter i hmain | @waited waiter i hmain | @joins waiter i hmain | @skips waiter i hmain =>
      rw [hmain] at hm
      cases waiter with
      | run => cases hm
      | destructor => trivial
  | returns w =>
    obtain ⟨_, rfl⟩ := step_returns.mp hs
    exact ⟨hm, rfl⟩
  | system e =>
    rw [no_system_of_waited h hm e] at hs
    cases hs

theorem shutdown_silent {threads : UInt32} {es : List (ProcessEvent ι)}
    (hrun : run (Process.step host) (Process.init threads) es = some p) (hm : p.main.Waited) :
    p.system.Quiescent ∧ ∀ es' p', run (Process.step host) p es' = some p' →
      p'.system = p.system ∧ es'.filterMap ProcessEvent.system? = [] := by
  have hinv := processInv_run hrun
  refine ⟨quiescent_of_waited hinv hm, fun es' p' hrun' => ?_⟩
  clear hrun
  induction es' generalizing p with
  | nil =>
    cases hrun'
    exact ⟨rfl, rfl⟩
  | cons e es' ih =>
    obtain ⟨t, ht, hrest⟩ := Option.bind_eq_some_iff.mp hrun'
    obtain ⟨hm', hsys⟩ := waited_step hinv hm ht
    obtain ⟨hsys', hnil⟩ := ih hm' (processInv_step hinv ht) hrest
    refine ⟨hsys'.trans hsys, ?_⟩
    cases e with
    | main | returns w => exact hnil
    | system e =>
      rw [no_system_of_waited hinv hm e] at ht
      cases ht

end ShutdownLemmas

open ShutdownLemmas

/-- Once the first `Server::wait` has returned, no thread is inside a request, no
worker inside a handler, and whatever happens then, the destructor included, the
workers stay as they are. -/
theorem shutdown_quiescent {host : ι → Option ℕ} {threads : UInt32} {es : List (ProcessEvent ι)}
    {p : Process ι} (hrun : run (Process.step host) (Process.init threads) es = some p)
    (hm : p.main.Waited) :
    p.system.Quiescent ∧
      ∀ es' p', run (Process.step host) p es' = some p' → p'.system = p.system :=
  (shutdown_silent hrun hm).imp_right fun hkept es' p' hrun' => (hkept es' p' hrun').1

theorem shutdown_quiescent_one :
    ∃ p, run (Process.step fun _ => none) (Process.init 1) stopAfterOne = some p ∧
      p.main = .stopping .destructor 0 ∧ p.system.Quiescent := by
  obtain ⟨p, hrun, hm⟩ : ∃ p, run (Process.step fun _ => none) (Process.init 1) stopAfterOne =
      some p ∧ p.main = .stopping .destructor 0 := ⟨_, rfl, rfl⟩
  exact ⟨p, hrun, hm, (shutdown_quiescent hrun (by rw [hm]; trivial)).1⟩

/-! ## 2. A worker that has returned -/

namespace ShutdownLemmas

variable {host : ι → Option ℕ} {p p' : Process ι}

theorem frozen_refl (wk : Worker) : wk.Frozen wk := ⟨rfl, rfl, rfl, List.prefix_rfl⟩

theorem frozen_trans {wk wk' wk'' : Worker} (h : wk.Frozen wk') (h' : wk'.Frozen wk'') :
    wk.Frozen wk'' where
  serviceMap := h'.serviceMap.trans h.serviceMap
  genID := h'.genID.trans h.genID
  th := h'.th.trans h.th
  ioCtx := h.ioCtx.trans h'.ioCtx

/-- An update that changes nothing but the queue and the counter of its worker. -/
theorem frozen_update {s : Server} {v w : ℕ} {f : Worker → Worker}
    (hf : ∀ wk, (f wk).workerID = wk.workerID) (h : ∀ wk : Worker, w = v → wk.Frozen (f wk))
    {wk : Worker} (hwk : s.workerVec[w]? = some wk) :
    ∃ wk', (s.update v f hf).workerVec[w]? = some wk' ∧ wk.Frozen wk' := by
  rw [workerVec_update, hwk]
  rcases eq_or_ne v w with rfl | hne
  · exact ⟨f wk, by rw [Option.map_some, if_pos rfl], h wk rfl⟩
  · exact ⟨wk, by rw [Option.map_some, if_neg hne], frozen_refl wk⟩

/-- No event of the system runs a handler on a worker whose thread has returned. -/
theorem frozen_system {w : ℕ} {wk : Worker} {e : Event ι} (h : ProcessInv host p)
    (hth : (p.th w).Past) (hs : p.step host (.system e) = some p')
    (hwk : p.system.server.workerVec[w]? = some wk) :
    ∃ wk', p'.system.server.workerVec[w]? = some wk' ∧ wk.Frozen wk' := by
  have hnot : p.th w ≠ .running := by
    rcases hth with hth | hth <;> rw [hth] <;> nofun
  obtain ⟨hpermits, system, hsystem, rfl⟩ := step_system.mp hs
  cases e with
  | request q option | load q | choose q =>
    rw [← server_of_readsOnly hsystem trivial] at hwk
    exact ⟨wk, hwk, frozen_refl wk⟩
  | fetchAdd q =>
    obtain ⟨_, v, _, rfl⟩ := step_spec.mp hsystem
    exact frozen_update fetchAdd_workerID (fun wk _ => ⟨rfl, rfl, rfl, List.prefix_rfl⟩) hwk
  | post q =>
    obtain ⟨option, v, _, rfl⟩ := step_spec.mp hsystem
    exact frozen_update (post_workerID option)
      (fun wk _ => ⟨rfl, rfl, rfl, List.prefix_append ..⟩) hwk
  | start v j =>
    obtain ⟨_, rfl⟩ := step_spec.mp hsystem
    refine frozen_update (startHandler_workerID j) (fun wk hv => ?_) hwk
    subst hv
    exact absurd hpermits.1 hnot
  | finish v ok =>
    obtain ⟨⟨hbusy, _⟩, rfl⟩ := step_spec.mp hsystem
    refine frozen_update (finishHandler_workerID ok) (fun wk hv => ?_) hwk
    subst hv
    exact absurd (h.handlers w hbusy) hnot

/-- A thread that has returned is not started again. -/
theorem past_step {w : ℕ} {e : ProcessEvent ι} (h : ProcessInv host p)
    (hth : (p.th w).Past) (hs : p.step host e = some p') : (p'.th w).Past := by
  cases e with
  | main =>
    cases mainStep_cases hs with
    | @starts i hm hi =>
      have hne : w ≠ i := by
        rintro rfl
        have hallows := (allows_of_lt h hm hi).1
        rw [if_neg (lt_irrefl w)] at hallows
        rcases hth with hth | hth <;> exact absurd (hth.symm.trans hallows) nofun
      simpa only [Function.update_of_ne hne] using hth
    | constructed | runs | stops | waited | skips => exact hth
    | @joins waiter i hm hret =>
      rcases eq_or_ne w i with rfl | hne
      · exact Or.inr (Function.update_self ..)
      · simpa only [Function.update_of_ne hne] using hth
  | returns v =>
    obtain ⟨_, rfl⟩ := step_returns.mp hs
    rcases eq_or_ne w v with rfl | hne
    · exact Or.inl (Function.update_self ..)
    · simpa only [Function.update_of_ne hne] using hth
  | system e =>
    obtain ⟨_, _, _, rfl⟩ := step_system.mp hs
    exact hth

end ShutdownLemmas

/-- When the thread of a worker has returned, its services, its numbering and its
queue up to there stay as they are for good. Later requests may still be put on
the queue, by the scripts of the workers that `Server::wait` has not come to. -/
theorem returned_frozen {host : ι → Option ℕ} {threads : UInt32} {es es' : List (ProcessEvent ι)}
    {p p' : Process ι} (hrun : run (Process.step host) (Process.init threads) es = some p)
    (hrun' : run (Process.step host) p es' = some p') (w : ℕ) (wk : Worker)
    (hwk : p.system.server.workerVec[w]? = some wk) (hth : (p.th w).Past) :
    wk.th = none ∧ ∃ wk', p'.system.server.workerVec[w]? = some wk' ∧ wk.Frozen wk' := by
  have hinv := processInv_run hrun
  refine ⟨?_, ?_⟩
  · rw [← Option.not_isSome_iff_eq_none]
    intro hbusy
    have hrunning := hinv.handlers w ⟨wk, hwk, hbusy⟩
    rcases hth with hth | hth <;> exact absurd (hth.symm.trans hrunning) nofun
  · have hkept : ProcessInv host p' ∧ (p'.th w).Past ∧
        ∃ wk', p'.system.server.workerVec[w]? = some wk' ∧ wk.Frozen wk' := by
      refine run_invariant (I := fun t => ProcessInv host t ∧ (t.th w).Past ∧
          ∃ wk', t.system.server.workerVec[w]? = some wk' ∧ wk.Frozen wk')
        (fun t e t' ⟨hinv, hth, wk₁, hwk₁, hfrozen⟩ _ hs => ?_)
        ⟨hinv, hth, wk, hwk, frozen_refl wk⟩ (meets_of_forall (fun _ _ => trivial) p es') hrun'
      refine ⟨processInv_step hinv hs, past_step hinv hth hs, ?_⟩
      cases e with
      | main =>
        rw [mainStep_system hs]
        exact ⟨wk₁, hwk₁, hfrozen⟩
      | returns v =>
        obtain ⟨_, rfl⟩ := step_returns.mp hs
        exact ⟨wk₁, hwk₁, hfrozen⟩
      | system e =>
        obtain ⟨wk₂, hwk₂, hfrozen'⟩ := frozen_system hinv hth hs hwk₁
        exact ⟨wk₂, hwk₂, frozen_trans hfrozen hfrozen'⟩
    exact hkept.2.2

/-- From the return of the thread on. -/
theorem returned_frozen_one :
    ∃ p wk, run (Process.step fun _ => none) (Process.init 1) (stopAfterOne.take 17) = some p ∧
      p.system.server.workerVec[0]? = some wk ∧ p.th 0 = .returned ∧ wk.th = none := by
  obtain ⟨p, wk, p', hrun, hrun', hwk, hth⟩ : ∃ p wk p',
      run (Process.step fun _ => none) (Process.init 1) (stopAfterOne.take 17) = some p ∧
        run (Process.step fun _ => none) p (stopAfterOne.drop 17) = some p' ∧
        p.system.server.workerVec[0]? = some wk ∧ p.th 0 = .returned :=
    ⟨_, _, _, rfl, rfl, rfl, rfl⟩
  exact ⟨p, wk, hrun, hwk, hth, (returned_frozen hrun hrun' 0 wk hwk (Or.inl hth)).1⟩

/-! ## 3. `Server::wait` returns -/

namespace ShutdownLemmas

variable {host : ι → Option ℕ} {p p' : Process ι}

/-- Of a sum over the workers one term becomes smaller. -/
theorem sum_range_lt {n w : ℕ} {f g : ℕ → ℕ} (hw : w < n) (hlt : f w < g w)
    (hother : ∀ v, v ≠ w → f v = g v) :
    ∑ v ∈ Finset.range n, f v < ∑ v ∈ Finset.range n, g v := by
  refine Finset.sum_lt_sum (fun v _ => ?_) ⟨w, Finset.mem_range.mpr hw, hlt⟩
  rcases eq_or_ne v w with rfl | hne
  · exact hlt.le
  · exact (hother v hne).le

theorem sum_range_le {n w : ℕ} {f g : ℕ → ℕ} (hother : ∀ v, v ≠ w → f v = g v) :
    ∑ v ∈ Finset.range n, f v ≤ ∑ v ∈ Finset.range n, g v + f w := by
  calc ∑ v ∈ Finset.range n, f v
      ≤ ∑ v ∈ Finset.range n, (g v + if v = w then f w else 0) := by
        refine Finset.sum_le_sum fun v _ => ?_
        rcases eq_or_ne v w with rfl | hne
        · rw [if_pos rfl]
          exact Nat.le_add_left ..
        · rw [hother v hne]
          exact Nat.le_add_right ..
    _ = ∑ v ∈ Finset.range n, g v + ∑ v ∈ Finset.range n, if v = w then f w else 0 :=
        Finset.sum_add_distrib
    _ ≤ ∑ v ∈ Finset.range n, g v + f w := by
        refine Nat.add_le_add_left ?_ _
        rw [Finset.sum_ite_eq']
        exact (ite_le_sup _ _ _).trans_eq (Nat.max_eq_left (Nat.zero_le _))

omit [DecidableEq ι] in
/-- An event of the system leaves the threads and the main thread where they are. -/
theorem rank_system {system : System ι} (hlen : system.server.workerVec.length = p.size)
    (hlt : ∑ q, (system.calls q).rank p.size +
        (∑ w ∈ Finset.range p.size, if system.server.Busy w then 1 else 0) <
      p.callsLeft + p.handlersLeft) :
    Process.rank { p with system } < p.rank := by
  have hsize : Process.size { p with system } = p.size := hlen
  have hrank : Process.rank { p with system } = ∑ q, (system.calls q).rank p.size +
      (∑ w ∈ Finset.range p.size, if system.server.Busy w then 1 else 0) + p.threadsLeft +
        p.main.rank p.size := by
    unfold Process.rank Process.callsLeft Process.handlersLeft Process.threadsLeft
    rw [hsize]
  rw [hrank]
  exact Nat.add_lt_add_right (Nat.add_lt_add_right hlt _) _

omit [DecidableEq ι] in
/-- What is left of the threads and of the main thread becomes less. -/
theorem rank_threads {th : ℕ → ThreadState} {stopped : ℕ → Bool} {m : Main}
    (hlt : (∑ w ∈ Finset.range p.size, if th w = .running then 1 else 0) + m.rank p.size <
      p.threadsLeft + p.main.rank p.size) :
    Process.rank { p with stopped := stopped, th := th, main := m } < p.rank :=
  calc Process.rank { p with stopped := stopped, th := th, main := m }
      = p.callsLeft + p.handlersLeft +
          ((∑ w ∈ Finset.range p.size, if th w = .running then 1 else 0) + m.rank p.size) :=
        Nat.add_assoc ..
    _ < p.callsLeft + p.handlersLeft + (p.threadsLeft + p.main.rank p.size) :=
        Nat.add_lt_add_left hlt _
    _ = p.rank := (Nat.add_assoc ..).symm

omit [DecidableEq ι] in
theorem rank_mainStep (h : ProcessInv host p) (hs : p.mainStep host = some p') :
    p'.rank < p.rank := by
  cases mainStep_cases hs with
  | @starts i hm hi =>
    refine rank_threads ?_
    have hthreads := sum_range_le (n := p.size) (w := i)
      (f := fun w => if Function.update p.th i .running w = .running then 1 else 0)
      (g := fun w => if p.th w = .running then 1 else 0)
      fun v hne => by simp only [Function.update_of_ne hne]
    simp only [Function.update_self, if_true] at hthreads
    rw [hm]
    simp only [Main.rank, Process.threadsLeft]
    omega
  | @constructed i hm hi =>
    refine rank_threads (Nat.add_lt_add_left ?_ _)
    rw [hm]
    simp only [Main.rank]
    omega
  | runs hm =>
    refine rank_threads (Nat.add_lt_add_left ?_ _)
    rw [hm]
    simp only [Main.rank]
    omega
  | @stops waiter i hm hi =>
    refine rank_threads (Nat.add_lt_add_left ?_ _)
    rw [hm]
    cases waiter <;> simp only [Main.rank] <;> omega
  | @waited waiter i hm hi =>
    refine rank_threads (Nat.add_lt_add_left ?_ _)
    rw [hm]
    cases waiter <;> simp only [Main.rank, Process.afterWait] <;> omega
  | @joins waiter i hm hret =>
    have hi := h.joining waiter i hm
    refine rank_threads (Nat.add_lt_add_of_le_of_lt (Nat.le_of_eq ?_) ?_)
    · refine Finset.sum_congr rfl fun w _ => ?_
      rcases eq_or_ne w i with rfl | hne
      · rw [Function.update_self, hret]
        rfl
      · rw [Function.update_of_ne hne]
    · rw [hm]
      cases waiter <;> simp only [Main.rank] <;> omega
  | @skips waiter i hm hrunning hreturned =>
    have hi := h.joining waiter i hm
    refine rank_threads (Nat.add_lt_add_left ?_ _)
    rw [hm]
    cases waiter <;> simp only [Main.rank] <;> omega

theorem not_busy_finish (s : Server) (w : ℕ) (ok : Bool) :
    ¬ (s.update w (·.finishHandler ok) (finishHandler_workerID ok)).Busy w := by
  rintro ⟨wk', hwk', hbusy⟩
  rw [workerVec_update] at hwk'
  obtain ⟨wk, _, rfl⟩ := Option.map_eq_some_iff.mp hwk'
  rw [if_pos rfl] at hbusy
  cases hc : wk.th with
  | none =>
    have hkept : wk.finishHandler ok = wk := by simp only [Worker.finishHandler, hc]
    rw [hkept, hc] at hbusy
    cases hbusy
  | some c =>
    rw [finishHandler_eq ok hc] at hbusy
    cases hbusy

/-- With no call and no handler under way the main thread goes on, or the thread
goes that it is to join. -/
theorem main_enabled (h : ProcessInv host p) (hm : p.main ≠ .ended)
    (hcalls : ∀ q, p.system.calls q = .idle) (hbusy : ∀ w, ¬ p.system.server.Busy w) :
    ∃ e p', ProcessEvent.Closing e ∧ p.step host e = some p' := by
  have hmain : (p.mainStep host).isSome →
      ∃ e p', ProcessEvent.Closing e ∧ p.step host e = some p' := fun hs =>
    (Option.isSome_iff_exists.mp hs).elim fun p' hs => ⟨.main, p', trivial, hs⟩
  cases hp : p.main with
  | ended => exact absurd hp hm
  | constructing i =>
    rcases Nat.lt_or_ge i p.size with hi | hi
    · exact hmain (by simp only [Process.mainStep, hp, if_pos hi, Option.isSome_some])
    · exact hmain (by simp only [Process.mainStep, hp, if_neg hi.not_gt, Option.isSome_some])
  | serving =>
    exact hmain (by simp only [Process.mainStep, hp, hcalls, implies_true, if_true, Option.isSome_some])
  | stopping waiter i =>
    rcases Nat.lt_or_ge i p.size with hi | hi
    · exact hmain (by simp only [Process.mainStep, hp, if_pos hi, Option.isSome_some])
    · exact hmain (by simp only [Process.mainStep, hp, if_neg hi.not_gt, Option.isSome_some])
  | joining waiter i =>
    have hi := h.joining waiter i hp
    cases hth : p.th i with
    | notStarted | returned | joined =>
      exact hmain (by simp only [Process.mainStep, hp, hth, Option.isSome_some])
    | running =>
      refine ⟨.returns i, _, trivial, step_returns.mpr ⟨⟨hi, hth, ?_, hbusy i⟩, rfl⟩⟩
      have hallows := allows_of_lt h hp hi
      cases waiter with
      | destructor => exact absurd (hth.symm.trans hallows) nofun
      | run =>
        simp only [Main.Allows, if_neg (lt_irrefl i), if_true] at hallows
        exact hallows.2

end ShutdownLemmas

open ShutdownLemmas

theorem rank_step {host : ι → Option ℕ} {p p' : Process ι} {e : ProcessEvent ι}
    (h : ProcessInv host p) (he : e.Closing) (hs : p.step host e = some p') :
    p'.rank < p.rank := by
  cases e with
  | main => exact rank_mainStep h hs
  | returns w =>
    obtain ⟨⟨hw, hrun, _, _⟩, rfl⟩ := step_returns.mp hs
    refine rank_threads (Nat.add_lt_add_right (sum_range_lt hw ?_ fun v hne => ?_) _)
    · rw [Function.update_self, hrun]
      exact Nat.zero_lt_one
    · rw [Function.update_of_ne hne]
  | system e =>
    obtain ⟨_, system, hsystem, rfl⟩ := step_system.mp hs
    cases e with
    | request q option | start w j => cases he
    | load q | choose q | fetchAdd q | post q =>
      obtain ⟨hlt, hother⟩ := rank_caller rfl hsystem
      refine rank_system (length_step hsystem) (Nat.add_lt_add_of_lt_of_le
        (sum_calls_lt hlt hother) (Nat.le_of_eq (Finset.sum_congr rfl fun w _ => ?_)))
      exact if_congr (busy_caller rfl hsystem w) rfl rfl
    | finish w ok =>
      obtain ⟨⟨hbusy, _⟩, rfl⟩ := step_spec.mp hsystem
      have hlen := update_length p.system.server w _ (finishHandler_workerID ok)
      refine rank_system hlen (Nat.add_lt_add_left (sum_range_lt (busy_lt hbusy) ?_ ?_) _)
      · rw [if_pos hbusy, if_neg (not_busy_finish p.system.server w ok)]
        exact Nat.zero_lt_one
      · intro v hne
        exact if_congr (busy_congr (th_update_of_ne _ (finishHandler_workerID ok) hne)) rfl rfl

/-- Until the destructor has waited there is something left to do that neither makes
a request nor begins a handler. -/
theorem closing_enabled {host : ι → Option ℕ} {p : Process ι} (h : ProcessInv host p)
    (hm : p.main ≠ .ended) : ∃ e p', ProcessEvent.Closing e ∧ p.step host e = some p' := by
  have hsystem : ∀ e system, (ProcessEvent.system e).Closing → p.Permits host e →
      LuaRobot.step host p.system e = some system →
      ∃ e p', ProcessEvent.Closing e ∧ p.step host e = some p' :=
    fun e system he hpermits hs =>
      ⟨.system e, _, he, step_system.mpr ⟨hpermits, system, hs, rfl⟩⟩
  by_cases hcalls : ∀ q, p.system.calls q = .idle
  · by_cases hbusy : ∃ w, p.system.server.Busy w
    · obtain ⟨w, hw⟩ := hbusy
      exact hsystem (.finish w true) _ trivial trivial
        (step_spec.mpr ⟨⟨hw, fun q _ => hcalls q⟩, rfl⟩)
    · exact main_enabled h hm hcalls (not_exists.mp hbusy)
  · obtain ⟨q, hq⟩ := not_forall.mp hcalls
    obtain ⟨e, system, he, hs⟩ := caller_enabled host h.calls hq
    cases e with
    | request r option | start w j | finish w ok => cases he
    | load r | choose r | fetchAdd r | post r => exact hsystem _ system (by trivial) (by trivial) hs

/-- From every state of the process, if every `init` returns: while no request is made
and no handler is begun, at most `p.rank` more events happen, one is possible until
the destructor has waited, and that is where it ends. -/
theorem shutdown_terminates {host : ι → Option ℕ} {threads : UInt32} {p : Process ι}
    {es : List (ProcessEvent ι)} (hrun : run (Process.step host) (Process.init threads) es = some p) :
    (∀ es' p', (∀ e ∈ es', ProcessEvent.Closing e) → run (Process.step host) p es' = some p' →
      es'.length ≤ p.rank ∧
        (p'.main ≠ .ended → ∃ e, ProcessEvent.Closing e ∧ (p'.step host e).isSome)) ∧
    ∃ es' p', (∀ e ∈ es', ProcessEvent.Closing e) ∧ run (Process.step host) p es' = some p' ∧
      p'.main = .ended := by
  have hinv := processInv_run hrun
  have hstep : ∀ t e t', ProcessInv host t → ProcessEvent.Closing e → t.step host e = some t' →
      ProcessInv host t' ∧ t'.rank < t.rank :=
    fun _ _ _ ht he hs => ⟨processInv_step ht hs, rank_step ht he hs⟩
  refine ⟨fun es' p' hclosing hrun' => ⟨?_, fun hm => ?_⟩, ?_⟩
  · exact Nat.le_of_add_right_le (length_le_of_rank hstep hinv hclosing hrun')
  · have hinv' : ProcessInv host p' := run_invariant
      (fun _ _ _ h _ hs => processInv_step h hs) hinv (meets_of_forall (fun _ _ => trivial) p es') hrun'
    obtain ⟨e, p'', he, hs⟩ := closing_enabled hinv' hm
    exact ⟨e, he, hs ▸ rfl⟩
  · have henabled : ∀ t, ProcessInv host t → ¬ t.main = .ended → ∃ e t',
        ProcessEvent.Closing e ∧ t.step host e = some t' ∧ ProcessInv host t' ∧ t'.rank < t.rank := by
      intro t ht hm
      obtain ⟨e, t', he, hs⟩ := closing_enabled ht hm
      exact ⟨e, t', he, hs, hstep t e t' ht he hs⟩
    exact exists_run_to henabled hinv

/-- From inside the first handler on. -/
theorem shutdown_terminates_one :
    ∃ p, run (Process.step fun _ => none) (Process.init 1) (stopAfterOne.take 13) = some p ∧
      p.system.server.Busy 0 ∧ ∃ es' p', (∀ e ∈ es', ProcessEvent.Closing e) ∧
        run (Process.step fun _ => none) p es' = some p' ∧ p'.main = .ended := by
  obtain ⟨p, hrun, hbusy⟩ : ∃ p,
      run (Process.step fun _ => none) (Process.init 1) (stopAfterOne.take 13) = some p ∧
        p.system.server.Busy 0 := ⟨_, rfl, _, rfl, rfl⟩
  exact ⟨p, hrun, hbusy, (shutdown_terminates hrun).2⟩

/-! ## 4. What is left -/

/-- When the first `Server::wait` has returned, each worker has accepted what it has
handled and what is left on its queue. Nothing is ever accepted or handled after
that, so the rest is lost; `serviceNum` still counts it. -/
theorem shutdown_accounts {host : ι → Option ℕ} {threads : UInt32} {es es' : List (ProcessEvent ι)}
    {p p' : Process ι} (hrun : run (Process.step host) (Process.init threads) es = some p)
    (hm : p.main.Waited) (hrun' : run (Process.step host) p es' = some p') (w : ℕ) (wk : Worker)
    (hwk : p'.system.server.workerVec[w]? = some wk) :
    let log := records threads host ((es ++ es').filterMap ProcessEvent.system?)
    log = records threads host (es.filterMap ProcessEvent.system?) ∧
      (accepted w log).Perm (handled w log ++ wk.ioCtx) ∧
      wk.serviceNum = UInt32.ofNat ((handled w log).length + wk.ioCtx.length) := by
  intro log
  obtain ⟨hquiet, hkept⟩ := shutdown_silent hrun hm
  obtain ⟨hsys, hnone⟩ := hkept es' p' hrun'
  have hlog : log = records threads host (es.filterMap ProcessEvent.system?) := by
    simp only [log, List.filterMap_append, hnone, List.append_nil]
  have hsystem := process_refines hrun
  rw [hsys] at hwk
  have hpending : wk.pending = wk.ioCtx := by
    unfold Worker.pending
    rw [hquiet.handlers wk (List.mem_of_getElem? hwk)]
    rfl
  have hposting : p.system.posting w = 0 :=
    Finset.sum_eq_zero fun q _ => by rw [hquiet.calls q]; rfl
  have haccepted := tracked_run hsystem w wk hwk
  rw [hpending] at haccepted
  refine ⟨hlog, ?_, ?_⟩
  · rw [hlog]
    exact haccepted
  · rw [hlog, ← List.length_append, ← haccepted.length_eq]
    have hnum := counted_run hsystem w wk hwk
    rwa [hposting, Nat.zero_add] at hnum

theorem shutdown_accounts_one :
    ∃ p wk, run (Process.step fun _ => none) (Process.init 1) stopAfterOne = some p ∧
      p.system.server.workerVec[0]? = some wk ∧ wk.ioCtx = [{ luaFile := [98] }] ∧
      (accepted 0 (records 1 (fun _ => none)
        (stopAfterOne.filterMap ProcessEvent.system?))).Perm
        (handled 0 (records 1 (fun _ => none)
          (stopAfterOne.filterMap ProcessEvent.system?)) ++ [{ luaFile := [98] }]) := by
  obtain ⟨p, wk, hrun, hm, hwk, hleft⟩ : ∃ p wk,
      run (Process.step fun _ => none) (Process.init 1) stopAfterOne = some p ∧
        p.main = .stopping .destructor 0 ∧ p.system.server.workerVec[0]? = some wk ∧
        wk.ioCtx = [{ luaFile := [98] }] := ⟨_, _, rfl, rfl, rfl, rfl⟩
  have h := shutdown_accounts hrun (by rw [hm]; trivial) (run_nil p) 0 wk hwk
  rw [List.append_nil, hleft] at h
  exact ⟨p, wk, hrun, hwk, hleft, h.2.1⟩

end LuaRobot
