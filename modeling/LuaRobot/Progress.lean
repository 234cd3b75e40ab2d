import LuaRobot.Requests
import Mathlib.Algebra.Order.BigOperators.Group.Finset

/-!
# Progress of the requests and of the handlers

Nothing in `Server::newService` waits for another thread, and a handler waits only
for the requests of its own script. So a request returns after a bounded number of
its own actions, and a server that gets no further request comes to rest with every
queue empty, under every schedule. Three things are assumed here: `asio::post`, which
takes a mutex, is one action that is always possible; a worker that is inside no
handler can take a queued one; and the `init` of every script returns, so that
`finish` is possible in each handler.

Results:
1. `inBounds_run`: no call ever leaves the vector.
2. `newService_wait_free`: the bound of a call in its own actions.
3. `drain_step`, `drain_enabled`, `drain_terminates`: the queues are served to the end.
-/

namespace LuaRobot

open Runs PlacementLemmas ThreadsLemmas AccountingLemmas RequestsLemmas

/-! ## Definitions -/

/-- The actions that a call has left on a server with `n` workers. -/
def Call.rank (n : ℕ) : Call → ℕ
  | .idle => 0
  | .post .. => 1
  | .fetchAdd .. => 2
  | .scan _ i _ => n - i + 3

/-- The actions that the handlers of a worker have left. -/
def Worker.left (wk : Worker) : ℕ := wk.th.toList.length + 2 * wk.ioCtx.length

variable {ι : Type}

/-- The thread whose call the event is an action of. -/
def Event.caller? : Event ι → Option ι
  | .load p | .choose p | .fetchAdd p | .post p => some p
  | .request .. | .start .. | .finish .. => none

def Event.IsRequest : Event ι → Prop
  | .request .. => True
  | .load _ | .choose _ | .fetchAdd _ | .post _ | .start .. | .finish .. => False

/-- No call reaches past the end of the vector. -/
structure System.InBounds (s : System ι) : Prop where
  scan : ∀ p option i acc, s.calls p = .scan option i acc → i ≤ s.server.workerVec.length
  worker : ∀ p, (s.calls p).InRange s.server.workerVec.length

/-- Nothing is under way, and nothing is queued. -/
structure System.Drained (s : System ι) : Prop where
  quiescent : s.Quiescent
  queues : ∀ wk ∈ s.server.workerVec, wk.ioCtx = []

/-- The actions that are left if no request is made any more. An `asio::post` leaves
two for the worker. -/
def System.rank [Fintype ι] (s : System ι) : ℕ :=
  3 * ∑ p, (s.calls p).rank s.server.workerVec.length + (s.server.workerVec.map Worker.left).sum

variable [DecidableEq ι] [Fintype ι]

/-! ## 1. The bounds of the calls -/

namespace ProgressLemmas

variable {s s' : System ι} {p : ι} {c : Call} {server : Server}

omit [Fintype ι] in
theorem scan_move (h : s.InBounds) (hlen : server.workerVec.length = s.server.workerVec.length)
    (hc : ∀ option i acc, c = .scan option i acc → i ≤ s.server.workerVec.length) :
    ∀ q option i acc, (s.move p c server).calls q = .scan option i acc →
      i ≤ (s.move p c server).server.workerVec.length := by
  intro q option i acc hq
  refine Nat.le_trans ?_ hlen.ge
  rcases eq_or_ne q p with rfl | hne
  · rw [move_calls_self] at hq
    exact hc option i acc hq
  · rw [move_calls_of_ne _ _ _ hne] at hq
    exact h.scan q option i acc hq

theorem scan_step {host : ι → Option ℕ} {e : Event ι} (h : s.InBounds)
    (hs : step host s e = some s') :
    ∀ q option i acc, s'.calls q = .scan option i acc → i ≤ s'.server.workerVec.length := by
  cases e with
  | request p option =>
    obtain ⟨_, rfl⟩ := step_spec.mp hs
    refine scan_move h rfl fun o i acc henter => ?_
    unfold Server.enter at henter
    split at henter
    · cases henter
    · cases henter
      exact Nat.zero_le _
  | load p =>
    obtain ⟨option, i, acc, w, _, hw, rfl⟩ := step_spec.mp hs
    refine scan_move h rfl ?_
    rintro _ _ _ ⟨⟩
    exact (List.getElem?_eq_some_iff.mp hw).1
  | choose p =>
    obtain ⟨option, acc, _, rfl⟩ := step_spec.mp hs
    refine scan_move h rfl fun o i acc' hafter => ?_
    unfold afterScan at hafter
    split at hafter <;> cases hafter
  | fetchAdd p =>
    obtain ⟨option, w, _, rfl⟩ := step_spec.mp hs
    exact scan_move h (update_length _ _ _ fetchAdd_workerID) nofun
  | post p =>
    obtain ⟨option, w, _, rfl⟩ := step_spec.mp hs
    exact scan_move h (update_length _ _ _ (post_workerID option)) nofun
  | start w j =>
    obtain ⟨_, rfl⟩ := step_spec.mp hs
    exact fun q option i acc hq =>
      (h.scan q option i acc hq).trans_eq (update_length _ _ _ (startHandler_workerID j)).symm
  | finish w ok =>
    obtain ⟨_, rfl⟩ := step_spec.mp hs
    exact fun q option i acc hq =>
      (h.scan q option i acc hq).trans_eq (update_length _ _ _ (finishHandler_workerID ok)).symm

end ProgressLemmas

open ProgressLemmas

theorem inBounds_step {host : ι → Option ℕ} {s s' : System ι} {e : Event ι} (h : s.InBounds)
    (hs : step host s e = some s') : s'.InBounds :=
  ⟨scan_step h hs, inRange_step hs h.worker⟩

omit [DecidableEq ι] [Fintype ι] in
theorem inBounds_init (threads : UInt32) : (System.init threads : System ι).InBounds := by
  refine ⟨?_, fun p => trivial⟩
  rintro p option i acc ⟨⟩

theorem inBounds_run {threads : UInt32} {host : ι → Option ℕ} {es : List (Event ι)} {s : System ι}
    (hrun : run (step host) (System.init threads) es = some s) : s.InBounds :=
  run_invariant (fun _ _ _ h _ hs => inBounds_step h hs) (inBounds_init threads)
    (meets_of_forall (fun _ _ => trivial) _ es) hrun

/-! ## 2. One call -/

namespace ProgressLemmas

theorem rank_le (n : ℕ) (c : Call) : c.rank n ≤ n + 3 := by
  cases c with
  | idle => exact Nat.zero_le _
  | scan option i acc => exact Nat.add_le_add_right (Nat.sub_le n i) 3
  | fetchAdd option w | post option w => simp only [Call.rank]; omega

theorem rank_eq_zero {n : ℕ} {c : Call} (h : c.rank n = 0) : c = .idle := by
  cases c with
  | idle => rfl
  | scan option i acc | fetchAdd option w | post option w => cases h

/-- An action of a call takes it one further. -/
theorem rank_caller {host : ι → Option ℕ} {s s' : System ι} {p : ι} {e : Event ι}
    (he : e.caller? = some p) (hs : step host s e = some s') :
    (s'.calls p).rank s.server.workerVec.length < (s.calls p).rank s.server.workerVec.length ∧
      ∀ q, q ≠ p → s'.calls q = s.calls q := by
  have hmove : ∀ (c : Call) (server : Server),
      c.rank s.server.workerVec.length < (s.calls p).rank s.server.workerVec.length →
      ((s.move p c server).calls p).rank s.server.workerVec.length <
        (s.calls p).rank s.server.workerVec.length ∧
        ∀ q, q ≠ p → (s.move p c server).calls q = s.calls q :=
    fun c server hlt => ⟨by rwa [move_calls_self], fun q => move_calls_of_ne s c server⟩
  cases e with
  | request q option | start w j | finish w ok => cases he
  | load q =>
    cases he
    obtain ⟨option, i, acc, wk, hp, hwk, rfl⟩ := step_spec.mp hs
    have hi := (List.getElem?_eq_some_iff.mp hwk).1
    refine hmove _ _ ?_
    rw [hp]
    simp only [Call.rank]
    omega
  | choose q =>
    cases he
    obtain ⟨option, acc, hp, rfl⟩ := step_spec.mp hs
    refine hmove _ _ ?_
    rw [hp]
    unfold afterScan
    split <;> simp only [Call.rank] <;> omega
  | fetchAdd q =>
    cases he
    obtain ⟨option, w, hp, rfl⟩ := step_spec.mp hs
    refine hmove _ _ ?_
    rw [hp]
    exact Nat.lt_succ_self 1
  | post q =>
    cases he
    obtain ⟨option, w, hp, rfl⟩ := step_spec.mp hs
    refine hmove _ _ ?_
    rw [hp]
    exact Nat.lt_succ_self 0

/-- The handlers leave the calls alone. -/
theorem calls_handler {host : ι → Option ℕ} {s s' : System ι} {e : Event ι}
    (hreq : ¬ e.IsRequest) (he : e.caller? = none) (hs : step host s e = some s') :
    s'.calls = s.calls := by
  cases e with
  | request p option => exact absurd trivial hreq
  | load p | choose p | fetchAdd p | post p => cases he
  | start w j | finish w ok =>
    obtain ⟨_, rfl⟩ := step_spec.mp hs
    rfl

/-- What an event that is not its request leaves of the call of `p`. -/
theorem rank_call {host : ι → Option ℕ} {s s' : System ι} {p : ι} {e : Event ι}
    (hreq : ∀ option, e ≠ .request p option) (hs : step host s e = some s') :
    (s'.calls p).rank s.server.workerVec.length ≤ (s.calls p).rank s.server.workerVec.length ∧
      (e.caller? = some p →
        (s'.calls p).rank s.server.workerVec.length <
          (s.calls p).rank s.server.workerVec.length) := by
  have hkept : s'.calls p = s.calls p → e.caller? ≠ some p →
      (s'.calls p).rank s.server.workerVec.length ≤ (s.calls p).rank s.server.workerVec.length ∧
      (e.caller? = some p → (s'.calls p).rank s.server.workerVec.length <
        (s.calls p).rank s.server.workerVec.length) :=
    fun heq hne => ⟨Nat.le_of_eq (by rw [heq]), fun he => absurd he hne⟩
  cases hcaller : e.caller? with
  | some q =>
    obtain ⟨hlt, hother⟩ := rank_caller hcaller hs
    rcases eq_or_ne p q with rfl | hne
    · exact ⟨hlt.le, fun _ => hlt⟩
    · rw [hcaller] at hkept
      exact hkept (hother p hne) fun h => hne (Option.some.inj h).symm
  | none =>
    rw [hcaller] at hkept
    refine hkept ?_ nofun
    cases e with
    | request q option =>
      obtain ⟨_, rfl⟩ := step_spec.mp hs
      exact move_calls_of_ne _ _ _ fun heq => hreq option (heq ▸ rfl)
    | load q | choose q | fetchAdd q | post q => cases hcaller
    | start w j | finish w ok => rw [calls_handler id hcaller hs]

/-- A thread in a call is never blocked. -/
theorem caller_enabled (host : ι → Option ℕ) {s : System ι} (h : s.InBounds) {p : ι}
    (hp : s.calls p ≠ .idle) : ∃ e s', e.caller? = some p ∧ step host s e = some s' := by
  cases hcall : s.calls p with
  | idle => exact absurd hcall hp
  | scan option i acc =>
    rcases Nat.lt_or_eq_of_le (h.scan p option i acc hcall) with hlt | heq
    · exact ⟨.load p, _, rfl,
        step_spec.mpr ⟨option, i, acc, _, hcall, List.getElem?_eq_getElem hlt, rfl⟩⟩
    · rw [heq] at hcall
      exact ⟨.choose p, _, rfl, step_spec.mpr ⟨option, acc, hcall, rfl⟩⟩
  | fetchAdd option w => exact ⟨.fetchAdd p, _, rfl, step_spec.mpr ⟨option, w, hcall, rfl⟩⟩
  | post option w => exact ⟨.post p, _, rfl, step_spec.mpr ⟨option, w, hcall, rfl⟩⟩

end ProgressLemmas

/-- If `asio::post` is one action that is always possible, a thread inside
`Server::newService` is blocked in no reachable state, and is out of the call after at
most `threads + 3` actions of its own, whatever the other threads and the workers do
in between. -/
theorem newService_wait_free {threads : UInt32} {host : ι → Option ℕ} {es : List (Event ι)}
    {s : System ι} (hrun : run (step host) (System.init threads) es = some s) (p : ι)
    (hp : s.calls p ≠ .idle) :
    (∃ e, e.caller? = some p ∧ (step host s e).isSome) ∧
      ∀ es' s', run (step host) s es' = some s' → (∀ option, Event.request p option ∉ es') →
        es'.countP (·.caller? = some p) ≤ threads.toNat + 3 ∧
        (es'.countP (·.caller? = some p) = threads.toNat + 3 → s'.calls p = .idle) := by
  refine ⟨?_, fun es' s' hrun' hnoreq => ?_⟩
  · obtain ⟨e, s', he, hs⟩ := caller_enabled host (inBounds_run hrun) hp
    exact ⟨e, he, hs ▸ rfl⟩
  · have hstep : ∀ t e t', t.server.workerVec.length = threads.toNat →
        (∀ option, e ≠ .request p option) → step host t e = some t' →
        t'.server.workerVec.length = threads.toNat ∧
          (t'.calls p).rank threads.toNat ≤ (t.calls p).rank threads.toNat ∧
          (decide (e.caller? = some p) = true →
            (t'.calls p).rank threads.toNat < (t.calls p).rank threads.toNat) := by
      intro t e t' hlen he ht
      obtain ⟨hle, hlt⟩ := rank_call he ht
      rw [hlen] at hle hlt
      exact ⟨(length_step ht).trans hlen, hle, fun hcaller => hlt (of_decide_eq_true hcaller)⟩
    have hcount : es'.countP (·.caller? = some p) + (s'.calls p).rank threads.toNat ≤
        (s.calls p).rank threads.toNat :=
      countP_le_of_rank hstep (length_run hrun) (fun e he option heq => hnoreq option (heq ▸ he))
        hrun'
    have hle := rank_le threads.toNat (s.calls p)
    exact ⟨by omega, fun heq => rank_eq_zero (n := threads.toNat) (by omega)⟩

/-- One of two workers is asked for while the second thread is inside a request. -/
theorem newService_wait_free_two :
    ∃ s, run (step fun _ : Bool => none) (System.init 2)
        [.request true {}, .load true, .request false { workerID := 1 }] = some s ∧
      ∃ e : Event Bool, e.caller? = some true ∧ (step (fun _ => none) s e).isSome := by
  obtain ⟨s, hrun, hcall⟩ : ∃ s, run (step fun _ : Bool => none) (System.init 2)
      [.request true {}, .load true, .request false { workerID := 1 }] = some s ∧
        s.calls true ≠ .idle := ⟨_, rfl, by decide⟩
  exact ⟨s, hrun, (newService_wait_free hrun true hcall).1⟩

/-! ## 3. The queues -/

namespace ProgressLemmas

theorem sum_map_modify {α : Type} {f : α → α} {g : α → ℕ} :
    ∀ {xs : List α} {i : ℕ} {x : α}, xs[i]? = some x →
      ((xs.modify i f).map g).sum + g x = (xs.map g).sum + g (f x)
  | [], i, x, h => nomatch h
  | y :: ys, 0, x, h => by
    cases h
    simp only [List.modify_zero_cons, List.map_cons, List.sum_cons]
    omega
  | y :: ys, i + 1, x, h => by
    have ih : ((ys.modify i f).map g).sum + g x = (ys.map g).sum + g (f x) := sum_map_modify h
    simp only [List.modify_succ_cons, List.map_cons, List.sum_cons]
    omega

/-- What an update of one worker does to the handlers that are left. -/
theorem left_update {s : Server} {w : ℕ} {wk : Worker} {f : Worker → Worker}
    (hf : ∀ wk, (f wk).workerID = wk.workerID) (hw : s.workerVec[w]? = some wk) :
    ((s.update w f hf).workerVec.map Worker.left).sum + wk.left =
      (s.workerVec.map Worker.left).sum + (f wk).left := sum_map_modify hw

/-- An action of a call leaves at most an `asio::post` to the workers. -/
theorem left_caller {host : ι → Option ℕ} {s s' : System ι} {p : ι} {e : Event ι}
    (he : e.caller? = some p) (h : s.InBounds)
    (hs : step host s e = some s') :
    (s'.server.workerVec.map Worker.left).sum ≤ (s.server.workerVec.map Worker.left).sum + 2 := by
  cases e with
  | request q option | start w j | finish w ok => cases he
  | load q | choose q =>
    rw [server_of_readsOnly hs trivial]
    exact Nat.le_add_right ..
  | fetchAdd q =>
    obtain ⟨option, w, hq, rfl⟩ := step_spec.mp hs
    have hw : w < s.server.workerVec.length := by
      have hq' := h.worker q
      rwa [hq] at hq'
    have hleft := left_update fetchAdd_workerID (List.getElem?_eq_getElem hw)
    simp only [Worker.left, Worker.fetchAdd, move_server] at hleft ⊢
    omega
  | post q =>
    obtain ⟨option, w, hq, rfl⟩ := step_spec.mp hs
    have hw : w < s.server.workerVec.length := by
      have hq' := h.worker q
      rwa [hq] at hq'
    have hleft := left_update (post_workerID option) (List.getElem?_eq_getElem hw)
    simp only [Worker.left, Worker.post, move_server, List.length_append,
      List.length_singleton] at hleft ⊢
    omega

theorem left_handler {host : ι → Option ℕ} {s s' : System ι} {e : Event ι}
    (hreq : ¬ e.IsRequest) (he : e.caller? = none) (hs : step host s e = some s') :
    (s'.server.workerVec.map Worker.left).sum < (s.server.workerVec.map Worker.left).sum := by
  have hlt : ∀ {w : ℕ} {wk : Worker} {f : Worker → Worker}
      (hf : ∀ wk, (f wk).workerID = wk.workerID), s.server.workerVec[w]? = some wk →
      (f wk).left + 1 = wk.left → ((s.server.update w f hf).workerVec.map Worker.left).sum <
        (s.server.workerVec.map Worker.left).sum := by
    intro w wk f hf hw hafter
    have hleft := left_update hf hw
    omega
  cases e with
  | request p option => exact absurd trivial hreq
  | load p | choose p | fetchAdd p | post p => cases he
  | start w j =>
    obtain ⟨⟨wk, hw, hfree, hj⟩, rfl⟩ := step_spec.mp hs
    refine hlt (startHandler_workerID j) hw ?_
    rw [startHandler_eq (List.getElem?_eq_getElem hj)]
    simp only [Worker.left, Option.isNone_iff_eq_none.mp hfree, Option.toList_some,
      Option.toList_none, List.length_singleton, List.length_nil, List.length_eraseIdx_of_lt hj]
    omega
  | finish w ok =>
    obtain ⟨⟨⟨wk, hw, hbusy⟩, _⟩, rfl⟩ := step_spec.mp hs
    obtain ⟨c, hc⟩ := Option.isSome_iff_exists.mp hbusy
    refine hlt (finishHandler_workerID ok) hw ?_
    rw [finishHandler_eq ok hc]
    simp only [Worker.left, hc, Option.toList_some, Option.toList_none, List.length_singleton,
      List.length_nil]
    omega

omit [DecidableEq ι] in
theorem sum_calls_lt {n : ℕ} {s s' : System ι} {p : ι}
    (hlt : (s'.calls p).rank n < (s.calls p).rank n) (hother : ∀ q, q ≠ p → s'.calls q = s.calls q) :
    ∑ q, (s'.calls q).rank n < ∑ q, (s.calls q).rank n := by
  refine Finset.sum_lt_sum (fun q _ => ?_) ⟨p, Finset.mem_univ p, hlt⟩
  rcases eq_or_ne q p with rfl | hne
  · exact Nat.le_of_lt hlt
  · rw [hother q hne]

end ProgressLemmas

/-- Every event that is not a request leaves less to do. -/
theorem drain_step {host : ι → Option ℕ} {s s' : System ι} {e : Event ι}
    (h : s.InBounds) (hreq : ¬ e.IsRequest) (hs : step host s e = some s') : s'.rank < s.rank := by
  unfold System.rank
  rw [length_step hs]
  cases he : e.caller? with
  | some p =>
    obtain ⟨hlt, hother⟩ := rank_caller he hs
    have hcalls := sum_calls_lt hlt hother
    have hleft := left_caller he h hs
    omega
  | none =>
    rw [calls_handler hreq he hs]
    exact Nat.add_lt_add_left (left_handler hreq he hs) _

/-- Something other than a request is possible until the server has come to rest. -/
theorem drain_enabled (host : ι → Option ℕ) {s : System ι} (h : s.InBounds) (hs : ¬ s.Drained)
    : ∃ e s', ¬ Event.IsRequest e ∧ step host s e = some s' := by
  by_cases hcalls : ∀ p, s.calls p = .idle
  · by_cases hbusy : ∃ w, s.server.Busy w
    · obtain ⟨w, hw⟩ := hbusy
      exact ⟨.finish w true, _, id, step_spec.mpr ⟨⟨hw, fun p _ => hcalls p⟩, rfl⟩⟩
    · have hfree : ∀ wk ∈ s.server.workerVec, wk.th = none := by
        intro wk hwk
        obtain ⟨w, hw⟩ := List.mem_iff_getElem?.mp hwk
        rw [← Option.not_isSome_iff_eq_none]
        exact fun hth => hbusy ⟨w, wk, hw, hth⟩
      have hqueue : ∃ wk ∈ s.server.workerVec, wk.ioCtx ≠ [] := by
        by_contra hnone
        refine hs ⟨⟨hcalls, hfree⟩, fun wk hwk => ?_⟩
        by_contra hne
        exact hnone ⟨wk, hwk, hne⟩
      obtain ⟨wk, hwk, hne⟩ := hqueue
      obtain ⟨w, hw⟩ := List.mem_iff_getElem?.mp hwk
      refine ⟨.start w 0, _, id, step_spec.mpr ⟨⟨wk, hw, ?_, List.length_pos_iff.mpr hne⟩, rfl⟩⟩
      rw [hfree wk hwk]
      rfl
  · obtain ⟨p, hp⟩ := not_forall.mp hcalls
    obtain ⟨e, s', he, hstep⟩ := caller_enabled host h hp
    refine ⟨e, s', fun hreq => ?_, hstep⟩
    cases e with
    | request q option => cases he
    | load q | choose q | fetchAdd q | post q | start w j | finish w ok => exact hreq

/-- From every reachable state, if every `init` returns: while no request is made at
most `s.rank` more events happen, one is possible until every queue is empty and no
thread is in a call or a handler, and every way there ends with each worker having
handled all it accepted. -/
theorem drain_terminates {threads : UInt32} {host : ι → Option ℕ} {es : List (Event ι)}
    {s : System ι} (hrun : run (step host) (System.init threads) es = some s) :
    (∀ es' s', (∀ e ∈ es', ¬ Event.IsRequest e) → run (step host) s es' = some s' →
      es'.length ≤ s.rank ∧
        (¬ s'.Drained → ∃ e, ¬ Event.IsRequest e ∧ (step host s' e).isSome) ∧
        (s'.Drained → ∀ w < threads.toNat,
          (accepted w (records threads host (es ++ es'))).Perm
            (handled w (records threads host (es ++ es'))))) ∧
    ∃ es' s', (∀ e ∈ es', ¬ Event.IsRequest e) ∧ run (step host) s es' = some s' ∧ s'.Drained := by
  have hstep : ∀ t e t', System.InBounds t → ¬ Event.IsRequest e → step host t e = some t' →
      t'.InBounds ∧ t'.rank < t.rank :=
    fun _ _ _ ht he hs => ⟨inBounds_step ht hs, drain_step ht he hs⟩
  have hinv := inBounds_run hrun
  refine ⟨fun es' s' hnoreq hrun' => ⟨?_, fun hdrained => ?_, fun hdrained w hw => ?_⟩, ?_⟩
  · exact Nat.le_of_add_right_le (length_le_of_rank hstep hinv hnoreq hrun')
  · have hinv' : s'.InBounds := run_invariant (fun _ _ _ h _ hs => inBounds_step h hs) hinv
      (meets_of_forall (fun _ _ => trivial) s es') hrun'
    obtain ⟨e, s'', he, hs⟩ := drain_enabled host hinv' hdrained
    exact ⟨e, he, hs ▸ rfl⟩
  · have hall : run (step host) (System.init threads) (es ++ es') = some s' :=
      (run_append_eq es' hrun).trans hrun'
    have hlt : w < s'.server.workerVec.length := hw.trans_eq (length_run hall).symm
    have hwk := List.getElem?_eq_getElem hlt
    have hmem := List.getElem_mem hlt
    have hpending : (s'.server.workerVec[w]).pending = [] := by
      unfold Worker.pending
      rw [hdrained.quiescent.handlers _ hmem, hdrained.queues _ hmem]
      rfl
    have htracked := tracked_run hall w _ hwk
    rwa [hpending, List.append_nil] at htracked
  · have henabled : ∀ t, System.InBounds t → ¬ t.Drained →
        ∃ e t', ¬ Event.IsRequest e ∧ step host t e = some t' ∧ t'.InBounds ∧ t'.rank < t.rank := by
      intro t ht hdrained
      obtain ⟨e, t', he, hs⟩ := drain_enabled host ht hdrained
      exact ⟨e, t', he, hs, hstep t e t' ht he hs⟩
    exact exists_run_to henabled hinv

/-- From inside the first of two handlers. -/
theorem drain_terminates_two :
    ∃ s, run (step fun _ => none) (System.init 1) twoRequests = some s ∧ ¬ s.Drained ∧
      ∃ es' s', (∀ e ∈ es', ¬ Event.IsRequest e) ∧
        run (step fun _ => none) s es' = some s' ∧ s'.Drained := by
  obtain ⟨s, hrun, wk, hwk, hqueue⟩ : ∃ s,
      run (step fun _ => none) (System.init 1) twoRequests = some s ∧
        ∃ wk, wk ∈ s.server.workerVec ∧ wk.ioCtx ≠ [] :=
    ⟨_, rfl, _, List.mem_singleton_self _, List.cons_ne_nil _ _⟩
  exact ⟨s, hrun, fun hdrained => hqueue (hdrained.queues wk hwk), (drain_terminates hrun).2⟩

end LuaRobot
