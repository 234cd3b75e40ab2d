import LuaRobot.Accounting

/-!
# What becomes of a request

A request that `Server::newService` accepts is posted to one worker, and its
handler runs there. Nothing takes a request from one worker to another.

Results:
1. `tracked_step`: what an event keeps of the requests of every worker, for
   any way to compare them; `counted_step`: and of its counter.
2. `requests_conserved`: in every run each request is handled at most once, on
   the worker it was posted to, and waits there until then.
3. `requests_in_order`: a worker that takes its handlers in the order of
   `asio::post` serves the requests in that order.
-/

namespace LuaRobot

open Runs PlacementLemmas ThreadsLemmas AccountingLemmas

/-! ## Definitions -/

inductive Record where
  /-- the handler of a request was posted to worker `w` -/
  | accepted (w : ℕ) (option : ServiceOption)
  /-- the handler has ended -/
  | handled (w : ℕ) (option : ServiceOption)
deriving DecidableEq

def Record.accepted? (w : ℕ) : Record → Option ServiceOption
  | .accepted v option => if v = w then some option else none
  | .handled .. => none

def Record.handled? (w : ℕ) : Record → Option ServiceOption
  | .accepted .. => none
  | .handled v option => if v = w then some option else none

/-- The requests that worker `w` has accepted, oldest first. -/
def accepted (w : ℕ) (log : List Record) : List ServiceOption :=
  log.filterMap (Record.accepted? w)

/-- Those it is done with. -/
def handled (w : ℕ) (log : List Record) : List ServiceOption := log.filterMap (Record.handled? w)

/-- Those it is not: the one under way first. -/
def Worker.pending (wk : Worker) : List ServiceOption :=
  wk.th.toList.map Creation.option ++ wk.ioCtx

variable {ι : Type} [DecidableEq ι]

def record (s : System ι) : Event ι → List Record
  | .post p =>
    match s.calls p with
    | .post option w => [.accepted w option]
    | _ => []
  | .finish w _ =>
    ((s.server.workerVec[w]?).bind Worker.th).toList.map fun c => .handled w c.option
  | _ => []

variable [Fintype ι]

def records (threads : UInt32) (host : ι → Option ℕ) (es : List (Event ι)) : List Record :=
  observe (step host) record (System.init threads) es

/-- Every worker has accepted what it has handled, and what is pending. -/
def Tracked (R : List ServiceOption → List ServiceOption → Prop) (s : System ι)
    (log : List Record) : Prop :=
  ∀ w wk, s.server.workerVec[w]? = some wk → R (accepted w log) (handled w log ++ wk.pending)

/-- `serviceNum` counts the accepted requests, and those about to be posted. -/
def Counted (s : System ι) (log : List Record) : Prop :=
  ∀ w wk, s.server.workerVec[w]? = some wk →
    wk.serviceNum = UInt32.ofNat (s.posting w + (accepted w log).length)

/-- The main thread makes two requests of a server with one worker, which starts
on the first. -/
def twoRequests : List (Event Unit) :=
  [.request () { luaFile := [97] }, .load (), .choose (), .fetchAdd (), .post (),
    .request () { luaFile := [98] }, .load (), .choose (), .fetchAdd (), .post (), .start 0 0]

/-! ## 1. One event -/

namespace RequestsLemmas

theorem accepted_append (w : ℕ) (log log' : List Record) :
    accepted w (log ++ log') = accepted w log ++ accepted w log' := List.filterMap_append

theorem handled_append (w : ℕ) (log log' : List Record) :
    handled w (log ++ log') = handled w log ++ handled w log' := List.filterMap_append

theorem accepted_one (v w : ℕ) (option : ServiceOption) :
    accepted w [.accepted v option] = if v = w then [option] else [] := by
  unfold accepted
  by_cases h : v = w <;> simp [Record.accepted?, h]

theorem handled_one (v w : ℕ) (option : ServiceOption) :
    handled w [.handled v option] = if v = w then [option] else [] := by
  unfold handled
  by_cases h : v = w <;> simp [Record.handled?, h]

theorem pending_post (wk : Worker) (option : ServiceOption) :
    (wk.post option).pending = wk.pending ++ [option] := (List.append_assoc ..).symm

theorem pending_start {wk : Worker} {j : ℕ} {option : ServiceOption} (hfree : wk.th = none)
    (hj : wk.ioCtx[j]? = some option) :
    wk.pending = wk.ioCtx ∧ (wk.startHandler j).pending = option :: wk.ioCtx.eraseIdx j := by
  rw [startHandler_eq hj]
  unfold Worker.pending
  rw [hfree]
  exact ⟨rfl, rfl⟩

theorem pending_finish {wk : Worker} {c : Creation} (ok : Bool) (hc : wk.th = some c) :
    wk.pending = c.option :: (wk.finishHandler ok).pending := by
  rw [finishHandler_eq ok hc]
  unfold Worker.pending
  rw [hc]
  rfl

end RequestsLemmas

open RequestsLemmas

/-- An event keeps track of the requests in every sense that bears a request
posted at the end, and the handlers that are taken. -/
theorem tracked_step {R : List ServiceOption → List ServiceOption → Prop} {G : ℕ → Prop}
    (hpost : ∀ xs ys option, R xs ys → R (xs ++ [option]) (ys ++ [option]))
    (hstart : ∀ xs ys zs j option, G j → zs[j]? = some option → R xs (ys ++ zs) →
      R xs (ys ++ option :: zs.eraseIdx j))
    {host : ι → Option ℕ} {s s' : System ι} {log : List Record} {e : Event ι}
    (h : Tracked R s log) (hG : ∀ w j, e = .start w j → G j) (hs : step host s e = some s') :
    Tracked R s' (log ++ record s e) := by
  have hnil : Tracked R s (log ++ []) := by rwa [List.append_nil]
  cases e with
  | request p option | load p | choose p =>
    intro w wk hwk
    rw [server_of_readsOnly hs trivial] at hwk
    exact hnil w wk hwk
  | fetchAdd p =>
    obtain ⟨_, w, _, rfl⟩ := step_spec.mp hs
    exact forall_update fetchAdd_workerID (fun v vk _ => hnil v vk) fun wk hwk => hnil w wk hwk
  | post p =>
    obtain ⟨option, w, hp, rfl⟩ := step_spec.mp hs
    have hrec : record s (.post p) = [.accepted w option] := by simp [record, hp]
    rw [hrec]
    have hhandled : ∀ v, handled v (log ++ [.accepted w option]) = handled v log :=
      fun v => (handled_append v log _).trans (List.append_nil _)
    refine forall_update (post_workerID option) (fun v vk hv hvk => ?_) fun wk hwk => ?_
    · rw [hhandled, accepted_append, accepted_one, if_neg (Ne.symm hv), List.append_nil]
      exact h v vk hvk
    · rw [hhandled, accepted_append, accepted_one, if_pos rfl, pending_post, ← List.append_assoc]
      exact hpost _ _ option (h w wk hwk)
  | start w j =>
    obtain ⟨⟨wk, hw, hfree, hj⟩, rfl⟩ := step_spec.mp hs
    refine forall_update (startHandler_workerID j) (fun v vk _ => hnil v vk) fun wk' hw' => ?_
    cases hw.symm.trans hw'
    obtain ⟨hbefore, hafter⟩ := pending_start (Option.isNone_iff_eq_none.mp hfree)
      (List.getElem?_eq_getElem hj)
    have hwk := hnil w wk hw
    rw [hbefore] at hwk
    rw [hafter]
    exact hstart _ _ _ j _ (hG w j rfl) (List.getElem?_eq_getElem hj) hwk
  | finish w ok =>
    obtain ⟨⟨⟨wk, hw, hbusy⟩, _⟩, rfl⟩ := step_spec.mp hs
    obtain ⟨c, hc⟩ := Option.isSome_iff_exists.mp hbusy
    have hrec : record s (.finish w ok) = [.handled w c.option] := by
      simp [record, hw, hc]
    rw [hrec]
    have haccepted : ∀ v, accepted v (log ++ [.handled w c.option]) = accepted v log :=
      fun v => (accepted_append v log _).trans (List.append_nil _)
    refine forall_update (finishHandler_workerID ok) (fun v vk hv hvk => ?_) fun wk' hw' => ?_
    · rw [haccepted, handled_append, handled_one, if_neg (Ne.symm hv), List.append_nil]
      exact h v vk hvk
    · cases hw.symm.trans hw'
      have hwk := h w wk hw
      rw [pending_finish ok hc] at hwk
      rw [haccepted, handled_append, handled_one, if_pos rfl, List.append_assoc]
      exact hwk

namespace RequestsLemmas

/-- An event that only moves a thread, and not from or to an `asio::post`. -/
theorem counted_move {s : System ι} {log : List Record} {p : ι} {c : Call} (h : Counted s log)
    (hfrom : ∀ w, (s.calls p).posts w = 0) (hto : ∀ w, c.posts w = 0) :
    Counted (s.move p c s.server) (log ++ []) := by
  intro w wk hwk
  have hposting := posting_move s p c s.server w
  rw [hfrom w, hto w, Nat.add_zero, Nat.add_zero] at hposting
  rw [hposting, List.append_nil]
  exact h w wk hwk

end RequestsLemmas

/-- `fetch_add` runs ahead of `asio::post`, by the calls between the two. -/
theorem counted_step {host : ι → Option ℕ} {s s' : System ι} {log : List Record} {e : Event ι}
    (h : Counted s log) (hs : step host s e = some s') : Counted s' (log ++ record s e) := by
  have hnil : Counted s (log ++ []) := by rwa [List.append_nil]
  cases e with
  | request p option =>
    obtain ⟨⟨hp, _⟩, rfl⟩ := step_spec.mp hs
    exact counted_move h (fun w => by rw [hp]; rfl) (posts_enter _ _)
  | load p =>
    obtain ⟨_, _, _, _, hp, _, rfl⟩ := step_spec.mp hs
    exact counted_move h (fun w => by rw [hp]; rfl) fun _ => rfl
  | choose p =>
    obtain ⟨_, _, hp, rfl⟩ := step_spec.mp hs
    exact counted_move h (fun w => by rw [hp]; rfl) (posts_afterScan _ _)
  | fetchAdd p =>
    obtain ⟨option, w, hp, rfl⟩ := step_spec.mp hs
    have hposting := posting_move s p (.post option w) (s.server.update w _ fetchAdd_workerID)
    simp only [hp, Call.posts, Nat.add_zero] at hposting
    refine forall_update fetchAdd_workerID (fun v vk hv hvk => ?_) fun wk hwk => ?_
    · rw [hposting v, if_neg (Ne.symm hv)]
      exact hnil v vk hvk
    · have hnum := hnil w wk hwk
      rw [hposting w, if_pos rfl, Nat.add_right_comm, UInt32.ofNat_add]
      exact congrArg (· + 1) hnum
  | post p =>
    obtain ⟨option, w, hp, rfl⟩ := step_spec.mp hs
    have hposting := posting_move s p .idle (s.server.update w _ (post_workerID option))
    simp only [hp, Call.posts, Nat.add_zero] at hposting
    have hrec : record s (.post p) = [.accepted w option] := by simp [record, hp]
    rw [hrec]
    refine forall_update (post_workerID option) (fun v vk hv hvk => ?_) fun wk hwk => ?_
    · have hv' := hposting v
      rw [if_neg (Ne.symm hv), Nat.add_zero] at hv'
      rw [hv', accepted_append, accepted_one, if_neg (Ne.symm hv), List.append_nil]
      exact h v vk hvk
    · have hw' := hposting w
      rw [if_pos rfl] at hw'
      have hnum := h w wk hwk
      rw [accepted_append, accepted_one, if_pos rfl, List.length_append, List.length_singleton,
        Nat.add_comm _ 1, ← Nat.add_assoc, hw']
      exact hnum
  | start w j =>
    obtain ⟨_, rfl⟩ := step_spec.mp hs
    exact forall_update (startHandler_workerID j) (fun v vk _ => hnil v vk) fun wk hwk =>
      (startHandler_serviceNum j wk).trans (hnil w wk hwk)
  | finish w ok =>
    obtain ⟨_, rfl⟩ := step_spec.mp hs
    have haccepted : ∀ v, accepted v (log ++ record s (.finish w ok)) = accepted v log := by
      intro v
      rw [accepted_append]
      have hnone : accepted v (record s (.finish w ok)) = [] := by
        refine List.filterMap_eq_nil_iff.mpr fun x hx => ?_
        obtain ⟨c, _, rfl⟩ := List.mem_map.mp hx
        rfl
      rw [hnone, List.append_nil]
    refine forall_update (finishHandler_workerID ok) (fun v vk _ hvk => ?_) fun wk hwk => ?_
    · rw [haccepted]
      exact h v vk hvk
    · rw [haccepted, finishHandler_serviceNum]
      exact h w wk hwk

/-! ## 2. Runs -/

namespace RequestsLemmas

omit [DecidableEq ι] [Fintype ι] in
theorem tracked_init {R : List ServiceOption → List ServiceOption → Prop} (hR : R [] [])
    (threads : UInt32) : Tracked R (System.init threads : System ι) [] := by
  intro w wk hwk
  rw [make_worker hwk]
  exact hR

omit [DecidableEq ι] in
theorem counted_init (threads : UInt32) : Counted (System.init threads : System ι) [] := by
  intro w wk hwk
  have hposting : (System.init threads : System ι).posting w = 0 :=
    Finset.sum_eq_zero fun _ _ => rfl
  rw [make_worker hwk, hposting]
  rfl

end RequestsLemmas

theorem tracked_run {threads : UInt32} {host : ι → Option ℕ} {es : List (Event ι)} {s : System ι}
    (hrun : run (step host) (System.init threads) es = some s) :
    Tracked List.Perm s (records threads host es) := by
  refine run_observes (R := Tracked List.Perm) (fun _ _ _ _ h hs => ?_)
    (tracked_init (List.Perm.refl _) threads) hrun
  refine tracked_step (G := fun _ => True) (fun _ _ _ h => h.append_right _) ?_ h
    (fun _ _ _ => trivial) hs
  intro xs ys zs j option _ hj hxs
  have hget := List.getElem?_eq_some_iff.mp hj
  refine hxs.trans (List.Perm.append_left ys ?_)
  rw [← hget.2]
  exact (List.getElem_cons_eraseIdx_perm hget.1).symm

theorem counted_run {threads : UInt32} {host : ι → Option ℕ} {es : List (Event ι)} {s : System ι}
    (hrun : run (step host) (System.init threads) es = some s) :
    Counted s (records threads host es) :=
  run_observes (fun _ _ _ _ h hs => counted_step h hs) (counted_init threads) hrun

/-- In every run, whatever the interleaving: a worker has accepted, up to order,
what it has handled and what is pending on it, each request as often as it was
posted to it. Its counter is the number of those it accepted and of the calls
between `fetch_add` and `asio::post`, modulo `2 ^ 32`. -/
theorem requests_conserved {threads : UInt32} {host : ι → Option ℕ} {es : List (Event ι)}
    {s : System ι} (hrun : run (step host) (System.init threads) es = some s) (w : ℕ)
    (wk : Worker) (hwk : s.server.workerVec[w]? = some wk) :
    (accepted w (records threads host es)).Perm
      (handled w (records threads host es) ++ wk.pending) ∧
    wk.serviceNum = UInt32.ofNat (s.posting w + (accepted w (records threads host es)).length) :=
  ⟨tracked_run hrun w wk hwk, counted_run hrun w wk hwk⟩

theorem requests_conserved_two :
    ∃ s wk, run (step fun _ => none) (System.init 1) twoRequests = some s ∧
      s.server.workerVec[0]? = some wk ∧ wk.pending = [{ luaFile := [97] }, { luaFile := [98] }] ∧
      (accepted 0 (records 1 (fun _ => none) twoRequests)).Perm
        (handled 0 (records 1 (fun _ => none) twoRequests) ++ wk.pending) := by
  obtain ⟨s, wk, hs, hwk, hpending⟩ : ∃ s wk,
      run (step fun _ => none) (System.init 1) twoRequests = some s ∧
        s.server.workerVec[0]? = some wk ∧
        wk.pending = [{ luaFile := [97] }, { luaFile := [98] }] := ⟨_, _, rfl, rfl, rfl⟩
  exact ⟨s, wk, hs, hwk, hpending, (requests_conserved hs 0 wk hwk).1⟩

/-- A worker whose handlers are taken oldest first, as `asio` does for one thread,
has handled the first of the requests posted to it, in their order; the pending
ones are the rest. -/
theorem requests_in_order {threads : UInt32} {host : ι → Option ℕ} {es : List (Event ι)}
    {s : System ι} (hrun : run (step host) (System.init threads) es = some s)
    (horder : ∀ w j, Event.start w j ∈ es → j = 0) (w : ℕ) (wk : Worker)
    (hwk : s.server.workerVec[w]? = some wk) :
    accepted w (records threads host es) = handled w (records threads host es) ++ wk.pending := by
  have holdest : ∀ e ∈ es, ∀ w j, e = Event.start w j → j = 0 := by
    rintro _ he w j rfl
    exact horder w j he
  have htracked : Tracked (· = ·) s ([] ++ records threads host es) := by
    refine run_rule (R := Tracked (· = ·)) (fun t l e t' h hG hs => ?_)
      (tracked_init rfl threads) (meets_of_mem holdest _) hrun
    refine tracked_step (G := (· = 0)) (fun xs ys option h => congrArg (· ++ [option]) h) ?_ h
      hG hs
    rintro xs ys zs j option rfl hj rfl
    cases zs with
    | nil => cases hj
    | cons z zs =>
      cases hj
      rfl
  exact htracked w wk hwk

theorem requests_in_order_two :
    ∃ s wk, run (step fun _ => none) (System.init 1) twoRequests = some s ∧
      s.server.workerVec[0]? = some wk ∧
      accepted 0 (records 1 (fun _ => none) twoRequests) =
        handled 0 (records 1 (fun _ => none) twoRequests) ++ wk.pending := by
  obtain ⟨s, wk, hs, hwk⟩ : ∃ s wk,
      run (step fun _ => none) (System.init 1) twoRequests = some s ∧
        s.server.workerVec[0]? = some wk := ⟨_, _, rfl, rfl⟩
  exact ⟨s, wk, hs, hwk, requests_in_order hs (by simp [twoRequests]) 0 wk hwk⟩

end LuaRobot
