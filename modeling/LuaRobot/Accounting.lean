import LuaRobot.Threads
import Mathlib.Algebra.BigOperators.Group.Finset.Basic

/-!
# The accounts of a worker

`Worker::newService` counts a service when it is requested, and the handler it
posts is meant to take the count back when the creation fails. It never does:
`make_unique` returns no null, and what `init` returns is dropped, so a service
whose `init` failed stays counted and in the map.

Results:
1. `accountedAt_fetchAdd`, `accountedAt_post`, `accountedAt_start`,
   `accountedAt_finish`: what each access does to the account of its worker.
2. `accounted_step`: an event keeps the accounts exactly when it is clean, which
   is to say that `init` succeeds, finds its key free, and no counter wraps.
3. `service_accounting`: the accounts of the runs whose events are clean.
4. `failedInit_not_settled`: one failed `init` breaks them.
-/

namespace LuaRobot

open Runs PlacementLemmas ThreadsLemmas

/-! ## Definitions -/

/-- 1 when the call has incremented worker `w` and not posted yet. -/
def Call.posts (w : ℕ) : Call → ℕ
  | .post _ v => if v = w then 1 else 0
  | _ => 0

/-- The worker whose counter the call is about to increment. -/
def Call.adds : Call → Option ℕ
  | .fetchAdd _ w => some w
  | _ => none

/-- The account of a worker: `n` requests between the `fetch_add` and the
`asio::post`, and the creations `cs` whose `init` returned true. -/
structure AccountedAt (n : ℕ) (cs : List Creation) (wk : Worker) : Prop where
  num : wk.serviceNum.toNat = n + wk.ioCtx.length + wk.th.toList.length + cs.length
  map : wk.serviceMap.entries.Perm (cs.map fun c => ⟨c.id, c.service⟩)

/-- The creations on worker `w` whose `init` returned true. -/
def initialised (w : ℕ) (log : List (ℕ × Creation × Bool)) : List Creation :=
  log.filterMap fun x => if x.1 = w ∧ x.2.2 = true then some x.2.1 else none

variable {ι : Type} [DecidableEq ι] [Fintype ι]

/-- The threads between the `fetch_add` and the `asio::post` of worker `w`. -/
def System.posting (s : System ι) (w : ℕ) : ℕ := ∑ p, (s.calls p).posts w

/-- The creation that the event ends, with its worker and what `init` returned. -/
def outcome (s : System ι) : Event ι → List (ℕ × Creation × Bool)
  | .finish w ok => ((s.server.workerVec[w]?).bind Worker.th).toList.map fun c => (w, c, ok)
  | _ => []

/-- The outcomes of a run, oldest first. -/
def outcomes (threads : UInt32) (host : ι → Option ℕ) (es : List (Event ι)) :
    List (ℕ × Creation × Bool) :=
  observe (step host) outcome (System.init threads) es

def System.Accounted (s : System ι) (log : List (ℕ × Creation × Bool)) : Prop :=
  ∀ w wk, s.server.workerVec[w]? = some wk → AccountedAt (s.posting w) (initialised w log) wk

/-- No worker is inside a request or a handler. -/
structure System.Quiescent (s : System ι) : Prop where
  calls : ∀ p, s.calls p = .idle
  handlers : ∀ wk ∈ s.server.workerVec, wk.th = none

/-- Each worker counts its queued handlers and the services whose `init`
returned true, and its map holds exactly these services. -/
def System.Settled (s : System ι) (log : List (ℕ × Creation × Bool)) : Prop :=
  ∀ w wk, s.server.workerVec[w]? = some wk →
    wk.serviceNum.toNat = wk.ioCtx.length + (initialised w log).length ∧
    wk.serviceMap.entries.Perm ((initialised w log).map fun c => ⟨c.id, c.service⟩)

/-- The event wraps no counter, and when it ends a creation, `init` returns true
and the key is free. -/
def System.Clean (s : System ι) : Event ι → Prop
  | .fetchAdd p => ∀ w ∈ (s.calls p).adds, ∀ wk ∈ s.server.workerVec[w]?,
      wk.serviceNum.toNat ≠ 2 ^ 32 - 1
  | .finish w ok => ∀ wk ∈ s.server.workerVec[w]?, ∀ c ∈ wk.th, ok = true ∧ c.id ∉ wk.serviceMap
  | _ => True

instance (s : System ι) : (e : Event ι) → Decidable (s.Clean e)
  | .fetchAdd p => inferInstanceAs (Decidable (∀ w ∈ (s.calls p).adds,
      ∀ wk ∈ s.server.workerVec[w]?, wk.serviceNum.toNat ≠ 2 ^ 32 - 1))
  | .finish w ok => inferInstanceAs (Decidable (∀ wk ∈ s.server.workerVec[w]?, ∀ c ∈ wk.th,
      ok = true ∧ c.id ∉ wk.serviceMap))
  | .request .. | .load _ | .choose _ | .post _ | .start .. => isTrue trivial

/-! ## 1. The account of one worker -/

theorem accountedAt_fetchAdd {n : ℕ} {cs : List Creation} {wk : Worker} (h : AccountedAt n cs wk) :
    AccountedAt (n + 1) cs wk.fetchAdd ↔ wk.serviceNum.toNat ≠ 2 ^ 32 - 1 := by
  have hnum : wk.fetchAdd.serviceNum.toNat = (wk.serviceNum.toNat + 1) % 2 ^ 32 :=
    UInt32.toNat_add ..
  have hlt := wk.serviceNum.toNat_lt
  have h0 := h.num
  constructor
  · intro h' hmax
    have h1 := h'.num
    simp only [hnum, hmax] at h1
    omega
  · intro hne
    refine ⟨?_, h.map⟩
    rw [hnum, Nat.mod_eq_of_lt (by omega)]
    simp only [Worker.fetchAdd]
    omega

theorem accountedAt_post {n : ℕ} {cs : List Creation} {wk : Worker} (option : ServiceOption)
    (h : AccountedAt (n + 1) cs wk) : AccountedAt n cs (wk.post option) where
  num := by
    have h0 := h.num
    simp only [Worker.post, List.length_append, List.length_singleton]
    omega
  map := h.map

theorem accountedAt_start {n j : ℕ} {cs : List Creation} {wk : Worker} (h : AccountedAt n cs wk)
    (hfree : wk.th = none) (hj : j < wk.ioCtx.length) : AccountedAt n cs (wk.startHandler j) := by
  have h0 := h.num
  rw [startHandler_eq (List.getElem?_eq_getElem hj)]
  refine ⟨?_, h.map⟩
  simp only [hfree, Option.toList_none, List.length_nil] at h0
  simp only [List.length_eraseIdx_of_lt hj, Option.toList_some, List.length_singleton]
  omega

/-- The handler closes the account of its creation exactly when `init` returned
true and the key was free. -/
theorem accountedAt_finish {n : ℕ} {cs : List Creation} {wk : Worker} {c : Creation} (ok : Bool)
    (h : AccountedAt n cs wk) (hc : wk.th = some c) :
    AccountedAt n (if ok = true then cs ++ [c] else cs) (wk.finishHandler ok) ↔
      ok = true ∧ c.id ∉ wk.serviceMap := by
  have h0 := h.num
  simp only [hc, Option.toList_some, List.length_singleton] at h0
  rw [finishHandler_eq ok hc]
  cases ok with
  | false =>
    -- the failed service stays counted
    simp only [Bool.false_eq_true, if_false, false_and, iff_false]
    intro h'
    have h1 := h'.num
    simp only [Option.toList_none, List.length_nil] at h1
    omega
  | true =>
    simp only [if_true, true_and]
    constructor
    · intro h' hmem
      have hlen := h'.map.length_eq
      have hlen0 := h.map.length_eq
      simp only [ServiceMap.emplace, hmem, if_true, List.length_map, List.length_append,
        List.length_singleton] at hlen hlen0
      omega
    · intro hmem
      refine ⟨?_, ?_⟩
      · simp only [Option.toList_none, List.length_nil, List.length_append, List.length_singleton]
        omega
      · simp only [ServiceMap.emplace, hmem, if_false, AList.entries_insert_of_notMem hmem,
          List.map_append, List.map_cons, List.map_nil]
        exact (h.map.cons ⟨c.id, c.service⟩).trans (List.perm_append_singleton ..).symm

/-! ## 2. One event -/

namespace AccountingLemmas

theorem posting_move (s : System ι) (p : ι) (c : Call) (server : Server) (w : ℕ) :
    (s.move p c server).posting w + (s.calls p).posts w = s.posting w + c.posts w := by
  have hmem : p ∈ (Finset.univ : Finset ι) := Finset.mem_univ p
  have hrest : ∑ q ∈ Finset.univ.erase p, ((s.move p c server).calls q).posts w =
      ∑ q ∈ Finset.univ.erase p, (s.calls q).posts w :=
    Finset.sum_congr rfl fun q hq => by rw [move_calls_of_ne _ _ _ (Finset.ne_of_mem_erase hq)]
  rw [System.posting, System.posting, ← Finset.add_sum_erase _ _ hmem,
    ← Finset.add_sum_erase _ (fun q => (s.calls q).posts w) hmem, hrest, move_calls_self]
  omega

theorem posts_enter (s : Server) (option : ServiceOption) (w : ℕ) :
    (s.enter option).posts w = 0 := by
  unfold Server.enter
  split <;> rfl

theorem posts_afterScan (option : ServiceOption) (id : UInt32) (w : ℕ) :
    (afterScan option id).posts w = 0 := by
  unfold afterScan
  split <;> rfl

omit [DecidableEq ι] in
/-- An update of one worker: only its account is left to check. -/
theorem accounted_update {s s' : System ι} {log log' : List (ℕ × Creation × Bool)} {w : ℕ}
    {f : Worker → Worker} (hf : ∀ wk, (f wk).workerID = wk.workerID) (h : s.Accounted log)
    (hserver : s'.server = s.server.update w f hf)
    (hpost : ∀ v, v ≠ w → s'.posting v = s.posting v)
    (hlog : ∀ v, v ≠ w → initialised v log' = initialised v log) :
    s'.Accounted log' ↔ ∀ wk, s.server.workerVec[w]? = some wk →
      AccountedAt (s'.posting w) (initialised w log') (f wk) := by
  constructor
  · intro h' wk hwk
    refine h' w (f wk) ?_
    rw [hserver, workerVec_update, hwk, Option.map_some, if_pos rfl]
  · intro h'
    unfold System.Accounted
    rw [hserver]
    refine forall_update hf (fun v vk hvw hv => ?_) h'
    rw [hpost v hvw, hlog v hvw]
    exact h v vk hv

/-- An event that only moves a thread, and not from or to an `asio::post`. -/
theorem accounted_move {s : System ι} {log : List (ℕ × Creation × Bool)} {p : ι} {c : Call}
    (h : s.Accounted log) (hfrom : ∀ w, (s.calls p).posts w = 0) (hto : ∀ w, c.posts w = 0) :
    (s.move p c s.server).Accounted (log ++ []) := by
  intro w wk hwk
  have hposting := posting_move s p c s.server w
  rw [hfrom w, hto w, Nat.add_zero, Nat.add_zero] at hposting
  rw [hposting, List.append_nil]
  exact h w wk hwk

theorem initialised_append (w : ℕ) (log log' : List (ℕ × Creation × Bool)) :
    initialised w (log ++ log') = initialised w log ++ initialised w log' :=
  List.filterMap_append

omit [DecidableEq ι] in
theorem accounted_init (threads : UInt32) : (System.init threads : System ι).Accounted [] := by
  intro w wk hwk
  have hposting : (System.init threads : System ι).posting w = 0 :=
    Finset.sum_eq_zero fun _ _ => rfl
  rw [hposting, make_worker hwk]
  exact ⟨rfl, List.Perm.refl _⟩

end AccountingLemmas

open AccountingLemmas

/-- An event keeps the accounts exactly when it is clean. -/
theorem accounted_step {host : ι → Option ℕ} {s s' : System ι}
    {log : List (ℕ × Creation × Bool)} {e : Event ι} (h : s.Accounted log)
    (hs : step host s e = some s') : s'.Accounted (log ++ outcome s e) ↔ s.Clean e := by
  cases e with
  | request p option =>
    obtain ⟨⟨hp, _⟩, rfl⟩ := step_spec.mp hs
    exact iff_of_true (accounted_move h (fun w => by rw [hp]; rfl) (posts_enter _ _)) trivial
  | load p =>
    obtain ⟨_, _, _, _, hp, _, rfl⟩ := step_spec.mp hs
    exact iff_of_true (accounted_move h (fun w => by rw [hp]; rfl) fun _ => rfl) trivial
  | choose p =>
    obtain ⟨_, _, hp, rfl⟩ := step_spec.mp hs
    exact iff_of_true (accounted_move h (fun w => by rw [hp]; rfl) (posts_afterScan _ _)) trivial
  | fetchAdd p =>
    obtain ⟨option, w, hp, rfl⟩ := step_spec.mp hs
    have hposting := posting_move s p (.post option w) (s.server.update w _ fetchAdd_workerID)
    simp only [hp, Call.posts] at hposting
    have hout : log ++ outcome s (.fetchAdd p) = log := List.append_nil log
    rw [hout, accounted_update fetchAdd_workerID h rfl
      (fun v hv => by simpa [Ne.symm hv] using hposting v) fun _ _ => rfl]
    have hw := hposting w
    simp only [if_true, Nat.add_zero] at hw
    simp only [hw, System.Clean, hp, Call.adds, Option.mem_def, Option.some.injEq, forall_eq']
    exact forall₂_congr fun wk hwk => accountedAt_fetchAdd (h w wk hwk)
  | post p =>
    obtain ⟨option, w, hp, rfl⟩ := step_spec.mp hs
    have hposting := posting_move s p .idle (s.server.update w _ (post_workerID option))
    simp only [hp, Call.posts, Nat.add_zero] at hposting
    have hout : log ++ outcome s (.post p) = log := List.append_nil log
    rw [hout, accounted_update (post_workerID option) h rfl
      (fun v hv => by simpa [Ne.symm hv] using hposting v) fun _ _ => rfl]
    refine iff_of_true (fun wk hwk => accountedAt_post option ?_) trivial
    have hw := hposting w
    simp only [if_true] at hw
    rw [hw]
    exact h w wk hwk
  | start w j =>
    obtain ⟨⟨wk, hw, hfree, hj⟩, rfl⟩ := step_spec.mp hs
    have hout : log ++ outcome s (.start w j) = log := List.append_nil log
    rw [hout]
    refine Iff.trans (accounted_update (startHandler_workerID j) h rfl (fun _ _ => rfl)
      fun _ _ => rfl) (iff_of_true (fun wk' hw' => ?_) trivial)
    cases hw.symm.trans hw'
    exact accountedAt_start (h w wk hw) (Option.isNone_iff_eq_none.mp hfree) hj
  | finish w ok =>
    obtain ⟨⟨⟨wk, hw, hbusy⟩, _⟩, rfl⟩ := step_spec.mp hs
    obtain ⟨c, hc⟩ := Option.isSome_iff_exists.mp hbusy
    have hout : outcome s (.finish w ok) = [(w, c, ok)] := by
      simp [outcome, hw, hc]
    have hlog : initialised w (log ++ outcome s (.finish w ok)) =
        if ok = true then initialised w log ++ [c] else initialised w log := by
      rw [hout, initialised_append]
      cases ok <;> simp [initialised]
    have hother : ∀ v, v ≠ w →
        initialised v (log ++ outcome s (.finish w ok)) = initialised v log := by
      intro v hv
      rw [hout, initialised_append]
      simp [initialised, Ne.symm hv]
    refine Iff.trans (accounted_update (finishHandler_workerID ok) h rfl (fun _ _ => rfl) hother) ?_
    simp only [hw, hlog, System.Clean, Option.mem_def, Option.some.injEq, forall_eq', hc]
    exact accountedAt_finish ok (h w wk hw) hc

/-! ## 3. Runs -/

omit [DecidableEq ι] in
/-- Where nothing is under way, the accounts are settled. -/
theorem settled_iff {s : System ι} {log : List (ℕ × Creation × Bool)} (h : s.Quiescent) :
    s.Settled log ↔ s.Accounted log := by
  have hposting : ∀ w, s.posting w = 0 := fun w =>
    Finset.sum_eq_zero fun p _ => by rw [h.calls p]; rfl
  have hth : ∀ (w : ℕ) (wk : Worker), s.server.workerVec[w]? = some wk →
      wk.th.toList.length = 0 := fun w wk hwk => by
    rw [h.handlers wk (List.mem_of_getElem? hwk)]
    rfl
  constructor
  · intro hs w wk hwk
    obtain ⟨hnum, hmap⟩ := hs w wk hwk
    exact ⟨by rw [hposting, hth w wk hwk]; omega, hmap⟩
  · intro ha w wk hwk
    have hnum := (ha w wk hwk).num
    rw [hposting, hth w wk hwk] at hnum
    exact ⟨by omega, (ha w wk hwk).map⟩

/-- A handler whose `init` returned false gives no count back. -/
theorem failedInit_keeps_count {host : ι → Option ℕ} {s s' : System ι} {w : ℕ}
    (hs : step host s (.finish w false) = some s') (v : ℕ) :
    s'.server.serviceNum v = s.server.serviceNum v := by
  obtain ⟨_, rfl⟩ := step_spec.mp hs
  exact serviceNum_update_of_keeps _ _ _ (finishHandler_workerID false)
    (finishHandler_serviceNum false)

/-- The accounts hold along a run, calls and handlers under way included, exactly
when its events are clean; then they are settled in every state in which nothing
is under way. A failed `init` gives nothing back. -/
theorem service_accounting (threads : UInt32) (host : ι → Option ℕ) (es : List (Event ι))
    (hrun : (run (step host) (System.init threads) es).isSome) :
    (Meets (step host) System.Clean (System.init threads) es →
      ∀ es₁ es₂ s, es = es₁ ++ es₂ → run (step host) (System.init threads) es₁ = some s →
        s.Quiescent → s.Settled (outcomes threads host es₁)) ∧
    (Meets (step host) System.Clean (System.init threads) es ↔
      ∀ es₁ es₂ s, es = es₁ ++ es₂ → run (step host) (System.init threads) es₁ = some s →
        s.Accounted (outcomes threads host es₁)) ∧
    (∀ (s : System ι) log, s.Quiescent → (s.Settled log ↔ s.Accounted log)) ∧
    (∀ (s s' : System ι) w, step host s (.finish w false) = some s' →
      s'.server.serviceNum w = s.server.serviceNum w) := by
  have hall : Meets (step host) System.Clean (System.init threads) es →
      ∀ es₁ es₂ s, es = es₁ ++ es₂ → run (step host) (System.init threads) es₁ = some s →
        s.Accounted (outcomes threads host es₁) := by
    rintro hclean es₁ es₂ s rfl hs
    exact run_rule (R := fun s log => s.Accounted log) (l := [])
      (fun _ _ _ _ h hc hs => (accounted_step h hs).mpr hc) (accounted_init threads)
      ((meets_append hs).mp hclean).1 hs
  refine ⟨fun hclean es₁ es₂ s hes hs hq => ?_, ⟨hall, fun hacc => ?_⟩,
    fun _ _ hq => settled_iff hq, fun _ _ w hs => failedInit_keeps_count hs w⟩
  · exact (settled_iff hq).mpr (hall hclean es₁ es₂ s hes hs)
  · refine meets_iff.mpr fun es₁ e es₂ t hes ht => ?_
    -- the event after a prefix is clean, as the accounts hold before and after it
    obtain ⟨s, hs⟩ := Option.isSome_iff_exists.mp hrun
    rw [hes] at hs
    obtain ⟨t', ht', hrest⟩ := run_prefix hs
    cases ht.symm.trans ht'
    obtain ⟨u, hu, _⟩ := Option.bind_eq_some_iff.mp hrest
    have hbefore := hacc es₁ (e :: es₂) t hes ht
    have hafter := hacc (es₁ ++ [e]) es₂ u (by rw [hes, List.append_assoc]; rfl)
      (run_snoc.mpr ⟨t, ht, hu⟩)
    have hlog : outcomes threads host (es₁ ++ [e]) =
        outcomes threads host es₁ ++ outcome t e := by
      rw [outcomes, observe_append _ _ ht]
      simp [observe, hu, outcomes]
    rw [hlog] at hafter
    exact (accounted_step hbefore hu).mp hafter

/-! ## 4. A failed `init` -/

theorem quiescent_oneCreation (ok : Bool) :
    ∃ s, run (step fun _ => none) (System.init 1) (oneCreation ok) = some s ∧ s.Quiescent := by
  refine ⟨_, rfl, fun _ => rfl, fun wk hwk => ?_⟩
  cases hwk with
  | head => rfl
  | tail _ h => cases h

/-- After one creation whose `init` returned true, the account is settled. -/
theorem service_accounting_one :
    ∃ s, run (step fun _ => none) (System.init 1) (oneCreation true) = some s ∧ s.Quiescent ∧
      s.Settled (outcomes 1 (fun _ => none) (oneCreation true)) := by
  obtain ⟨s, hs, hq⟩ := quiescent_oneCreation true
  exact ⟨s, hs, hq, (service_accounting 1 _ (oneCreation true) rfl).1 (by decide) _ [] s
    (List.append_nil _).symm hs hq⟩

/-- After one creation whose `init` returned false, the worker counts a service,
though nothing is queued and nothing was initialised. -/
theorem failedInit_not_settled :
    ∃ s, run (step fun _ => none) (System.init 1) (oneCreation false) = some s ∧ s.Quiescent ∧
      ¬ s.Settled (outcomes 1 (fun _ => none) (oneCreation false)) := by
  obtain ⟨s, hs, hq⟩ := quiescent_oneCreation false
  refine ⟨s, hs, hq, fun h => ?_⟩
  obtain ⟨wk, hwk, hnum⟩ : ∃ wk, s.server.workerVec[0]? = some wk ∧ wk.serviceNum.toNat = 1 ∧
      wk.ioCtx.length = 0 := by
    cases hs
    exact ⟨_, rfl, rfl, rfl⟩
  have h0 := (h 0 wk hwk).1
  rw [hnum.1, hnum.2] at h0
  exact absurd h0 (by decide)

end LuaRobot
