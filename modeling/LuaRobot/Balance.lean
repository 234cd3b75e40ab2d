import LuaRobot.Threads
import Mathlib.Data.Fintype.Card
import Mathlib.Data.Fintype.Option

/-!
# Load balance under concurrent requests

A scan of `nextMinWorker` is torn: it reads the counters at different times, and
the increment lands later still, so the fullest worker may be chosen again. What
bounds the gap between two workers `u` and `v` is that one caller makes at most
one of the increments that open it. Fix a bound `b` that `v` has not passed. Once
`u` has passed `b`, a call that starts afresh reads more than `b` at `u` and at
most `b` at `v`, so it cannot choose `u`: only the calls that were already under
way, one for each thread, can still add to `u`.

Results:
1. `balanced_step`: the counting invariant that says so is kept by every event.
2. `gap_le`: the gap is at most the number of threads.
3. `gap_attained`: it is attained.
4. `gap_attained_hosted`: the main thread and the threads of the workers, which
   make requests only inside a handler, attain it too.
5. `load_balance`: the bound, and that it is attained.
-/

namespace LuaRobot

open Runs PlacementLemmas ThreadsLemmas

/-! ## Definitions -/

/-- The call cannot end in an increment of worker `u` any more while worker `v`
has at most `b` services and `u` has more. -/
def Call.Harmless (u v b : ℕ) : Call → Prop
  | .idle => True
  | .scan _ i acc => (acc.2.toNat = u + 1 → b < acc.1.toNat) ∧ (v < i → acc.1.toNat ≤ b)
  | .fetchAdd _ w => w ≠ u
  | .post _ _ => True

instance (u v b : ℕ) : (c : Call) → Decidable (c.Harmless u v b)
  | .idle => inferInstanceAs (Decidable True)
  | .scan _ i acc =>
    inferInstanceAs (Decidable ((acc.2.toNat = u + 1 → b < acc.1.toNat) ∧ (v < i → acc.1.toNat ≤ b)))
  | .fetchAdd _ w => inferInstanceAs (Decidable (w ≠ u))
  | .post _ _ => inferInstanceAs (Decidable True)

variable {ι : Type} [DecidableEq ι] [Fintype ι]

/-- The threads whose call may still increment `u`. -/
def System.threats (s : System ι) (u v b : ℕ) : Finset ι :=
  Finset.univ.filter fun p => ¬ (s.calls p).Harmless u v b

/-- The part of the gap that is open, and the threads that may still widen it. -/
def System.Balanced (s : System ι) : Prop :=
  ∀ u v b, u < s.server.workerVec.length → v < s.server.workerVec.length →
    s.server.count v ≤ b → b < s.server.count u →
    s.server.count u + (s.threats u v b).card ≤ b + Fintype.card ι

/-- No counter has reached the largest value. -/
def System.BelowMax (s : System ι) : Prop := ∀ i, s.server.count i < maxCount

/-- The event is no request that names a worker. -/
def Event.Unpinned (server : Server) : Event ι → Prop
  | .request _ option => server.Unpinned option
  | _ => True

/-- What a run keeps: all flags true, the calls in range, the bound. -/
structure BalanceInv (s : System ι) : Prop where
  shared : ∀ i, i < s.server.workerVec.length → s.server.Shared i
  inRange : ∀ p, (s.calls p).InRange s.server.workerVec.length
  balanced : s.Balanced

namespace BalanceLemmas

omit [DecidableEq ι] in
theorem mem_threats {s : System ι} {u v b : ℕ} {p : ι} :
    p ∈ s.threats u v b ↔ ¬ (s.calls p).Harmless u v b := by
  simp [System.threats]

/-- A thread that does not become a threat adds none. -/
theorem threats_move {s : System ι} {u v b : ℕ} {p : ι} {c : Call} (server : Server)
    (h : (s.calls p).Harmless u v b → c.Harmless u v b) :
    (s.move p c server).threats u v b ⊆ s.threats u v b := by
  intro q hq
  rw [mem_threats] at hq ⊢
  by_cases hqp : q = p
  · subst hqp
    rw [move_calls_self] at hq
    exact fun hs => hq (h hs)
  · rwa [move_calls_of_ne _ _ _ hqp] at hq

/-- The loop keeps a harmless scan harmless: it reads more than `b` at `u` and
at most `b` at `v`. -/
theorem harmless_load {s : Server} {option : ServiceOption} {u v b i : ℕ} {acc : UInt32 × UInt32}
    {w : Worker} (hw : s.workerVec[i]? = some w) (hshare : w.shareThread = true)
    (hv : s.count v ≤ b) (hu : b < s.count u) (h : (Call.scan option i acc).Harmless u v b) :
    (Call.scan option (i + 1) (scanWorker acc w)).Harmless u v b := by
  obtain ⟨hid, hmin⟩ := h
  have hnum := count_eq hw
  have hworker := s.numbered i w hw
  simp only [Call.Harmless, scanWorker, hshare, Bool.true_and, decide_eq_true_eq]
  split
  · next hlt =>
    have hlt' := UInt32.lt_iff_toNat_lt.mp hlt
    refine ⟨fun he => ?_, fun hvi => ?_⟩
    · -- the worker just read is `u`
      have hi : i = u := by
        simp only at he
        omega
      subst hi
      simp only
      omega
    · rcases Nat.lt_succ_iff_lt_or_eq.mp hvi with hlt'' | rfl
      · have := hmin hlt''
        simp only
        omega
      · simp only
        omega
  · next hge =>
    have hge' : acc.1.toNat ≤ w.serviceNum.toNat := by
      by_contra hlt
      exact hge (UInt32.lt_iff_toNat_lt.mpr (by omega))
    refine ⟨hid, fun hvi => ?_⟩
    rcases Nat.lt_succ_iff_lt_or_eq.mp hvi with hlt | rfl
    · exact hmin hlt
    · omega

/-- A harmless scan that has read every worker does not return `u`. -/
theorem harmless_choose {option : ServiceOption} {u v b n : ℕ} {acc : UInt32 × UInt32}
    (hvn : v < n) (h : (Call.scan option n acc).Harmless u v b) :
    (afterScan option acc.2).Harmless u v b := by
  obtain ⟨hid, hmin⟩ := h
  have hle := hmin hvn
  unfold afterScan scanResult
  split
  · next w hw =>
    split at hw
    · cases hw
    · next h0 =>
      cases hw
      have h0' : acc.2.toNat ≠ 0 := fun h => h0 (UInt32.toNat_inj.mp h)
      intro he
      have := hid (by omega)
      omega
  · trivial

omit [DecidableEq ι] in
/-- An event that leaves the counters alone and adds no threat keeps the
bound. -/
theorem balanced_of_threats {s s' : System ι} (h : s.Balanced)
    (hlen : s'.server.workerVec.length = s.server.workerVec.length)
    (hcount : ∀ i, s'.server.count i = s.server.count i)
    (hthreats : ∀ u v b, u < s.server.workerVec.length → v < s.server.workerVec.length →
      s.server.count v ≤ b → b < s.server.count u → s'.threats u v b ⊆ s.threats u v b) :
    s'.Balanced := by
  intro u v b hu hv hvb hub
  rw [hlen] at hu hv
  rw [hcount] at hvb hub ⊢
  have := h u v b hu hv hvb hub
  have := Finset.card_le_card (hthreats u v b hu hv hvb hub)
  omega

theorem count_update_of_keeps (s : Server) (i j : ℕ) {f : Worker → Worker}
    (hf : ∀ w, (f w).workerID = w.workerID) (h : ∀ w, (f w).serviceNum = w.serviceNum) :
    (s.update i f hf).count j = s.count j :=
  congrArg UInt32.toNat (serviceNum_update_of_keeps s i j hf h)

theorem count_fetchAdd {s : Server} {w : ℕ} (j : ℕ) (hw : w < s.workerVec.length)
    (hlt : s.count w < maxCount) :
    (s.update w Worker.fetchAdd fetchAdd_workerID).count j = s.count j + if w = j then 1 else 0 := by
  unfold Server.count at hlt ⊢
  unfold maxCount at hlt
  rw [serviceNum_update_of_increments s j fetchAdd_workerID (fun _ => rfl) hw]
  split
  · next h =>
    subst h
    rw [UInt32.toNat_add, UInt32.toNat_one]
    omega
  · rfl

/-- The increment uses up the call that makes it. -/
theorem balanced_fetchAdd {s : System ι} {p : ι} {option : ServiceOption} {w : ℕ}
    (h : s.Balanced) (hp : s.calls p = .fetchAdd option w) (hw : w < s.server.workerVec.length)
    (hlt : s.server.count w < maxCount) :
    (s.move p (.post option w) (s.server.update w Worker.fetchAdd fetchAdd_workerID)).Balanced := by
  intro u v b hu hv hvb hub
  rw [move_server, update_length] at hu hv
  rw [move_server, count_fetchAdd _ hw hlt] at hvb hub
  rw [move_server, count_fetchAdd _ hw hlt]
  have hsub := threats_move (s := s) (u := u) (v := v) (b := b) (p := p) (c := .post option w)
    (s.server.update w Worker.fetchAdd fetchAdd_workerID) fun _ => trivial
  have hnot : p ∉ (s.move p (.post option w)
      (s.server.update w Worker.fetchAdd fetchAdd_workerID)).threats u v b := by
    rw [mem_threats, move_calls_self]
    exact fun hn => hn trivial
  by_cases hwu : w = u
  · subst hwu
    rw [if_pos rfl] at hub ⊢
    rcases Nat.lt_or_ge b (s.server.count w) with hopen | hclosed
    · -- the gap was open, and `p` was one of the threats
      have hmem : p ∈ s.threats w v b := by
        rw [mem_threats, hp]
        exact fun hn => hn rfl
      have hlt' := Finset.card_lt_card
        (Finset.ssubset_iff_subset_ne.mpr ⟨hsub, fun he => hnot (he ▸ hmem)⟩)
      have := h w v b hu hv (by omega) hopen
      omega
    · -- the gap opens by one, and every thread but `p` may be a threat
      have := Finset.card_lt_univ_of_notMem hnot
      omega
  · rw [if_neg hwu] at hub ⊢
    have := h u v b hu hv (by omega) (by omega)
    have := Finset.card_le_card hsub
    omega

end BalanceLemmas

open BalanceLemmas

/-! ## 1. The invariant -/

theorem balanced_step {host : ι → Option ℕ} {s s' : System ι} {e : Event ι} (h : BalanceInv s)
    (hmax : s.BelowMax) (he : e.Unpinned s.server) (hs : step host s e = some s') :
    BalanceInv s' := by
  refine ⟨?_, inRange_step hs h.inRange, ?_⟩
  · intro i hi
    rw [length_step hs] at hi
    exact (shared_step hs i).mpr (h.shared i hi)
  · cases e with
    | request p option =>
      obtain ⟨_, rfl⟩ := step_spec.mp hs
      refine balanced_of_threats h.balanced rfl (fun _ => rfl) fun u v b _ _ _ _ =>
        threats_move _ fun _ => ?_
      -- the scan starts with no worker found and nothing read
      rw [Server.enter, getWorkerByWorkerID_eq_none.mpr he]
      exact ⟨fun h0 => absurd h0 (by simp [scanInit]), fun h0 => absurd h0 (Nat.not_lt_zero v)⟩
    | load p =>
      obtain ⟨option, i, acc, w, hp, hw, rfl⟩ := step_spec.mp hs
      refine balanced_of_threats h.balanced rfl (fun _ => rfl) fun u v b _ _ hvb hub =>
        threats_move _ fun hh => ?_
      have hshare := (shared_iff hw).mp (h.shared i (List.getElem?_eq_some_iff.mp hw).1)
      rw [hp] at hh
      exact harmless_load hw hshare hvb hub hh
    | choose p =>
      obtain ⟨option, acc, hp, rfl⟩ := step_spec.mp hs
      refine balanced_of_threats h.balanced rfl (fun _ => rfl) fun u v b _ hv _ _ =>
        threats_move _ fun hh => ?_
      rw [hp] at hh
      exact harmless_choose hv hh
    | fetchAdd p =>
      obtain ⟨option, w, hp, rfl⟩ := step_spec.mp hs
      have hw := h.inRange p
      rw [hp] at hw
      exact balanced_fetchAdd h.balanced hp hw (hmax w)
    | post p =>
      obtain ⟨option, w, hp, rfl⟩ := step_spec.mp hs
      refine balanced_of_threats h.balanced (List.length_modify ..)
        (fun i => count_update_of_keeps _ _ _ (post_workerID option) fun _ => rfl)
        fun u v b _ _ _ _ => threats_move _ fun _ => trivial
    | start w j =>
      obtain ⟨_, rfl⟩ := step_spec.mp hs
      exact balanced_of_threats h.balanced (List.length_modify ..)
        (fun i => count_update_of_keeps _ _ _ (startHandler_workerID j) (startHandler_serviceNum j))
        fun u v b _ _ _ _ => subset_rfl
    | finish w ok =>
      obtain ⟨_, rfl⟩ := step_spec.mp hs
      exact balanced_of_threats h.balanced (List.length_modify ..)
        (fun i => count_update_of_keeps _ _ _ (finishHandler_workerID ok) (finishHandler_serviceNum ok))
        fun u v b _ _ _ _ => subset_rfl

/-! ## 2. The bound -/

namespace BalanceLemmas

omit [DecidableEq ι] [Fintype ι] in
theorem init_shared (threads : UInt32) (i : ℕ)
    (hi : i < (System.init threads : System ι).server.workerVec.length) :
    (System.init threads : System ι).server.Shared i :=
  ((wentRound_make threads).shared i).mpr ((wentRound_make threads).length ▸ hi)

omit [DecidableEq ι] [Fintype ι] in
theorem init_count (threads : UInt32) (i : ℕ) :
    (System.init threads : System ι).server.count i = 0 := by
  unfold Server.count Server.serviceNum
  cases h : (System.init threads : System ι).server.workerVec[i]? with
  | none => rfl
  | some w =>
    rw [make_worker h]
    rfl

omit [DecidableEq ι] in
theorem balanceInv_init (threads : UInt32) : BalanceInv (System.init threads : System ι) where
  shared := init_shared threads
  inRange _ := trivial
  balanced := by
    intro u v b _ _ _ hub
    rw [init_count] at hub
    exact absurd hub (Nat.not_lt_zero b)

end BalanceLemmas

/-- In every run whose requests name no worker and whose states but the last
have every counter below the largest value, two counters differ by at most the
number of threads. -/
theorem gap_le {threads : UInt32} {host : ι → Option ℕ} {es : List (Event ι)} {s : System ι}
    (hrun : run (step host) (System.init threads) es = some s)
    (hmeets : Meets (step host) (fun t e => t.BelowMax ∧ e.Unpinned t.server)
      (System.init threads) es)
    {u v : ℕ} (hu : u < s.server.workerVec.length) (hv : v < s.server.workerVec.length) :
    s.server.count u ≤ s.server.count v + Fintype.card ι := by
  have hinv : BalanceInv s := run_invariant (fun t e t' ht hg hs => balanced_step ht hg.1 hg.2 hs)
    (balanceInv_init threads) hmeets hrun
  rcases Nat.lt_or_ge (s.server.count v) (s.server.count u) with hlt | hge
  · have := hinv.balanced u v (s.server.count v) hu hv le_rfl hlt
    omega
  · omega

/-! ## 3. The bound is attained -/

/-- The threads `ps` all scan the server `s`, and only then do they all increment. -/
def Server.together (s : Server) (ps : List ι) : List (Event ι) :=
  ps.flatMap (fun p => scanEvents s p {}) ++ ps.map .fetchAdd

/-- Every thread scans the fresh server, and only then do they all increment. -/
def worstRun (threads : UInt32) (ps : List ι) : List (Event ι) :=
  (Server.make threads).together ps

/-- The state in which the threads `ps` have chosen the first worker. -/
def System.chosen (s : System ι) (ps : List ι) : System ι :=
  ⟨s.server, fun p => if p ∈ ps then .fetchAdd {} 0 else s.calls p⟩

def Event.isFetchAdd : Event ι → Bool
  | .fetchAdd _ => true
  | _ => false

namespace BalanceLemmas

theorem nextMinWorker_of_wentRound {threads : UInt32} {s : Server} (hT : 0 < threads.toNat) {m : ℕ}
    (h : WentRound threads s m) (hm : m % threads.toNat = 0) (hmax : m / threads.toNat < maxCount) :
    s.nextMinWorker = some 0 := by
  have hfirst := WaterLevel.firstMin_congr h.shared h.count (WaterLevel.roundRobin_first hT m)
  rw [hm] at hfirst
  refine nextMinWorker_of_firstMin hfirst ?_
  rw [h.count 0 hT, WaterLevel.roundRobin, hm, if_neg (lt_irrefl 0)]
  omega

omit [Fintype ι] in
theorem chosen_snoc (s : System ι) (ps : List ι) (p : ι) :
    (s.chosen ps).move p (.fetchAdd {} 0) s.server = s.chosen (ps ++ [p]) := by
  unfold System.chosen System.move
  congr 1
  funext q
  by_cases hq : q = p
  · subst hq
    simp
  · simp [hq]

theorem run_scans {host : ι → Option ℕ} {s : System ι} (hmin : s.server.nextMinWorker = some 0)
    (ps : List ι) (hnd : ps.Nodup) (hcall : ∀ p ∈ ps, s.MayCall host p) :
    run (step host) s (ps.flatMap fun p => scanEvents s.server p {}) = some (s.chosen ps) := by
  induction ps using List.reverseRecOn with
  | nil => simp [System.chosen]
  | append_singleton ps p ih =>
    obtain ⟨hps, -, hdis⟩ := List.nodup_append.mp hnd
    have hp : p ∉ ps := fun hmem => hdis p hmem p (by simp) rfl
    obtain ⟨hidle, hbusy⟩ := hcall p (by simp)
    have hcallp : (s.chosen ps).MayCall host p := ⟨by simpa [System.chosen, hp] using hidle, hbusy⟩
    have hscan := run_scan hcallp (show (s.chosen ps).server.Unpinned {} from Or.inl rfl)
    rw [show (s.chosen ps).server = s.server from rfl, hmin] at hscan
    have hrest := ih hps fun q hq => hcall q (List.mem_append_left _ hq)
    rw [List.flatMap_append, run_append_eq _ hrest, List.flatMap_singleton, hscan]
    exact congrArg some (chosen_snoc s ps p)

/-- The increments of `ps`, all of them on the first worker. -/
theorem run_adds (host : ι → Option ℕ) (ps : List ι) : ∀ s : System ι, ps.Nodup →
    (∀ p ∈ ps, s.calls p = .fetchAdd {} 0) → 0 < s.server.workerVec.length →
    s.server.count 0 + ps.length ≤ maxCount →
    ∃ s', run (step host) s (ps.map .fetchAdd) = some s' ∧
      s'.server.workerVec.length = s.server.workerVec.length ∧
      ∀ i, s'.server.count i = s.server.count i + if 0 = i then ps.length else 0 := by
  induction ps with
  | nil =>
    intro s _ _ _ _
    exact ⟨s, rfl, rfl, fun i => by simp⟩
  | cons p ps ih =>
    intro s hnd hcalls hlen hlt
    obtain ⟨hp, hps⟩ := List.nodup_cons.mp hnd
    rw [List.length_cons] at hlt
    have hstep : step host s (.fetchAdd p) =
        some (s.move p (.post {} 0) (s.server.update 0 Worker.fetchAdd fetchAdd_workerID)) :=
      step_spec.mpr ⟨{}, 0, hcalls p (by simp), rfl⟩
    have hcount := fun i => count_fetchAdd i hlen (show s.server.count 0 < maxCount by omega)
    obtain ⟨s', hrun, hlen', hadd⟩ := ih
      (s.move p (.post {} 0) (s.server.update 0 Worker.fetchAdd fetchAdd_workerID)) hps
      (fun q hq => by
        have hne : q ≠ p := fun he => hp (he ▸ hq)
        rw [move_calls_of_ne _ _ _ hne]
        exact hcalls q (List.mem_cons_of_mem p hq))
      (by rwa [move_server, update_length])
      (by
        rw [move_server, hcount, if_pos rfl]
        omega)
    refine ⟨s', ?_, ?_, fun i => ?_⟩
    · rw [List.map_cons, run_cons_eq _ hstep, hrun]
    · rw [hlen', move_server, update_length]
    · rw [hadd, move_server, hcount, List.length_cons]
      split <;> omega

/-- The threads `ps` go together from a state in which the first worker is next. -/
theorem run_together {host : ι → Option ℕ} {s : System ι}
    (hmin : s.server.nextMinWorker = some 0) (hlen : 0 < s.server.workerVec.length) {ps : List ι}
    (hnd : ps.Nodup) (hcall : ∀ p ∈ ps, s.MayCall host p)
    (hlt : s.server.count 0 + ps.length ≤ maxCount) :
    ∃ s', run (step host) s (s.server.together ps) = some s' ∧
      s'.server.workerVec.length = s.server.workerVec.length ∧
      ∀ i, s'.server.count i = s.server.count i + if 0 = i then ps.length else 0 := by
  obtain ⟨s', hrun, hadd⟩ := run_adds host ps (s.chosen ps) hnd
    (fun p hp => by simp [System.chosen, hp]) hlen hlt
  exact ⟨s', by rw [Server.together, run_append_eq _ (run_scans hmin ps hnd hcall), hrun], hadd⟩

theorem count_fetchAdd_le (s : Server) (w i : ℕ) :
    (s.update w Worker.fetchAdd fetchAdd_workerID).count i ≤ s.count i + 1 := by
  unfold Server.count Server.serviceNum
  rw [workerVec_update]
  cases s.workerVec[i]? with
  | none => exact Nat.zero_le _
  | some wk =>
    simp only [Option.map_some, Option.getD_some]
    split
    · rw [Worker.fetchAdd, UInt32.toNat_add, UInt32.toNat_one]
      exact Nat.mod_le _ _
    · exact Nat.le_succ _

/-- A counter grows only by the `fetch_add` events. -/
theorem count_step_le {host : ι → Option ℕ} {s s' : System ι} {e : Event ι}
    (h : step host s e = some s') (i : ℕ) :
    s'.server.count i ≤ s.server.count i + [e].countP Event.isFetchAdd := by
  cases e with
  | request p option | load p | choose p =>
    rw [server_of_readsOnly h trivial]
    exact Nat.le_add_right ..
  | fetchAdd p =>
    obtain ⟨_, w, _, rfl⟩ := step_spec.mp h
    exact count_fetchAdd_le s.server w i
  | post p =>
    obtain ⟨option, w, _, rfl⟩ := step_spec.mp h
    rw [move_server, count_update_of_keeps _ _ _ (post_workerID option) fun _ => rfl]
    exact Nat.le_add_right ..
  | start w j =>
    obtain ⟨_, rfl⟩ := step_spec.mp h
    rw [count_update_of_keeps _ _ _ (startHandler_workerID j) (startHandler_serviceNum j)]
    exact Nat.le_add_right ..
  | finish w ok =>
    obtain ⟨_, rfl⟩ := step_spec.mp h
    rw [count_update_of_keeps _ _ _ (finishHandler_workerID ok) (finishHandler_serviceNum ok)]
    exact Nat.le_add_right ..

theorem count_run_le {threads : UInt32} {host : ι → Option ℕ} {es : List (Event ι)} {s : System ι}
    (hrun : run (step host) (System.init threads) es = some s) (i : ℕ) :
    s.server.count i ≤ es.countP Event.isFetchAdd := by
  induction es using List.reverseRecOn generalizing s with
  | nil =>
    cases hrun
    rw [init_count]
    exact Nat.zero_le _
  | append_singleton es e ih =>
    obtain ⟨t, ht, hs⟩ := run_snoc.mp hrun
    rw [List.countP_append]
    have := ih ht
    have := count_step_le hs i
    omega

/-- A run with fewer increments than the largest value whose requests name no
worker is one that the bound speaks of. -/
theorem meets_of_countP {threads : UInt32} {host : ι → Option ℕ} {es : List (Event ι)}
    {s : System ι} (hrun : run (step host) (System.init threads) es = some s)
    (hlt : es.countP Event.isFetchAdd < maxCount) (hun : ∀ e ∈ es, ∀ server, e.Unpinned server) :
    Meets (step host) (fun t e => t.BelowMax ∧ e.Unpinned t.server) (System.init threads) es ∧
      s.BelowMax := by
  have hbelow : ∀ es₁ es₂ t, es = es₁ ++ es₂ →
      run (step host) (System.init threads) es₁ = some t → t.BelowMax := by
    intro es₁ es₂ t hes ht i
    have h1 := count_run_le ht i
    rw [hes, List.countP_append] at hlt
    omega
  refine ⟨meets_iff.mpr fun es₁ e es₂ t hes ht => ⟨hbelow es₁ _ t hes ht, ?_⟩,
    hbelow es [] s (List.append_nil es).symm hrun⟩
  exact hun e (by rw [hes]; simp) t.server

omit [DecidableEq ι] [Fintype ι] in
theorem mem_scanEvents {s : Server} {p : ι} {e : Event ι} (h : e ∈ scanEvents s p {}) :
    e = .request p {} ∨ e = .load p ∨ e = .choose p := by
  simp only [scanEvents, List.mem_cons, List.mem_append, List.mem_replicate, List.not_mem_nil,
    or_false] at h
  rcases h with h | ⟨_, h⟩ | h
  · exact Or.inl h
  · exact Or.inr (Or.inl h)
  · exact Or.inr (Or.inr h)

omit [DecidableEq ι] [Fintype ι] in
theorem countP_scanEvents (s : Server) (p : ι) :
    (scanEvents s p {}).countP Event.isFetchAdd = 0 := by
  rw [List.countP_eq_zero]
  intro e he
  rcases mem_scanEvents he with rfl | rfl | rfl <;> exact Bool.false_ne_true

omit [DecidableEq ι] [Fintype ι] in
theorem unpinned_scanEvents {s : Server} {p : ι} {e : Event ι} (h : e ∈ scanEvents s p {})
    (server : Server) : e.Unpinned server := by
  rcases mem_scanEvents h with rfl | rfl | rfl
  · exact Or.inl rfl
  · trivial
  · trivial

omit [DecidableEq ι] [Fintype ι] in
theorem countP_together (s : Server) (ps : List ι) :
    (s.together ps).countP Event.isFetchAdd = ps.length := by
  have hadds : (ps.map Event.fetchAdd).countP Event.isFetchAdd = ps.length := by
    rw [List.countP_map]
    exact List.countP_eq_length.mpr fun _ _ => rfl
  rw [Server.together, List.countP_append, List.countP_flatMap, hadds]
  simp [countP_scanEvents, Function.comp_def]

omit [DecidableEq ι] [Fintype ι] in
theorem unpinned_together {s : Server} {ps : List ι} {e : Event ι} (h : e ∈ s.together ps)
    (server : Server) : e.Unpinned server := by
  rcases List.mem_append.mp h with h | h
  · obtain ⟨p, _, hp⟩ := List.mem_flatMap.mp h
    exact unpinned_scanEvents hp server
  · obtain ⟨p, _, rfl⟩ := List.mem_map.mp h
    trivial

end BalanceLemmas

/-- With at least two workers, `k` threads that all scan before any of them
increments leave a gap of `k`. -/
theorem gap_attained {threads : UInt32} (hT : 2 ≤ threads.toNat) {ps : List ι} (hnd : ps.Nodup)
    (hlt : ps.length < maxCount) :
    ∃ s, run (step fun _ => none) (System.init threads) (worstRun threads ps) = some s ∧
      Meets (step fun _ => none) (fun t e => t.BelowMax ∧ e.Unpinned t.server)
        (System.init threads) (worstRun threads ps) ∧
      s.BelowMax ∧ s.server.workerVec.length = threads.toNat ∧
      s.server.count 0 = s.server.count 1 + ps.length := by
  have hround := wentRound_make threads
  have hzero : ∀ i, (Server.make threads).count i = 0 := init_count (ι := ι) threads
  have hcall : ∀ p ∈ ps, (System.init threads : System ι).MayCall (fun _ => none) p :=
    fun p _ => ⟨rfl, fun w hw => nomatch hw⟩
  obtain ⟨s, hrun, hlen, hcount⟩ := run_together
    (nextMinWorker_of_wentRound (by omega) hround (Nat.zero_mod _) (by rw [Nat.zero_div]; decide))
    (by rw [System.init, hround.length]; omega) hnd hcall (by rw [System.init, hzero]; omega)
  obtain ⟨hmeets, hbelow⟩ := meets_of_countP hrun (by rwa [countP_together])
    fun e he => unpinned_together he
  refine ⟨s, hrun, hmeets, hbelow, hlen.trans hround.length, ?_⟩
  rw [hcount, hcount, System.init, hzero, hzero]
  simp

/-! ## 4. With the threads of the process -/

/-- Every request that was placed on the worker is still queued. -/
structure Queued (wk : Worker) : Prop where
  th : wk.th = none
  length : wk.serviceNum.toNat ≤ wk.ioCtx.length

namespace BalanceLemmas

theorem queued_worker {wk : Worker} (o : ServiceOption) (h : Queued wk) :
    Queued (wk.newService o) where
  th := h.th
  length := by
    have hone : (wk.serviceNum + 1).toNat ≤ wk.serviceNum.toNat + 1 := by
      rw [UInt32.toNat_add, UInt32.toNat_one]
      exact Nat.mod_le _ _
    calc (wk.serviceNum + 1).toNat ≤ wk.serviceNum.toNat + 1 := hone
      _ ≤ wk.ioCtx.length + 1 := Nat.succ_le_succ h.length
      _ = (wk.ioCtx ++ [o]).length := by rw [List.length_append, List.length_singleton]

theorem queued_newService {s : Server} (o : ServiceOption)
    (h : ∀ (i : ℕ) wk, s.workerVec[i]? = some wk → Queued wk) :
    ∀ (i : ℕ) wk, (s.newService o).workerVec[i]? = some wk → Queued wk := by
  have hupdate : ∀ w, ∀ (i : ℕ) wk,
      (s.update w (·.newService o) (newService_workerID o)).workerVec[i]? = some wk → Queued wk :=
    fun w => forall_update (P := fun _ => Queued) _ (fun i wk _ => h i wk)
      fun wk hwk => queued_worker o (h w wk hwk)
  unfold Server.newService
  split
  · exact hupdate _
  · split
    · exact hupdate _
    · exact h

theorem queued_newServices (threads : UInt32) (os : List ServiceOption) :
    ∀ (i : ℕ) wk, ((Server.make threads).newServices os).workerVec[i]? = some wk → Queued wk := by
  induction os using List.reverseRecOn with
  | nil =>
    intro i wk hwk
    rw [make_worker hwk]
    exact ⟨rfl, le_rfl⟩
  | append_singleton os o ih =>
    rw [Server.newServices, List.foldl_concat]
    exact queued_newService o ih

omit [DecidableEq ι] [Fintype ι] in
/-- What a request that names no worker adds to the events of a run. -/
theorem callEvents_unpinned (s : Server) (p : ι) :
    (callEvents s p {}).countP Event.isFetchAdd ≤ 1 ∧
      ∀ e ∈ callEvents s p {}, ∀ server, e.Unpinned server := by
  rw [callEvents, getWorkerByWorkerID_eq_none.mpr (Or.inl rfl)]
  cases s.nextMinWorker with
  | none =>
    rw [List.append_nil, countP_scanEvents]
    exact ⟨Nat.zero_le 1, fun e he => unpinned_scanEvents he⟩
  | some w =>
    rw [List.countP_append, countP_scanEvents]
    refine ⟨le_rfl, fun e he => ?_⟩
    rcases List.mem_append.mp he with he | he
    · exact unpinned_scanEvents he
    · rcases List.mem_pair.mp he with rfl | rfl <;> exact fun _ => trivial

/-- `n` requests, one after another, of a thread that is no worker's. -/
theorem run_calls (host : ι → Option ℕ) {p : ι} (hp : host p = none) (n : ℕ) :
    ∀ s : System ι, s.calls p = .idle →
      ∃ es s', run (step host) s es = some s' ∧ s'.calls = s.calls ∧
        s'.server = s.server.newServices (List.replicate n {}) ∧
        es.countP Event.isFetchAdd ≤ n ∧ ∀ e ∈ es, ∀ server, e.Unpinned server := by
  induction n with
  | zero => exact fun s _ => ⟨[], s, rfl, rfl, rfl, le_rfl, fun e he => absurd he List.not_mem_nil⟩
  | succ n ih =>
    intro s hidle
    have hcall : s.MayCall host p := ⟨hidle, fun w hw => by rw [hp] at hw; cases hw⟩
    obtain ⟨es, s', hrun, hcalls, hserver, hcount, hun⟩ :=
      ih { s with server := s.server.newService {} } hidle
    obtain ⟨hone, hfirst⟩ := callEvents_unpinned s.server p
    refine ⟨callEvents s.server p {} ++ es, s', ?_, hcalls, hserver, ?_,
      List.forall_mem_append.mpr ⟨hfirst, hun⟩⟩
    · rw [run_append_eq es (run_newService {} hcall), hrun]
    · rw [List.countP_append]
      omega

theorem wentRound_start {threads : UInt32} {s : Server} {m w j : ℕ} (h : WentRound threads s m) :
    WentRound threads (s.update w (·.startHandler j) (startHandler_workerID j)) m where
  length := (update_length ..).trans h.length
  shared i := (shared_update _ (startHandler_shareThread j)).trans (h.shared i)
  count i hi :=
    (count_update_of_keeps _ _ _ _ (startHandler_serviceNum j)).trans (h.count i hi)

/-- The first `n` workers, which have a handler each, start it. -/
theorem run_starts (host : ι → Option ℕ) {threads : UInt32} {s : System ι}
    (h : WentRound threads s.server threads.toNat)
    (hqueued : ∀ (i : ℕ) wk, s.server.workerVec[i]? = some wk → Queued wk) (n : ℕ)
    (hn : n ≤ threads.toNat) :
    ∃ s', run (step host) s ((List.range n).map fun w => .start w 0) = some s' ∧
      s'.calls = s.calls ∧ WentRound threads s'.server threads.toNat ∧
      (∀ w, w < n → s'.server.Busy w) ∧
      ∀ w, n ≤ w → s'.server.workerVec[w]? = s.server.workerVec[w]? := by
  induction n with
  | zero => exact ⟨s, rfl, rfl, h, fun w hw => absurd hw (Nat.not_lt_zero w), fun _ _ => rfl⟩
  | succ n ih =>
    obtain ⟨t, hrun, hcalls, hround, hbusy, hrest⟩ := ih (by omega)
    have hlt : n < s.server.workerVec.length := by rw [h.length]; omega
    have hw := List.getElem?_eq_getElem hlt
    have hq := hqueued n _ hw
    have hone : s.server.workerVec[n].serviceNum.toNat = 1 := by
      rw [← count_eq hw, h.count n hn, WaterLevel.roundRobin_self (by omega)]
    have hlen : 0 < s.server.workerVec[n].ioCtx.length :=
      Nat.lt_of_lt_of_le (Nat.lt_of_lt_of_eq Nat.zero_lt_one hone.symm) hq.length
    have hstart : step host t (.start n 0) = some { t with
        server := t.server.update n (·.startHandler 0) (startHandler_workerID 0) } :=
      step_spec.mpr ⟨⟨_, (hrest n le_rfl).trans hw, by rw [hq.th]; rfl, hlen⟩, rfl⟩
    have hother : ∀ w, n ≠ w →
        (t.server.update n (·.startHandler 0) (startHandler_workerID 0)).workerVec[w]? =
          t.server.workerVec[w]? := by
      intro w hwn
      rw [workerVec_update]
      simp [hwn]
    refine ⟨{ t with server := t.server.update n (·.startHandler 0) (startHandler_workerID 0) },
      ?_, hcalls, wentRound_start hround, fun w hwn => ?_, fun w hwn => ?_⟩
    · rw [List.range_succ, List.map_append]
      exact run_snoc.mpr ⟨t, hrun, hstart⟩
    · rcases Nat.lt_succ_iff_lt_or_eq.mp hwn with hlt | rfl
      · obtain ⟨wk, hwk, hth⟩ := hbusy w hlt
        exact ⟨wk, (hother w (Nat.ne_of_gt hlt)).trans hwk, hth⟩
      · refine ⟨s.server.workerVec[w].startHandler 0, ?_, ?_⟩
        · rw [workerVec_update, hrest w le_rfl, hw]
          simp
        · rw [startHandler_eq (List.getElem?_eq_getElem hlen)]
          rfl
    · exact (hother w (by omega)).trans (hrest w (by omega))

/-- One request of `main` for each worker, and the start of `n` handlers. -/
theorem run_hosted (host : ι → Option ℕ) (main : ι) (hmain : host main = none) {threads : UInt32}
    {n : ℕ} (hT : 0 < threads.toNat) (hn : n ≤ threads.toNat) (hlt : threads.toNat < maxCount)
    (hhost : ∀ p w, host p = some w → w < n) :
    ∃ es t, run (step host) (System.init threads) es = some t ∧
      es.countP Event.isFetchAdd ≤ threads.toNat ∧ (∀ e ∈ es, ∀ server, e.Unpinned server) ∧
      (∀ p, t.MayCall host p) ∧ WentRound threads t.server threads.toNat := by
  obtain ⟨es, s, hrun, hidle, hserver, hcount, hun⟩ :=
    run_calls host hmain threads.toNat (System.init threads) rfl
  have hfull := wentRound_newServices hT (List.replicate threads.toNat {})
    (fun o ho => Or.inl (congrArg ServiceOption.workerID (List.eq_of_mem_replicate ho)))
    (by rwa [List.length_replicate])
  rw [List.length_replicate] at hfull
  obtain ⟨t, hstarts, hcalls, hround, hbusy, -⟩ := run_starts host (hserver ▸ hfull)
    (hserver ▸ queued_newServices threads _) n hn
  refine ⟨_, t, (run_append_eq _ hrun).trans hstarts, ?_, List.forall_mem_append.mpr ⟨hun, ?_⟩,
    fun p => ⟨by rw [hcalls, hidle]; rfl, fun w hw => hbusy w (hhost p w hw)⟩, hround⟩
  · have hnone : ((List.range n).map fun w => (.start w 0 : Event ι)).countP
        Event.isFetchAdd = 0 := by
      rw [List.countP_map]
      exact List.countP_eq_zero.mpr fun _ _ => Bool.false_ne_true
    rw [List.countP_append, hnone]
    exact hcount
  · intro e he server
    obtain ⟨w, _, rfl⟩ := List.mem_map.mp he
    trivial

end BalanceLemmas

/-- The main thread and the threads of `n` workers are `n + 1` callers. Once the
main thread has made a request for each worker and `n` handlers have started, they
all scan before any of them increments, and that leaves a gap of `n + 1`. -/
theorem gap_attained_hosted {threads : UInt32} {n : ℕ} (hT : 2 ≤ threads.toNat)
    (hn : n ≤ threads.toNat) (hlt : threads.toNat + (n + 1) < maxCount) :
    ∃ (es : List (Event (Option (Fin n)))) (s : System (Option (Fin n))),
      run (step (Option.map Fin.val)) (System.init threads) es = some s ∧
      Meets (step (Option.map Fin.val)) (fun t e => t.BelowMax ∧ e.Unpinned t.server)
        (System.init threads) es ∧
      s.BelowMax ∧ s.server.workerVec.length = threads.toNat ∧
      s.server.count 0 = s.server.count 1 + (n + 1) := by
  -- the main thread is `none`, and the thread of worker `i` is `some i`
  have hhost : ∀ (p : Option (Fin n)) w, p.map Fin.val = some w → w < n := by
    intro p w hw
    obtain ⟨i, _, rfl⟩ := Option.map_eq_some_iff.mp hw
    exact i.isLt
  obtain ⟨es, t, hrun, hcount, hun, hcall, hround⟩ :=
    run_hosted (Option.map Fin.val) none rfl (by omega) hn (by omega) hhost
  have hone : ∀ i, i < threads.toNat → t.server.count i = 1 := fun i hi =>
    (hround.count i hi).trans (WaterLevel.roundRobin_self (Nat.zero_lt_of_lt hi) i)
  have hmin : t.server.nextMinWorker = some 0 :=
    nextMinWorker_of_wentRound (by omega) hround (Nat.mod_self _)
      (by rw [Nat.div_self (by omega)]; decide)
  have hnd : (none :: (List.finRange n).map some).Nodup :=
    List.nodup_cons.mpr ⟨by simp, (List.nodup_finRange n).map (Option.some_injective _)⟩
  have hlength : (none :: (List.finRange n).map some).length = n + 1 := by simp
  obtain ⟨s, htogether, hlen, hadds⟩ := run_together hmin (by rw [hround.length]; omega) hnd
    (fun p _ => hcall p) (by rw [hone 0 (by omega), hlength]; omega)
  have hall := (run_append_eq _ hrun).trans htogether
  obtain ⟨hmeets, hbelow⟩ := meets_of_countP hall
    (by rw [List.countP_append, countP_together, hlength]; omega)
    (List.forall_mem_append.mpr ⟨hun, fun e he => unpinned_together he⟩)
  refine ⟨_, s, hall, hmeets, hbelow, hlen.trans hround.length, ?_⟩
  rw [hadds, hadds, hone 0 (by omega), hone 1 (by omega), hlength]
  simp

/-! ## 5. Load balance -/

/-- `k` threads whose requests name no worker, on a fresh server whose flags are
all true: under every interleaving of their loads and increments, with the
workers' handlers running in between, any two counters differ by at most `k` in
every state reached before a counter reaches `2 ^ 32 - 1`; and with at least two
workers some such run attains the difference `k`. -/
theorem load_balance (threads : UInt32) :
    (∀ (ι : Type) [DecidableEq ι] [Fintype ι] (host : ι → Option ℕ) (es : List (Event ι))
      (s : System ι), run (step host) (System.init threads) es = some s →
      Meets (step host) (fun t e => t.BelowMax ∧ e.Unpinned t.server) (System.init threads) es →
      ∀ u ∈ s.server.workerVec, ∀ v ∈ s.server.workerVec,
        u.serviceNum.toNat - v.serviceNum.toNat ≤ Fintype.card ι) ∧
    ∀ k, 1 ≤ k → k < 2 ^ 32 - 1 → 2 ≤ threads.toNat →
      ∃ (es : List (Event (Fin k))) (s : System (Fin k)),
        run (step fun _ => none) (System.init threads) es = some s ∧
        Meets (step fun _ => none) (fun t e => t.BelowMax ∧ e.Unpinned t.server)
          (System.init threads) es ∧ s.BelowMax ∧
        ∃ u ∈ s.server.workerVec, ∃ v ∈ s.server.workerVec,
          u.serviceNum.toNat - v.serviceNum.toNat = k := by
  constructor
  · intro ι _ _ host es s hrun hmeets u hu v hv
    obtain ⟨i, hi⟩ := List.mem_iff_getElem?.mp hu
    obtain ⟨j, hj⟩ := List.mem_iff_getElem?.mp hv
    have h := gap_le hrun hmeets (List.getElem?_eq_some_iff.mp hi).1
      (List.getElem?_eq_some_iff.mp hj).1
    rw [count_eq hi, count_eq hj] at h
    omega
  · intro k _ hk h2
    obtain ⟨s, hrun, hmeets, hbelow, hlen, hgap⟩ :=
      gap_attained h2 (List.nodup_finRange k) (by rw [List.length_finRange]; exact hk)
    have h0 := List.getElem?_eq_getElem (show 0 < s.server.workerVec.length by omega)
    have h1 := List.getElem?_eq_getElem (show 1 < s.server.workerVec.length by omega)
    refine ⟨_, s, hrun, hmeets, hbelow, _, List.mem_of_getElem? h0, _, List.mem_of_getElem? h1, ?_⟩
    rw [count_eq h0, count_eq h1, List.length_finRange] at hgap
    omega

/-- Two threads on two workers: the bound of two holds at the end of the run
that attains it. -/
theorem load_balance_two :
    (∃ s : System (Fin 2),
      run (step fun _ => none) (System.init 2) (worstRun 2 [0, 1]) = some s ∧
      ∀ u ∈ s.server.workerVec, ∀ v ∈ s.server.workerVec,
        u.serviceNum.toNat - v.serviceNum.toNat ≤ 2) ∧
    ∃ (es : List (Event (Fin 2))) (s : System (Fin 2)),
      run (step fun _ => none) (System.init 2) es = some s ∧
      ∃ u ∈ s.server.workerVec, ∃ v ∈ s.server.workerVec,
        u.serviceNum.toNat - v.serviceNum.toNat = 2 := by
  constructor
  · obtain ⟨s, hrun, hmeets, -⟩ := @gap_attained (Fin 2) _ _ 2 (by decide) [0, 1]
      (by decide) (by decide)
    exact ⟨s, hrun, (load_balance 2).1 (Fin 2) _ _ s hrun hmeets⟩
  · obtain ⟨es, s, hrun, -, -, hgap⟩ := (load_balance 2).2 2 (by decide) (by decide) (by decide)
    exact ⟨es, s, hrun, hgap⟩

end LuaRobot
