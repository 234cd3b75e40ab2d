import LuaRobot.Server
import LuaRobot.WaterLevel

/-!
# Where a request is placed

`Server::nextMinWorker` scans the workers for the one with the fewest services;
`Server::newService` uses it for every option that names no worker. Here the
calls are uninterrupted: each one runs from its start to its end before the
next.

Results:
1. `nextMinWorker_spec`: the scan returns the first of the least loaded shared
   workers, and null only when all of them are full; `nextMinWorker_argmin`: so it
   does not wrap a counter.
2. `newService_placement`: one request increments one counter, and which.
3. `newService_water_filling`: requests that name no worker fill the shared
   workers like water; from a fresh server they go round; a request that names
   a worker goes there.
-/

namespace LuaRobot

open WaterLevel

/-! ## Definitions -/

/-- The worker at index `i` exists and its `shareThread` flag is true. -/
def Server.Shared (s : Server) (i : ℕ) : Prop :=
  ∃ w, s.workerVec[i]? = some w ∧ w.shareThread = true

/-- `serviceNum` of the worker at index `i` as a number. -/
def Server.count (s : Server) (i : ℕ) : ℕ := (s.serviceNum i).toNat

/-- The largest value of a `uint32_t`, which `nextMinWorker` starts from. -/
def maxCount : ℕ := 2 ^ 32 - 1

/-- Some worker after the first `n` iterations of the scan: `none` found yet,
or the first one with the fewest services. -/
inductive ScanState (s : Server) (n : ℕ) (acc : UInt32 × UInt32) : Prop
  | none : acc = scanInit → (∀ j, j < n → s.Shared j → s.count j = maxCount) → ScanState s n acc
  | found (i : ℕ) : acc.2.toNat = i + 1 → acc.1.toNat = s.count i → s.count i < maxCount →
      FirstMin (fun j => j < n ∧ s.Shared j) s.count i → ScanState s n acc

/-- The counters of `s'` are those of `s` filled up to the level `L`, `m` items
in all. -/
structure WaterFilled (s s' : Server) (L m : ℕ) : Prop where
  kept : ∀ i, ¬ s.Shared i ∨ L < s.count i → s'.count i = s.count i
  level : ∀ i, s.Shared i → s.count i ≤ L → s'.count i = L ∨ s'.count i = L + 1
  initial : ∀ i j, s.Shared i → s.Shared j → s.count i ≤ L → s.count j ≤ L → i < j →
    s'.count j = L + 1 → s'.count i = L + 1
  total : ∑ i ∈ Finset.range s.workerVec.length, s'.count i =
    ∑ i ∈ Finset.range s.workerVec.length, s.count i + m

namespace PlacementLemmas

theorem count_le (s : Server) (i : ℕ) : s.count i ≤ maxCount := by
  have := (s.serviceNum i).toNat_lt
  unfold Server.count maxCount
  omega

theorem shared_lt {s : Server} {i : ℕ} (h : s.Shared i) : i < s.workerVec.length := by
  obtain ⟨w, hw, _⟩ := h
  exact (List.getElem?_eq_some_iff.mp hw).1

theorem count_eq {s : Server} {i : ℕ} {w : Worker} (h : s.workerVec[i]? = some w) :
    s.count i = w.serviceNum.toNat := by
  unfold Server.count
  rw [serviceNum_of_getElem? h]

theorem shared_iff {s : Server} {i : ℕ} {w : Worker} (h : s.workerVec[i]? = some w) :
    s.Shared i ↔ w.shareThread = true := by
  simp [Server.Shared, h]

theorem firstMin_extend {s : Server} {n i : ℕ}
    (h : FirstMin (fun j => j < n ∧ s.Shared j) s.count i)
    (hn : s.Shared n → s.count i ≤ s.count n) :
    FirstMin (fun j => j < n + 1 ∧ s.Shared j) s.count i where
  mem := ⟨Nat.lt_succ_of_lt h.mem.1, h.mem.2⟩
  least := by
    rintro j ⟨hj, hs⟩
    rcases Nat.lt_succ_iff_lt_or_eq.mp hj with hlt | rfl
    · exact h.least j ⟨hlt, hs⟩
    · exact hn hs
  first := by
    rintro j ⟨hj, hs⟩ hji
    exact h.first j ⟨lt_trans hji h.mem.1, hs⟩ hji

/-- One iteration of the scan. -/
theorem scanState_step {s : Server} {n : ℕ} {acc : UInt32 × UInt32} {w : Worker}
    (h : ScanState s n acc) (hw : s.workerVec[n]? = some w) :
    ScanState s (n + 1) (scanWorker acc w) := by
  have hcount := count_eq hw
  have hshared := shared_iff hw
  unfold scanWorker
  by_cases htake : (w.shareThread && w.serviceNum < acc.1) = true
  · rw [if_pos htake]
    obtain ⟨hs, hlt⟩ := Bool.and_eq_true_iff.mp htake
    have hlt' : w.serviceNum.toNat < acc.1.toNat := UInt32.lt_iff_toNat_lt.mp (of_decide_eq_true hlt)
    -- every worker scanned before has at least `acc.1` services
    have hbefore : ∀ j, j < n → s.Shared j → acc.1.toNat ≤ s.count j := by
      intro j hj hsj
      cases h with
      | none hacc hfull =>
        rw [hacc, hfull j hj hsj]
        decide
      | found i _ hmin _ hfirst =>
        rw [hmin]
        exact hfirst.least j ⟨hj, hsj⟩
    have hacc := UInt32.toNat_lt acc.1
    refine .found n (s.numbered n w hw) hcount.symm (by unfold maxCount; omega) ⟨?_, ?_, ?_⟩
    · exact ⟨Nat.lt_succ_self n, hshared.mpr hs⟩
    · rintro j ⟨hj, hsj⟩
      rcases Nat.lt_succ_iff_lt_or_eq.mp hj with hlt | rfl
      · have := hbefore j hlt hsj
        omega
      · exact le_rfl
    · rintro j ⟨_, hsj⟩ hj
      have := hbefore j hj hsj
      omega
  · rw [if_neg htake]
    have hge : s.Shared n → acc.1.toNat ≤ s.count n := by
      intro hs
      by_contra hlt
      refine htake (Bool.and_eq_true_iff.mpr ⟨hshared.mp hs, decide_eq_true ?_⟩)
      exact UInt32.lt_iff_toNat_lt.mpr (by omega)
    cases h with
    | none hacc hfull =>
      refine .none hacc fun j hj hsj => ?_
      rcases Nat.lt_succ_iff_lt_or_eq.mp hj with hlt | rfl
      · exact hfull j hlt hsj
      · have := hge hsj
        have hmax : acc.1.toNat = maxCount := by rw [hacc]; decide
        have := count_le s j
        omega
    | found i hid hmin hlt hfirst =>
      exact .found i hid hmin hlt (firstMin_extend hfirst fun hs => hmin ▸ hge hs)

theorem scanState_take (s : Server) (n : ℕ) (hn : n ≤ s.workerVec.length) :
    ScanState s n ((s.workerVec.take n).foldl scanWorker scanInit) := by
  induction n with
  | zero => exact .none rfl fun j hj => absurd hj (Nat.not_lt_zero j)
  | succ n ih =>
    have hlt : n < s.workerVec.length := hn
    rw [List.take_add_one, List.getElem?_eq_getElem hlt, Option.toList_some, List.foldl_append]
    exact scanState_step (ih (by omega)) (List.getElem?_eq_getElem hlt)

end PlacementLemmas

open PlacementLemmas

/-! ## 1. The scan -/

/-- `nextMinWorker` returns null exactly when every shared worker has reached
the largest count, and otherwise the first shared worker with the least count,
which is below it. -/
theorem nextMinWorker_spec (s : Server) :
    (s.nextMinWorker = none ∧ ∀ j, s.Shared j → s.count j = maxCount) ∨
    ∃ i, s.nextMinWorker = some i ∧ s.count i < maxCount ∧ FirstMin s.Shared s.count i := by
  unfold Server.nextMinWorker
  split
  · next hempty =>
    refine Or.inl ⟨rfl, fun j hj => ?_⟩
    have := shared_lt hj
    rw [List.isEmpty_iff.mp hempty] at this
    exact absurd this (Nat.not_lt_zero j)
  · have h := scanState_take s s.workerVec.length le_rfl
    rw [List.take_length] at h
    cases h with
    | none hacc hfull =>
      refine Or.inl ⟨by rw [hacc]; rfl, fun j hj => hfull j (shared_lt hj) hj⟩
    | found i hid _ hlt hfirst =>
      refine Or.inr ⟨i, ?_, hlt, hfirst.mem.2, fun j hj => hfirst.least j ⟨shared_lt hj, hj⟩,
        fun j hj => hfirst.first j ⟨shared_lt hj, hj⟩⟩
      have hne : (s.workerVec.foldl scanWorker scanInit).2 ≠ 0 := by
        intro h0
        rw [h0] at hid
        exact absurd hid (by simp)
      rw [scanResult, if_neg hne, hid, Nat.add_sub_cancel]

theorem nextMinWorker_of_firstMin {s : Server} {i : ℕ} (hi : FirstMin s.Shared s.count i)
    (hlt : s.count i < maxCount) : s.nextMinWorker = some i := by
  rcases nextMinWorker_spec s with ⟨_, hfull⟩ | ⟨j, hj, _, hfirst⟩
  · have := hfull i hi.mem
    omega
  · rw [hj, firstMin_unique hfirst hi]

/-! ## 2. One request -/

namespace PlacementLemmas

theorem newService_of_unpinned {s : Server} {o : ServiceOption} {i : ℕ} (ho : s.Unpinned o)
    (hi : s.nextMinWorker = some i) :
    s.newService o = s.update i (·.newService o) (newService_workerID o) := by
  unfold Server.newService
  rw [getWorkerByWorkerID_eq_none.mpr ho, hi]

theorem newService_of_pinned {s : Server} {o : ServiceOption} (h1 : 1 ≤ o.workerID.toNat)
    (hT : o.workerID.toNat ≤ s.workerVec.length) :
    s.newService o = s.update (o.workerID.toNat - 1) (·.newService o) (newService_workerID o) := by
  unfold Server.newService
  rw [getWorkerByWorkerID_eq_some h1 hT]

/-- A request placed on worker `i` changes one counter, by one modulo
`2 ^ 32`. -/
theorem serviceNum_newService (s : Server) {i : ℕ} (j : ℕ) (o : ServiceOption)
    (hi : i < s.workerVec.length) :
    (s.update i (·.newService o) (newService_workerID o)).serviceNum j =
      if i = j then s.serviceNum j + 1 else s.serviceNum j :=
  serviceNum_update_of_increments s j (newService_workerID o) (fun _ => rfl) hi

theorem shared_update {s : Server} {i j : ℕ} {f : Worker → Worker}
    (hf : ∀ w, (f w).workerID = w.workerID) (h : ∀ w, (f w).shareThread = w.shareThread) :
    (s.update i f hf).Shared j ↔ s.Shared j := by
  unfold Server.Shared
  rw [workerVec_update]
  cases hj : s.workerVec[j]? with
  | none => simp
  | some w =>
    simp only [Option.map_some, Option.some.injEq, exists_eq_left']
    split
    · rw [h]
    · rfl

end PlacementLemmas

/-- A request that names no worker adds one item to the first of the least
loaded shared workers, as long as that worker is not full. -/
theorem newService_placement {s : Server} {o : ServiceOption} (ho : s.Unpinned o)
    (hex : ∃ i, s.Shared i ∧ s.count i < maxCount) :
    ∃ i, s.newService o = s.update i (·.newService o) (newService_workerID o) ∧
      FirstMin s.Shared s.count i ∧ OneMore s.count (s.newService o).count i := by
  rcases nextMinWorker_spec s with ⟨_, hfull⟩ | ⟨i, hi, hlt, hfirst⟩
  · obtain ⟨j, hj, hjlt⟩ := hex
    have := hfull j hj
    omega
  · have heq := newService_of_unpinned ho hi
    have hcount := fun j => serviceNum_newService s j o (shared_lt hfirst.mem)
    refine ⟨i, heq, hfirst, ?_, ?_⟩
    · unfold Server.count at hlt ⊢
      unfold maxCount at hlt
      rw [heq, hcount i, if_pos rfl, UInt32.toNat_add, UInt32.toNat_one]
      omega
    · intro j hj
      unfold Server.count
      rw [heq, hcount j, if_neg (Ne.symm hj)]

/-- `nextMinWorker` returns null exactly when every shared worker is full.
Otherwise it returns the shared worker with the least count, the one with the
lowest `workerID` if there are several; it is in `workerVec`, and a request that
goes there does not wrap its counter. -/
theorem nextMinWorker_argmin (s : Server) :
    (s.nextMinWorker = none ↔
      ∀ w ∈ s.workerVec, w.shareThread = true → w.serviceNum = 0xFFFFFFFF) ∧
    ∀ i, s.nextMinWorker = some i → ∃ w, s.workerVec[i]? = some w ∧ w.shareThread = true ∧
      (∀ v ∈ s.workerVec, v.shareThread = true → w.serviceNum ≤ v.serviceNum ∧
        (v.serviceNum = w.serviceNum → w.workerID ≤ v.workerID)) ∧
      ∀ o, s.Unpinned o → (s.newService o).count i = s.count i + 1 := by
  have hfull : (∀ w ∈ s.workerVec, w.shareThread = true → w.serviceNum = 0xFFFFFFFF) ↔
      ∀ i, s.Shared i → s.count i = maxCount := by
    constructor
    · rintro h i ⟨w, hw, hshare⟩
      rw [count_eq hw, h w (List.mem_of_getElem? hw) hshare]
      rfl
    · intro h w hw hshare
      obtain ⟨i, hi⟩ := List.mem_iff_getElem?.mp hw
      have hmax := h i ⟨w, hi, hshare⟩
      rw [count_eq hi] at hmax
      exact UInt32.toNat_inj.mp hmax
  rw [hfull]
  rcases nextMinWorker_spec s with ⟨hnone, hmax⟩ | ⟨i, hi, hlt, hfirst⟩
  · refine ⟨iff_of_true hnone hmax, fun i hi => ?_⟩
    rw [hnone] at hi
    cases hi
  · constructor
    · rw [hi]
      refine iff_of_false (Option.some_ne_none i) fun hmax => ?_
      have := hmax i hfirst.mem
      omega
    · intro j hj
      cases hi.symm.trans hj
      obtain ⟨w, hw, hshare⟩ := hfirst.mem
      refine ⟨w, hw, hshare, fun v hv hvshare => ?_, fun o ho => ?_⟩
      · obtain ⟨k, hk⟩ := List.mem_iff_getElem?.mp hv
        have hleast := hfirst.least k ⟨v, hk, hvshare⟩
        rw [count_eq hw, count_eq hk] at hleast
        refine ⟨UInt32.le_iff_toNat_le.mpr hleast, fun heq => ?_⟩
        rw [UInt32.le_iff_toNat_le, s.numbered i w hw, s.numbered k v hk]
        -- a shared worker before the first least one has strictly more
        by_contra hki
        have := hfirst.first k ⟨v, hk, hvshare⟩ (by omega)
        rw [count_eq hw, count_eq hk, heq] at this
        omega
      · have hcount := serviceNum_newService s i o (shared_lt hfirst.mem)
        unfold Server.count at hlt ⊢
        unfold maxCount at hlt
        rw [newService_of_unpinned ho hi, hcount, if_pos rfl, UInt32.toNat_add, UInt32.toNat_one]
        omega

/-! ## 3. Many requests -/

/-- `m` requests, one after another. -/
def Server.newServices (s : Server) (options : List ServiceOption) : Server :=
  options.foldl Server.newService s

namespace PlacementLemmas

/-- What a run of requests that name no worker keeps: the vector's length, the
flags and the filled shape. -/
structure Placed (s s' : Server) (m : ℕ) : Prop where
  length : s'.workerVec.length = s.workerVec.length
  shared : ∀ i, s'.Shared i ↔ s.Shared i
  grown : ∀ i, s'.count i ≤ s.count i + m
  filled : ∃ L, Filled s.Shared s.count s'.count L ∧ ∃ i, s.Shared i ∧ s.count i ≤ L
  total : ∑ i ∈ Finset.range s.workerVec.length, s'.count i =
    ∑ i ∈ Finset.range s.workerVec.length, s.count i + m

theorem placed_start {s : Server} (hex : ∃ i, s.Shared i) : Placed s s 0 where
  length := rfl
  shared _ := Iff.rfl
  grown _ := le_rfl
  filled := filled_start hex
  total := rfl

theorem placed_step {s s' : Server} {m : ℕ} {o : ServiceOption} (h : Placed s s' m)
    (ho : s.Unpinned o) (hex : ∃ i, s.Shared i ∧ s'.count i < maxCount) :
    Placed s (s'.newService o) (m + 1) := by
  have hS : s'.Shared = s.Shared := funext fun i => propext (h.shared i)
  have ho' : s'.Unpinned o := by
    unfold Server.Unpinned
    rw [h.length]
    exact ho
  obtain ⟨i, heq, hfirst, hmore⟩ := newService_placement ho' (hS ▸ hex)
  obtain ⟨L, hfilled, hlow⟩ := h.filled
  have hlt := shared_lt hfirst.mem
  refine ⟨?_, ?_, ?_, ?_, ?_⟩
  · rw [heq, update_length, h.length]
  · intro j
    rw [heq, shared_update (newService_workerID o) (newService_shareThread o), h.shared]
  · intro j
    have hj := h.grown j
    by_cases hji : j = i
    · rw [hji] at hj ⊢
      rw [hmore.here]
      omega
    · rw [hmore.elsewhere j hji]
      omega
  · exact filled_step hfilled hlow (hS ▸ hfirst) hmore
  · rw [h.length] at hlt
    rw [sum_step _ (Finset.mem_range.mpr hlt) hmore, h.total, Nat.add_assoc]

theorem placed_newServices {s : Server} (hex : ∃ i, s.Shared i) (os : List ServiceOption)
    (ho : ∀ o ∈ os, s.Unpinned o) (hlt : ∀ i, s.count i + os.length < maxCount) :
    Placed s (s.newServices os) os.length := by
  induction os using List.reverseRecOn with
  | nil => exact placed_start hex
  | append_singleton os o ih =>
    rw [List.length_append, List.length_singleton] at hlt ⊢
    have h := ih (fun p hp => ho p (List.mem_append_left _ hp)) fun i => by
      have := hlt i
      omega
    obtain ⟨i, hi⟩ := hex
    have hroom : (s.newServices os).count i < maxCount := by
      have := h.grown i
      have := hlt i
      omega
    have hstep := placed_step h (ho o (by simp)) ⟨i, hi, hroom⟩
    rwa [Server.newServices, List.foldl_concat]

/-- A fresh server after `m` requests that name no worker. -/
structure WentRound (threads : UInt32) (s : Server) (m : ℕ) : Prop where
  length : s.workerVec.length = threads.toNat
  shared : ∀ i, s.Shared i ↔ i < threads.toNat
  count : ∀ i, i < threads.toNat → s.count i = roundRobin threads.toNat m i

theorem make_getElem? {threads : UInt32} {i : ℕ} (hi : i < threads.toNat) :
    (Server.make threads).workerVec[i]? = some { workerID := UInt32.ofNat i + 1 } := by
  simp [Server.make, hi]

/-- What every worker of a new server is. -/
theorem make_worker {threads : UInt32} {i : ℕ} {w : Worker}
    (h : (Server.make threads).workerVec[i]? = some w) :
    w = { workerID := UInt32.ofNat i + 1 } := by
  have hi : i < threads.toNat := by
    simpa [Server.make] using (List.getElem?_eq_some_iff.mp h).1
  exact Option.some.inj (h.symm.trans (make_getElem? hi))

theorem wentRound_make (threads : UInt32) : WentRound threads (Server.make threads) 0 where
  length := by simp [Server.make]
  shared := by
    intro i
    constructor
    · intro h
      simpa [Server.make] using shared_lt h
    · intro hi
      exact ⟨_, make_getElem? hi, rfl⟩
  count := by
    intro i hi
    rw [count_eq (make_getElem? hi), roundRobin_zero]
    rfl

theorem wentRound_step {threads : UInt32} {s : Server} {m : ℕ} {o : ServiceOption}
    (hT : 0 < threads.toNat) (h : WentRound threads s m) (ho : s.Unpinned o)
    (hm : m < maxCount) :
    s.newService o = s.update (m % threads.toNat) (·.newService o) (newService_workerID o) ∧
      WentRound threads (s.newService o) (m + 1) := by
  have hturn : FirstMin s.Shared s.count (m % threads.toNat) :=
    firstMin_congr h.shared h.count (roundRobin_first hT m)
  have hlt : s.count (m % threads.toNat) < maxCount := by
    have hdiv := Nat.div_le_self m threads.toNat
    rw [h.count _ (Nat.mod_lt m hT), roundRobin, if_neg (lt_irrefl _)]
    omega
  obtain ⟨i, heq, hfirst, hmore⟩ := newService_placement ho ⟨_, hturn.mem, hlt⟩
  have hi := firstMin_unique hfirst hturn
  subst hi
  refine ⟨heq, ⟨?_, ?_, ?_⟩⟩
  · rw [heq, update_length, h.length]
  · intro j
    rw [heq, shared_update (newService_workerID o) (newService_shareThread o), h.shared]
  · intro j hj
    rw [roundRobin_step hT m hj, ← h.count j hj]
    by_cases hji : j = m % threads.toNat
    · rw [if_pos hji, hji]
      exact hmore.here
    · rw [if_neg hji]
      exact hmore.elsewhere j hji

theorem wentRound_newServices {threads : UInt32} (hT : 0 < threads.toNat)
    (os : List ServiceOption) (ho : ∀ o ∈ os, (Server.make threads).Unpinned o)
    (hlt : os.length < maxCount) :
    WentRound threads ((Server.make threads).newServices os) os.length := by
  induction os using List.reverseRecOn with
  | nil => exact wentRound_make threads
  | append_singleton os o ih =>
    rw [List.length_append, List.length_singleton] at hlt ⊢
    have h := ih (fun p hp => ho p (List.mem_append_left _ hp)) (by omega)
    have ho' : ((Server.make threads).newServices os).Unpinned o := by
      have := ho o (by simp)
      unfold Server.Unpinned at this ⊢
      rw [h.length]
      rwa [(wentRound_make threads).length] at this
    have hstep := (wentRound_step hT h ho' (by omega)).2
    rwa [Server.newServices, List.foldl_concat]

end PlacementLemmas

/-- Sequential placement is water filling.
* From any counters and flags, `m` requests that name no worker fill the shared
  workers up to some level, `m` items in all.
* On a fresh server they go to the workers in turn.
* A request that names an existing worker adds one, modulo `2 ^ 32`, to the
  counter of that worker and leaves the others. -/
theorem newService_water_filling :
    (∀ (s : Server) (os : List ServiceOption), (∃ i, s.Shared i) →
      (∀ o ∈ os, s.Unpinned o) → (∀ i, s.count i + os.length < maxCount) →
      ∃ L, WaterFilled s (s.newServices os) L os.length) ∧
    (∀ (threads : UInt32) (os : List ServiceOption) (o : ServiceOption), 0 < threads.toNat →
      (∀ p ∈ os ++ [o], (Server.make threads).Unpinned p) → (os ++ [o]).length < maxCount →
      (Server.make threads).newServices (os ++ [o]) =
        ((Server.make threads).newServices os).update (os.length % threads.toNat)
          (·.newService o) (newService_workerID o)) ∧
    (∀ (s : Server) (o : ServiceOption), 1 ≤ o.workerID.toNat →
      o.workerID.toNat ≤ s.workerVec.length →
      ∀ i, (s.newService o).serviceNum i =
        if i + 1 = o.workerID.toNat then s.serviceNum i + 1 else s.serviceNum i) := by
  refine ⟨?_, ?_, ?_⟩
  · intro s os hex ho hlt
    have h := placed_newServices hex os ho hlt
    obtain ⟨L, hL, _⟩ := h.filled
    refine ⟨L, ⟨?_, hL.level, hL.initial, h.total⟩⟩
    rintro i (hns | habove)
    · exact hL.outside i hns
    · by_cases hi : s.Shared i
      · exact hL.above i hi habove
      · exact hL.outside i hi
  · intro threads os o hT ho hlt
    rw [List.length_append, List.length_singleton] at hlt
    have h := wentRound_newServices hT os (fun p hp => ho p (List.mem_append_left _ hp)) (by omega)
    have ho' : ((Server.make threads).newServices os).Unpinned o := by
      have := ho o (by simp)
      unfold Server.Unpinned at this ⊢
      rw [h.length]
      rwa [(wentRound_make threads).length] at this
    rw [Server.newServices, List.foldl_concat]
    exact (wentRound_step hT h ho' (by omega)).1
  · intro s o h1 hT i
    rw [newService_of_pinned h1 hT, serviceNum_newService s i o (by omega)]
    split <;> split <;> first | rfl | omega

/-- Two workers, the first with two services more than the second. -/
def unequalServer : Server where
  workerVec := [{ workerID := 1, serviceNum := 2 }, { workerID := 2 }]
  numbered := by
    rintro (_ | _ | i) w h
    · cases h
      rfl
    · cases h
      rfl
    · cases h

/-- Three requests on the unequal server, the second request on a fresh server,
and one request for the second worker. -/
theorem newService_water_filling_two :
    (∃ L, WaterFilled unequalServer (unequalServer.newServices [{}, {}, {}]) L 3) ∧
    (Server.make 2).newServices [{}, {}] =
      ((Server.make 2).newServices [{}]).update 1 (·.newService {}) (newService_workerID {}) ∧
    (unequalServer.newService { workerID := 2 }).serviceNum 1 =
      unequalServer.serviceNum 1 + 1 := by
  refine ⟨?_, ?_, ?_⟩
  · refine newService_water_filling.1 unequalServer [{}, {}, {}] ⟨0, _, rfl, rfl⟩ (by decide) ?_
    rintro (_ | _ | i)
    · decide
    · decide
    · exact show 0 + 3 < maxCount by decide
  · exact newService_water_filling.2.1 2 [{}] {} (by decide) (by decide) (by decide)
  · exact newService_water_filling.2.2 unequalServer { workerID := 2 } (by decide) (by decide) 1

end LuaRobot
