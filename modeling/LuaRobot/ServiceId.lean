import LuaRobot.PackedId
import LuaRobot.Threads

/-!
# The ids of services

The creation handler of worker `w` gives its `k`-th creation the id
`k | (w << 24)` in 32 bits. The counter is or-ed into the byte of the worker, so
the ids stay apart only while the counter fits below that byte, up to the
boundary cases of one and two workers.

Results:
1. `handedOut_numbered`: in every run, worker `w` hands out `k | (w << 24)` for
   `k = 1, 2, ...`.
2. `idOf_inj`, `idOf_clash`: on which workers and numbers the ids are distinct.
3. `emplace_fresh`: while they are, no `emplace` finds its key taken.
4. `service_ids`: the exact domain.
-/

namespace LuaRobot

open Runs PackedId PlacementLemmas ThreadsLemmas

/-! ## Definitions -/

/-- The id of the `k`-th creation of the worker at index `w`. -/
def idOf (w k : ℕ) : UInt32 := creationID (UInt32.ofNat k) (UInt32.ofNat (w + 1))

variable {ι : Type} [DecidableEq ι] [Fintype ι]

/-- The index of the worker and the id, when the event starts a creation. -/
def handOut (s : System ι) : Event ι → List (ℕ × UInt32)
  | .start w j =>
    ((s.server.workerVec[w]?).bind fun wk => (wk.startHandler j).th).toList.map fun c => (w, c.id)
  | _ => []

/-- The ids handed out in a run, oldest first, each with the index of its
worker. -/
def handedOut (threads : UInt32) (host : ι → Option ℕ) (es : List (Event ι)) :
    List (ℕ × UInt32) :=
  observe (step host) handOut (System.init threads) es

/-- What worker `w` handed out. -/
def ofWorker (w : ℕ) (log : List (ℕ × UInt32)) : List (ℕ × UInt32) := log.filter fun x => x.1 = w

/-- Every worker has handed out the ids of `1, 2, ...`, and counts them. -/
structure Numbered (s : System ι) (log : List (ℕ × UInt32)) : Prop where
  ids : ∀ w, ofWorker w log =
    (List.range (ofWorker w log).length).map fun k => (w, idOf w (k + 1))
  gen : ∀ w wk, s.server.workerVec[w]? = some wk →
    wk.genID = UInt32.ofNat (ofWorker w log).length
  inRange : ∀ x ∈ log, x.1 < s.server.workerVec.length

namespace ServiceIdLemmas

theorem ofWorker_append (w : ℕ) (log log' : List (ℕ × UInt32)) :
    ofWorker w (log ++ log') = ofWorker w log ++ ofWorker w log' :=
  List.filter_append ..

omit [DecidableEq ι] [Fintype ι] in
theorem handOut_start {s : System ι} {w j : ℕ} {wk : Worker} (hw : s.server.workerVec[w]? = some wk)
    (hj : j < wk.ioCtx.length) :
    handOut s (.start w j) = [(w, creationID (wk.genID + 1) (UInt32.ofNat (w + 1)))] := by
  simp [handOut, hw, startHandler_eq (List.getElem?_eq_getElem hj), workerID_eq hw]

omit [DecidableEq ι] [Fintype ι] in
/-- An event that starts no creation keeps `Numbered` when it keeps the
counters. -/
theorem numbered_of_keeps {s s' : System ι} {log : List (ℕ × UInt32)} (h : Numbered s log)
    (hlen : s'.server.workerVec.length = s.server.workerVec.length)
    (hgen : ∀ i : ℕ, (s'.server.workerVec[i]?).map Worker.genID =
      (s.server.workerVec[i]?).map Worker.genID) : Numbered s' (log ++ []) := by
  rw [List.append_nil]
  refine ⟨h.ids, fun w wk hw => ?_, fun x hx => hlen ▸ h.inRange x hx⟩
  have heq := hgen w
  rw [hw] at heq
  obtain ⟨wk₀, hw₀, hgen₀⟩ := Option.map_eq_some_iff.mp heq.symm
  rw [← hgen₀]
  exact h.gen w wk₀ hw₀

theorem numbered_start {host : ι → Option ℕ} {s s' : System ι} {log : List (ℕ × UInt32)} {w j : ℕ}
    (h : Numbered s log) (hs : step host s (.start w j) = some s') :
    Numbered s' (log ++ handOut s (.start w j)) := by
  obtain ⟨⟨wk, hw, hfree, hj⟩, rfl⟩ := step_spec.mp hs
  have hgen := h.gen w wk hw
  have hout := handOut_start hw hj
  have hnext : wk.genID + 1 = UInt32.ofNat ((ofWorker w log).length + 1) := by
    rw [hgen, UInt32.ofNat_add]
    rfl
  rw [hout, hnext]
  refine ⟨fun v => ?_, fun v vk hv => ?_, fun x hx => ?_⟩
  · by_cases hvw : w = v
    · subst hvw
      rw [ofWorker_append, h.ids w]
      simp [ofWorker, List.range_succ, idOf]
    · rw [ofWorker_append, h.ids v]
      simp [ofWorker, hvw]
  · simp only [workerVec_update] at hv
    obtain ⟨vk₀, hv₀, rfl⟩ := Option.map_eq_some_iff.mp hv
    by_cases hvw : w = v
    · subst hvw
      cases hw.symm.trans hv₀
      rw [if_pos rfl, startHandler_eq (List.getElem?_eq_getElem hj), ofWorker_append]
      simp [ofWorker, hnext]
    · rw [if_neg hvw, h.gen v vk₀ hv₀, ofWorker_append]
      simp [ofWorker, hvw]
  · rw [update_length]
    rcases List.mem_append.mp hx with hx | hx
    · exact h.inRange x hx
    · rw [List.mem_singleton] at hx
      rw [hx]
      exact (List.getElem?_eq_some_iff.mp hw).1

theorem numbered_step {host : ι → Option ℕ} {s s' : System ι} {log : List (ℕ × UInt32)}
    {e : Event ι} (h : Numbered s log) (hs : step host s e = some s') :
    Numbered s' (log ++ handOut s e) := by
  have hlen := length_step hs
  cases e with
  | start w j => exact numbered_start h hs
  | request p option | load p | choose p =>
    exact numbered_of_keeps h hlen fun _ => by rw [server_of_readsOnly hs trivial]
  | fetchAdd p =>
    obtain ⟨_, _, _, rfl⟩ := step_spec.mp hs
    exact numbered_of_keeps h hlen fun i =>
      field_update_of_keeps _ _ i fetchAdd_workerID fun _ => rfl
  | post p =>
    obtain ⟨option, _, _, rfl⟩ := step_spec.mp hs
    exact numbered_of_keeps h hlen fun i =>
      field_update_of_keeps _ _ i (post_workerID option) fun _ => rfl
  | finish w ok =>
    obtain ⟨_, rfl⟩ := step_spec.mp hs
    exact numbered_of_keeps h hlen fun i =>
      field_update_of_keeps _ _ i (finishHandler_workerID ok) (finishHandler_genID ok)

omit [DecidableEq ι] [Fintype ι] in
theorem numbered_init (threads : UInt32) : Numbered (System.init threads : System ι) [] where
  ids _ := rfl
  gen := by
    intro w wk hw
    rw [make_worker hw]
    rfl
  inRange _ hx := nomatch hx

end ServiceIdLemmas

open ServiceIdLemmas

/-! ## 1. The numbers of a run -/

theorem handedOut_numbered {threads : UInt32} {host : ι → Option ℕ} {es : List (Event ι)}
    {s : System ι} (hrun : run (step host) (System.init threads) es = some s) :
    Numbered s (handedOut threads host es) :=
  run_observes (fun _ _ _ _ h hs => numbered_step h hs) (numbered_init threads) hrun

/-! ## 2. Where the ids are distinct -/

/-- `T` workers with at most `N` creations each. -/
def IdDomain (T N : ℕ) : Prop := (T ≤ 256 ∧ N < 2 ^ 24) ∨ (T ≤ 2 ∧ N = 2 ^ 24)

theorem idOf_toNat (w k : ℕ) : (idOf w k).toNat = pack 24 ((w + 1) % 256) (k % 2 ^ 32) := by
  have htag : (UInt32.ofNat (w + 1) <<< WORKER_ID_SHIFT).toNat = ((w + 1) % 256) <<< 24 := by
    rw [UInt32.toNat_shiftLeft, UInt32.toNat_ofNat', show WORKER_ID_SHIFT.toNat % 32 = 24 from rfl,
      Nat.shiftLeft_eq, Nat.shiftLeft_eq]
    omega
  rw [idOf, creationID, UInt32.toNat_or, UInt32.toNat_ofNat', htag, pack]

theorem idOf_toNat_of_lt (w : ℕ) {k : ℕ} (hk : k < 2 ^ 32) :
    (idOf w k).toNat = pack 24 ((w + 1) % 256) k := by
  rw [idOf_toNat, Nat.mod_eq_of_lt hk]

theorem idOf_inj {T N w k w' k' : ℕ} (h : IdDomain T N) (hw : w < T) (hw' : w' < T)
    (hk : 1 ≤ k ∧ k ≤ N) (hk' : 1 ≤ k' ∧ k' ≤ N) (heq : idOf w k = idOf w' k') :
    w = w' ∧ k = k' := by
  have hN : N ≤ 2 ^ 24 := by
    rcases h with ⟨_, hN⟩ | ⟨_, hN⟩ <;> omega
  have hpack := congrArg UInt32.toNat heq
  rw [idOf_toNat_of_lt w (by omega), idOf_toNat_of_lt w' (by omega)] at hpack
  rcases h with ⟨hT, hN⟩ | ⟨hT, hN⟩
  · rw [pack_inj (by omega) (by omega)] at hpack
    omega
  · rw [pack_eq_iff] at hpack
    have hkk : k = k' := by omega
    subst hkk
    refine ⟨?_, rfl⟩
    -- only `2 ^ 24` itself reaches the byte of the worker
    have hdiv : k / 2 ^ 24 = 0 ∨ k / 2 ^ 24 = 1 := by omega
    have hw2 : w = 0 ∨ w = 1 := by omega
    have hw2' : w' = 0 ∨ w' = 1 := by omega
    rcases hdiv with hd | hd <;> rw [hd] at hpack <;> rcases hw2 with rfl | rfl <;>
      rcases hw2' with rfl | rfl <;> first | rfl | exact absurd hpack.2 (by decide)

/-- Outside the domain two creations within the budget share an id: the first
ones of workers 1 and 257, the first and the `2 ^ 24 + 1`-st of worker 1, or the
`2 ^ 24`-th ones of workers 2 and 3. -/
theorem idOf_clash {T N : ℕ} (hT : 1 ≤ T) (hN : 1 ≤ N) (h : ¬ IdDomain T N) :
    ∃ w k w' k', w < T ∧ w' < T ∧ (1 ≤ k ∧ k ≤ N) ∧ (1 ≤ k' ∧ k' ≤ N) ∧
      (w, k) ≠ (w', k') ∧ idOf w k = idOf w' k' := by
  unfold IdDomain at h
  by_cases h256 : T ≤ 256
  · by_cases hbig : 2 ^ 24 < N
    · exact ⟨0, 1, 0, 2 ^ 24 + 1, by omega, by omega, by omega, by omega, by decide, by decide⟩
    · exact ⟨1, 2 ^ 24, 2, 2 ^ 24, by omega, by omega, by omega, by omega, by decide, by decide⟩
  · exact ⟨0, 1, 256, 1, by omega, by omega, by omega, by omega, by decide, by decide⟩

/-- With at most 255 workers and numbers below `2 ^ 24` an id decodes. -/
theorem idOf_decode {w k : ℕ} (hw : w < 255) (hk : k < 2 ^ 24) :
    (idOf w k) >>> WORKER_ID_SHIFT = UInt32.ofNat (w + 1) ∧ (idOf w k).toNat % 2 ^ 24 = k := by
  have hid := idOf_toNat_of_lt w (show k < 2 ^ 32 by omega)
  rw [Nat.mod_eq_of_lt (show w + 1 < 256 by omega)] at hid
  rw [hid, pack_mod_of_lt _ hk]
  refine ⟨UInt32.toNat_inj.mp ?_, rfl⟩
  rw [UInt32.toNat_shiftRight, hid, show WORKER_ID_SHIFT.toNat % 32 = 24 from rfl,
    Nat.shiftRight_eq_div_pow, pack_div_of_lt _ hk, UInt32.toNat_ofNat']
  omega

namespace ServiceIdLemmas

/-- A log is distinct in its second component when it is so within every value
of the first and across different ones. -/
theorem nodup_of_ofWorker {log : List (ℕ × UInt32)}
    (hsame : ∀ w, ((ofWorker w log).map Prod.snd).Nodup)
    (hother : ∀ a ∈ log, ∀ b ∈ log, a.1 ≠ b.1 → a.2 ≠ b.2) : (log.map Prod.snd).Nodup := by
  rw [List.Nodup, List.pairwise_map, List.pairwise_iff_forall_sublist]
  intro a b hab
  by_cases h : b.1 = a.1
  · have hsub := hab.filter fun x => x.1 = a.1
    simp only [List.filter_cons, h, decide_true, if_true, List.filter_nil] at hsub
    have hnd := (hsame a.1).sublist (hsub.map Prod.snd)
    simpa using hnd
  · exact hother a (hab.subset (by simp)) b (hab.subset (by simp)) (Ne.symm h)

omit [DecidableEq ι] [Fintype ι] in
theorem mem_numbered {s : System ι} {log : List (ℕ × UInt32)} (h : Numbered s log)
    {x : ℕ × UInt32} (hx : x ∈ log) :
    ∃ k, 1 ≤ k ∧ k ≤ (ofWorker x.1 log).length ∧ x = (x.1, idOf x.1 k) := by
  have hmem : x ∈ ofWorker x.1 log := List.mem_filter.mpr ⟨hx, by simp⟩
  rw [h.ids x.1] at hmem
  obtain ⟨k, hk, hxk⟩ := List.mem_map.mp hmem
  exact ⟨k + 1, by omega, List.mem_range.mp hk, hxk.symm⟩

omit [DecidableEq ι] [Fintype ι] in
/-- Inside the domain the ids of a numbered log are distinct. -/
theorem nodup_of_domain {s : System ι} {log : List (ℕ × UInt32)} {N : ℕ} (h : Numbered s log)
    (hdom : IdDomain s.server.workerVec.length N) (hN : ∀ w, (ofWorker w log).length ≤ N) :
    (log.map Prod.snd).Nodup := by
  refine nodup_of_ofWorker (fun w => ?_) fun a ha b hb hne heq => ?_
  · rw [h.ids w, List.map_map]
    by_cases hw : w < s.server.workerVec.length
    · refine List.Nodup.map_on (fun i hi j hj hij => ?_) List.nodup_range
      have hb := hN w
      have hi := List.mem_range.mp hi
      have hj := List.mem_range.mp hj
      have := (idOf_inj hdom hw hw (by omega) (by omega) hij).2
      omega
    · have hnil : ofWorker w log = [] := by
        refine List.filter_eq_nil_iff.mpr fun x hx hxw => hw ?_
        rw [← of_decide_eq_true hxw]
        exact h.inRange x hx
      simp [hnil]
  · obtain ⟨k, hk1, hkn, hak⟩ := mem_numbered h ha
    obtain ⟨k', hk1', hkn', hbk⟩ := mem_numbered h hb
    rw [hak, hbk] at heq
    have hN1 := hN a.1
    have hN2 := hN b.1
    exact hne (idOf_inj hdom (h.inRange a ha) (h.inRange b hb) (by omega) (by omega) heq).1

omit [DecidableEq ι] [Fintype ι] in
theorem numbered_mem {s : System ι} {log : List (ℕ × UInt32)} {w k : ℕ} (h : Numbered s log)
    (hk : 1 ≤ k ∧ k ≤ (ofWorker w log).length) : (w, idOf w k) ∈ log := by
  have hmem : (w, idOf w k) ∈ ofWorker w log := by
    rw [h.ids w]
    exact List.mem_map.mpr ⟨k - 1, List.mem_range.mpr (by omega), by
      rw [Nat.sub_add_cancel hk.1]⟩
  exact (List.mem_filter.mp hmem).1

omit [DecidableEq ι] [Fintype ι] in
/-- Two creations with one id make the log repeat it. -/
theorem not_nodup_of_clash {s : System ι} {log : List (ℕ × UInt32)} {w k w' k' : ℕ}
    (h : Numbered s log) (hk : 1 ≤ k ∧ k ≤ (ofWorker w log).length)
    (hk' : 1 ≤ k' ∧ k' ≤ (ofWorker w' log).length) (hne : (w, k) ≠ (w', k'))
    (heq : idOf w k = idOf w' k') : ¬ (log.map Prod.snd).Nodup := by
  intro hnd
  have hinj := List.inj_on_of_nodup_map hnd (numbered_mem h hk) (numbered_mem h hk') heq
  have hww : w = w' := congrArg Prod.fst hinj
  subst hww
  -- on one worker the two numbers are two positions
  have hsub : ((ofWorker w log).map Prod.snd).Nodup :=
    hnd.sublist (List.filter_sublist.map Prod.snd)
  rw [h.ids w, List.map_map] at hsub
  have := List.inj_on_of_nodup_map hsub (List.mem_range.mpr (show k - 1 < _ by omega))
    (List.mem_range.mpr (show k' - 1 < _ by omega))
    (by simpa [Nat.sub_add_cancel hk.1, Nat.sub_add_cancel hk'.1] using heq)
  exact hne (by rw [show k = k' by omega])

end ServiceIdLemmas

/-! ## 3. No `emplace` is a no-op -/

/-- The keys of a worker's map, and the id of the creation it is inside of, are
ids it handed out, each as often as it is there. -/
def Held (s : Server) (log : List (ℕ × UInt32)) : Prop :=
  ∀ (w : ℕ) (wk : Worker), s.workerVec[w]? = some wk →
    (wk.th.toList.map Creation.id ++ wk.serviceMap.keys).Subperm ((ofWorker w log).map Prod.snd)

namespace ServiceIdLemmas

theorem keys_emplace_subperm (m : ServiceMap) (id : UInt32) (svc : LuaService) :
    (m.emplace id svc).keys.Subperm (id :: m.keys) := by
  unfold ServiceMap.emplace
  split
  · exact (List.sublist_cons_self id m.keys).subperm
  · next h =>
    rw [AList.keys_insert, List.erase_of_not_mem (fun hm => h (AList.mem_keys.mpr hm))]

/-- An update of one worker keeps `Held` when it does so for that worker. -/
theorem held_update {s : Server} {log log' : List (ℕ × UInt32)} {w : ℕ} {f : Worker → Worker}
    (hf : ∀ wk, (f wk).workerID = wk.workerID) (h : Held s log)
    (hother : ∀ v, v ≠ w → ofWorker v log' = ofWorker v log)
    (hw : ∀ wk, s.workerVec[w]? = some wk →
      (wk.th.toList.map Creation.id ++ wk.serviceMap.keys).Subperm
        ((ofWorker w log).map Prod.snd) →
      ((f wk).th.toList.map Creation.id ++ (f wk).serviceMap.keys).Subperm
        ((ofWorker w log').map Prod.snd)) :
    Held (s.update w f hf) log' := by
  refine forall_update hf (fun v vk hvw hv => ?_) fun wk hwk => hw wk hwk (h w wk hwk)
  rw [hother v hvw]
  exact h v vk hv

theorem held_step {host : ι → Option ℕ} {s s' : System ι} {log : List (ℕ × UInt32)}
    {e : Event ι} (h : Held s.server log) (hs : step host s e = some s') :
    Held s'.server (log ++ handOut s e) := by
  have hnil : Held s.server (log ++ []) := by rwa [List.append_nil]
  cases e with
  | request p option | load p | choose p =>
    rw [server_of_readsOnly hs trivial]
    exact hnil
  | fetchAdd p =>
    obtain ⟨_, _, _, rfl⟩ := step_spec.mp hs
    exact held_update fetchAdd_workerID hnil (fun _ _ => rfl) fun _ _ hk => hk
  | post p =>
    obtain ⟨option, _, _, rfl⟩ := step_spec.mp hs
    exact held_update (post_workerID option) hnil (fun _ _ => rfl) fun _ _ hk => hk
  | start w j =>
    obtain ⟨⟨wk, hw, hfree, hj⟩, rfl⟩ := step_spec.mp hs
    rw [handOut_start hw hj]
    refine held_update (startHandler_workerID j) h (fun v hv => ?_) fun wk' hw' hk => ?_
    · rw [ofWorker_append]
      simp [ofWorker, Ne.symm hv]
    · cases hw.symm.trans hw'
      rw [Option.isNone_iff_eq_none.mp hfree] at hk
      rw [startHandler_eq (List.getElem?_eq_getElem hj), ofWorker_append, workerID_eq hw,
        List.map_append]
      refine List.Subperm.trans ?_ (List.perm_append_comm.subperm)
      simpa [ofWorker, List.subperm_cons] using hk
  | finish w ok =>
    obtain ⟨⟨⟨wk, hw, hbusy⟩, _⟩, rfl⟩ := step_spec.mp hs
    refine held_update (finishHandler_workerID ok) hnil (fun _ _ => rfl) fun wk' hw' hk => ?_
    cases hw.symm.trans hw'
    obtain ⟨c, hc⟩ := Option.isSome_iff_exists.mp hbusy
    rw [hc] at hk
    rw [finishHandler_eq ok hc]
    exact (keys_emplace_subperm _ _ _).trans hk

theorem held_init (threads : UInt32) : Held (Server.make threads) [] := by
  intro w wk hw
  rw [make_worker hw]
  exact List.Subperm.refl _

theorem handedOut_held {threads : UInt32} {host : ι → Option ℕ} {es : List (Event ι)}
    {s : System ι} (hrun : run (step host) (System.init threads) es = some s) :
    Held s.server (handedOut threads host es) :=
  run_observes (R := fun s log => Held s.server log) (fun _ _ _ _ h hs => held_step h hs)
    (held_init threads) hrun

end ServiceIdLemmas

/-- While the ids of a run are distinct, the id of a creation that a worker is
inside of is not a key of its map. -/
theorem emplace_fresh {threads : UInt32} {host : ι → Option ℕ} {es : List (Event ι)}
    {s : System ι} (hrun : run (step host) (System.init threads) es = some s)
    (hnd : ((handedOut threads host es).map Prod.snd).Nodup) {w : ℕ} {wk : Worker} {c : Creation}
    (hw : s.server.workerVec[w]? = some wk) (hc : wk.th = some c) : c.id ∉ wk.serviceMap := by
  have hheld := handedOut_held hrun w wk hw
  rw [hc] at hheld
  obtain ⟨l, hperm, hsub⟩ := hheld
  have hids : ((ofWorker w (handedOut threads host es)).map Prod.snd).Nodup :=
    hnd.sublist (List.filter_sublist.map Prod.snd)
  have hkeys : (c.id :: wk.serviceMap.keys).Nodup := hperm.nodup (hids.sublist hsub)
  exact fun hmem => (List.nodup_cons.mp hkeys).1 (AList.mem_keys.mp hmem)

/-! ## 4. The exact domain -/

/-- The events of one creation on worker `w`, requested by the main thread. -/
def creationEvents (w : ℕ) : List (Event Unit) :=
  [.request () { workerID := UInt32.ofNat (w + 1) }, .fetchAdd (), .post ()] ++
    [.start w 0, .finish w true]

/-- `n` creations on worker `w`, one after another. -/
def creationsEvents (w n : ℕ) : List (Event Unit) := (List.replicate n (creationEvents w)).flatten

theorem creation_workerID (o : ServiceOption) (wk : Worker) :
    (((wk.newService o).startHandler 0).finishHandler true).workerID = wk.workerID := by
  rw [finishHandler_workerID, startHandler_workerID, newService_workerID]

/-- The state after one creation on worker `w`. -/
def System.created (s : System Unit) (w : ℕ) (o : ServiceOption) : System Unit where
  server := s.server.update w (fun wk => ((wk.newService o).startHandler 0).finishHandler true)
    (creation_workerID o)
  calls := s.calls

/-- No request and no handler is under way or queued. -/
structure Drained (s : System Unit) : Prop where
  calls : ∀ p, s.calls p = .idle
  workers : ∀ wk ∈ s.server.workerVec, wk.th = none ∧ wk.ioCtx = []

namespace ServiceIdLemmas

theorem drained_init (threads : UInt32) : Drained (System.init threads) where
  calls _ := rfl
  workers := by
    intro wk hwk
    obtain ⟨i, _, rfl⟩ := List.mem_map.mp hwk
    exact ⟨rfl, rfl⟩

/-- What one creation does to a worker with nothing to do. -/
theorem creation_worker {wk : Worker} (o : ServiceOption) (h : wk.th = none ∧ wk.ioCtx = []) :
    (((wk.newService o).startHandler 0).finishHandler true).th = none ∧
      (((wk.newService o).startHandler 0).finishHandler true).ioCtx = [] := by
  have hio : (wk.newService o).ioCtx[0]? = some o := by
    simp [Worker.newService, Worker.post, Worker.fetchAdd, h.2]
  rw [startHandler_eq hio, finishHandler_eq true rfl]
  simp [Worker.newService, Worker.post, Worker.fetchAdd, h.2]

/-- The request of one creation is posted to its worker. -/
theorem run_posted {s : System Unit} {w : ℕ} {o : ServiceOption} (h : Drained s)
    (hw : w < s.server.workerVec.length) (ho : o.workerID.toNat = w + 1) :
    run (step fun _ => none) s [.request () o, .fetchAdd (), .post ()] =
      some { s with server := s.server.update w (·.newService o) (newService_workerID o) } := by
  have hcall : run (step fun _ => none) s (callEvents s.server () o) =
      some { s with server := s.server.newService o } :=
    run_newService o ⟨h.calls (), fun _ hv => nomatch hv⟩
  have hevents : callEvents s.server () o = [.request () o, .fetchAdd (), .post ()] := by
    rw [callEvents, getWorkerByWorkerID_eq_some (by omega) (by omega)]
  rw [newService_of_pinned (by omega) (by omega), hevents] at hcall
  simpa only [ho, Nat.add_sub_cancel] using hcall

theorem handled_workerID (wk : Worker) :
    ((wk.startHandler 0).finishHandler true).workerID = wk.workerID := by
  rw [finishHandler_workerID, startHandler_workerID]

/-- The handler of the only request of a worker runs. -/
theorem run_handler {s : System Unit} {w : ℕ} {wk : Worker} {o : ServiceOption}
    (hcalls : ∀ p, s.calls p = .idle) (hw : s.server.workerVec[w]? = some wk) (hth : wk.th = none)
    (hio : wk.ioCtx = [o]) :
    ∃ t, step (fun _ => none) s (.start w 0) = some t ∧
      step (fun _ => none) t (.finish w true) = some
        { s with server := s.server.update w (fun wk => (wk.startHandler 0).finishHandler true)
                  handled_workerID } := by
  refine ⟨{ s with server := s.server.update w (·.startHandler 0) (startHandler_workerID 0) },
    step_spec.mpr ⟨⟨wk, hw, by rw [hth]; rfl, by simp [hio]⟩, rfl⟩,
    step_spec.mpr ⟨⟨⟨wk.startHandler 0, ?_, ?_⟩, fun p _ => hcalls p⟩, ?_⟩⟩
  · rw [workerVec_update, hw]
    simp
  · rw [startHandler_eq (show wk.ioCtx[0]? = some o by simp [hio])]
    rfl
  · simp only [update_update]

theorem run_creation {s : System Unit} {w : ℕ} (h : Drained s)
    (hw : w < s.server.workerVec.length) :
    ∃ s', run (step fun _ => none) s (creationEvents w) = some s' ∧ Drained s' ∧
      s'.server.workerVec.length = s.server.workerVec.length ∧
      (observe (step fun _ => none) handOut s (creationEvents w)).map Prod.fst = [w] := by
  have hwk := List.getElem?_eq_getElem hw
  generalize s.server.workerVec[w] = wk at hwk
  obtain ⟨hth, hio⟩ := h.workers wk (List.mem_of_getElem? hwk)
  obtain ⟨o, ho⟩ : ∃ o : ServiceOption, o = { workerID := UInt32.ofNat (w + 1) } := ⟨_, rfl⟩
  have hid : o.workerID.toNat = w + 1 := by
    have h1 := s.server.numbered w wk hwk
    have h2 := wk.workerID.toNat_lt
    rw [ho, UInt32.toNat_ofNat', Nat.mod_eq_of_lt (by omega)]
  let posted : System Unit :=
    { s with server := s.server.update w (·.newService o) (newService_workerID o) }
  have hposted : run (step fun _ => none) s [.request () o, .fetchAdd (), .post ()] = some posted :=
    run_posted h hw hid
  have hwk1 : posted.server.workerVec[w]? = some (wk.newService o) := by
    rw [workerVec_update, hwk]
    simp
  have hio1 : (wk.newService o).ioCtx = [o] := by
    simp [Worker.newService, Worker.post, Worker.fetchAdd, hio]
  obtain ⟨t, hstart, hfinish⟩ := run_handler (s := posted) h.calls hwk1 hth hio1
  have hcreated : posted.server.update w (fun wk => (wk.startHandler 0).finishHandler true)
      handled_workerID = (s.created w o).server := by
    simp only [posted, System.created, update_update]
  refine ⟨s.created w o, ?_, ⟨h.calls, ?_⟩,
    update_length _ _ _ (creation_workerID o), ?_⟩
  · rw [creationEvents, ← ho, run_append_eq _ hposted, run_cons_eq _ hstart,
      run_cons_eq _ hfinish, run_nil, hcreated]
    rfl
  · intro wk' hwk'
    have hmem : wk' ∈ (s.server.update w _ (creation_workerID o)).workerVec := hwk'
    obtain ⟨wk₀, hwk₀, heq | heq⟩ := mem_update hmem <;> rw [heq]
    · exact h.workers wk₀ hwk₀
    · exact creation_worker o (h.workers wk₀ hwk₀)
  · have hquiet : observe (step fun _ => none) handOut s
        [Event.request () o, .fetchAdd (), .post ()] = [] := by
      refine observe_eq_nil (fun e he t => ?_) s
      simp only [List.mem_cons, List.not_mem_nil, or_false] at he
      rcases he with rfl | rfl | rfl <;> rfl
    have hlt : 0 < (wk.newService o).ioCtx.length := by simp [hio1]
    rw [creationEvents, ← ho, observe_append _ _ hposted, hquiet, List.nil_append]
    simp only [observe, hstart, hfinish, Option.elim_some]
    rw [handOut_start hwk1 hlt]
    rfl

/-- Creations one after another. -/
theorem run_creations {s : System Unit} {w : ℕ} (h : Drained s)
    (hw : w < s.server.workerVec.length) (n : ℕ) :
    ∃ s', run (step fun _ => none) s (creationsEvents w n) = some s' ∧ Drained s' ∧
      s'.server.workerVec.length = s.server.workerVec.length ∧
      (observe (step fun _ => none) handOut s (creationsEvents w n)).map Prod.fst =
        List.replicate n w := by
  induction n generalizing s with
  | zero => exact ⟨s, rfl, h, rfl, rfl⟩
  | succ n ih =>
    obtain ⟨t, ht, hdt, hlt, hot⟩ := run_creation h hw
    obtain ⟨u, hu, hdu, hlu, hou⟩ := ih hdt (hlt ▸ hw)
    have hevents : creationsEvents w (n + 1) = creationEvents w ++ creationsEvents w n := rfl
    refine ⟨u, ?_, hdu, hlu.trans hlt, ?_⟩
    · rw [hevents, run_append_eq _ ht, hu]
    · rw [hevents, observe_append _ _ ht, List.map_append, hot, hou]
      rfl

theorem ofWorker_length (w : ℕ) (log : List (ℕ × UInt32)) :
    (ofWorker w log).length = (log.map Prod.fst).count w := by
  rw [ofWorker, ← List.countP_eq_length_filter, List.count, List.countP_map]
  rfl

/-- Any two creations the budget allows for occur together in some run. -/
theorem exists_run {threads : UInt32} {N w k w' k' : ℕ} (hw : w < threads.toNat)
    (hw' : w' < threads.toNat) (hk : k ≤ N) (hk' : k' ≤ N) :
    ∃ (es : List (Event Unit)) (s : System Unit),
      run (step fun _ => none) (System.init threads) es = some s ∧
      (∀ v, (ofWorker v (handedOut threads (fun _ => none) es)).length ≤ N) ∧
      k ≤ (ofWorker w (handedOut threads (fun _ => none) es)).length ∧
      k' ≤ (ofWorker w' (handedOut threads (fun _ => none) es)).length := by
  have hinit := drained_init threads
  have hlen : (System.init threads : System Unit).server.workerVec.length = threads.toNat :=
    (wentRound_make threads).length
  by_cases hww : w = w'
  · subst hww
    obtain ⟨s, hrun, _, _, hlog⟩ := run_creations hinit (hlen ▸ hw) (max k k')
    refine ⟨_, s, hrun, fun v => ?_, ?_, ?_⟩ <;>
      rw [ofWorker_length, handedOut, hlog, List.count_replicate]
    · split <;> omega
    · simp
    · simp
  · obtain ⟨t, ht, hdt, hlt, hot⟩ := run_creations hinit (hlen ▸ hw) k
    obtain ⟨s, hs, _, _, hos⟩ := run_creations hdt (w := w') (by omega) k'
    refine ⟨_, s, (run_append_eq _ ht).trans hs, fun v => ?_, ?_, ?_⟩ <;>
      rw [ofWorker_length, handedOut, observe_append _ _ ht, List.map_append, hot, hos,
        List.count_append, List.count_replicate, List.count_replicate]
    · by_cases hv : w = v
      · rw [if_pos (by simpa using hv), if_neg (by simpa [← hv] using Ne.symm hww)]
        omega
      · rw [if_neg (by simpa using hv)]
        split <;> omega
    · simp
    · simp

end ServiceIdLemmas

/-- Some run of a server with `threads` workers ends in `server` and handed out
`log`, and no worker started more than `N` creations. -/
def HandsOut (threads : UInt32) (N : ℕ) (server : Server) (log : List (ℕ × UInt32)) : Prop :=
  ∃ (ι : Type) (_ : DecidableEq ι) (_ : Fintype ι) (host : ι → Option ℕ) (es : List (Event ι))
    (s : System ι), run (step host) (System.init threads) es = some s ∧ s.server = server ∧
      handedOut threads host es = log ∧ ∀ w, (ofWorker w log).length ≤ N

/-- The ids of a server with `T` workers and at most `N` creations on each are
distinct in every run exactly when `T ≤ 256` and `N < 2 ^ 24`, or `T ≤ 2` and
`N = 2 ^ 24`. There every `emplace` inserts, and with at most 255 workers and
`N < 2 ^ 24` an id decodes to the worker and the number of the creation. -/
theorem service_ids (threads : UInt32) (N : ℕ) (hT : 1 ≤ threads.toNat) (hN : 1 ≤ N) :
    (∀ server log, HandsOut threads N server log → ∀ w, ofWorker w log =
      (List.range (ofWorker w log).length).map fun k => (w, idOf w (k + 1))) ∧
    ((∀ server log, HandsOut threads N server log → (log.map Prod.snd).Nodup) ↔
      (threads.toNat ≤ 256 ∧ N < 2 ^ 24) ∨ (threads.toNat ≤ 2 ∧ N = 2 ^ 24)) ∧
    ((threads.toNat ≤ 256 ∧ N < 2 ^ 24) ∨ (threads.toNat ≤ 2 ∧ N = 2 ^ 24) →
      ∀ server log, HandsOut threads N server log → ∀ (w : ℕ) (wk : Worker) (c : Creation),
        server.workerVec[w]? = some wk → wk.th = some c → c.id ∉ wk.serviceMap) ∧
    (threads.toNat ≤ 255 → N < 2 ^ 24 → ∀ server log, HandsOut threads N server log →
      ∀ (w k : ℕ) (x : ℕ × UInt32), (ofWorker w log)[k]? = some x →
        x.2 >>> WORKER_ID_SHIFT = UInt32.ofNat (w + 1) ∧ x.2.toNat % 2 ^ 24 = k + 1) := by
  have hdistinct : IdDomain threads.toNat N →
      ∀ server log, HandsOut threads N server log → (log.map Prod.snd).Nodup := by
    rintro hdom _ _ ⟨ι, _, _, host, es, s, hrun, rfl, rfl, hbudget⟩
    exact nodup_of_domain (handedOut_numbered hrun) (length_run hrun ▸ hdom) hbudget
  refine ⟨?_, ⟨fun hall => ?_, hdistinct⟩, ?_, ?_⟩
  · rintro _ _ ⟨ι, _, _, host, es, s, hrun, rfl, rfl, _⟩
    exact (handedOut_numbered hrun).ids
  · by_contra hdom
    obtain ⟨w, k, w', k', hw, hw', hk, hk', hne, heq⟩ := idOf_clash hT hN hdom
    obtain ⟨es, s, hrun, hbudget, hle, hle'⟩ := exists_run hw hw' hk.2 hk'.2
    exact not_nodup_of_clash (handedOut_numbered hrun) ⟨hk.1, hle⟩ ⟨hk'.1, hle'⟩ hne heq
      (hall _ _ ⟨Unit, _, _, _, es, s, hrun, rfl, rfl, hbudget⟩)
  · rintro hdom server log hout w wk c hwk hc
    have hnd := hdistinct hdom server log hout
    obtain ⟨ι, _, _, host, es, s, hrun, rfl, rfl, _⟩ := hout
    exact emplace_fresh hrun hnd hwk hc
  · rintro hT255 hN24 _ _ ⟨ι, _, _, host, es, s, hrun, rfl, rfl, hbudget⟩ w k x hx
    have hnum := handedOut_numbered hrun
    have hk := (List.getElem?_eq_some_iff.mp hx).1
    have hb := hbudget w
    have hw : w < threads.toNat := by
      have hmem := List.mem_filter.mp (List.mem_of_getElem? hx)
      rw [← of_decide_eq_true hmem.2, ← length_run hrun]
      exact hnum.inRange x hmem.1
    rw [hnum.ids w, List.getElem?_map, List.getElem?_range (by simpa using hk)] at hx
    cases hx
    exact idOf_decode (by omega) (by omega)

/-- Two workers with at most `2 ^ 24` creations each keep their ids apart; three
need not. -/
theorem service_ids_two :
    (∀ server log, HandsOut 2 (2 ^ 24) server log → (log.map Prod.snd).Nodup) ∧
      ¬ ∀ server log, HandsOut 3 (2 ^ 24) server log → (log.map Prod.snd).Nodup :=
  ⟨(service_ids 2 (2 ^ 24) (by decide) (by decide)).2.1.mpr (Or.inr ⟨by decide, rfl⟩),
    fun h => absurd ((service_ids 3 (2 ^ 24) (by decide) (by decide)).2.1.mp h) (by decide)⟩

end LuaRobot
