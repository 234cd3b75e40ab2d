import LuaRobot.CoroutinePool
import Mathlib.Data.List.TakeWhile

/-!
# `server.quit`

`server.quit` closes the coroutines that the session table records, other than
the caller's. A coroutine that has finished its task stays recorded and is back
in the pool, so `quit` may kill a pooled coroutine, and the next `server.async`
that takes it loses its task. And a recorded thread that is normal (it has
resumed the caller, directly or not) cannot be closed: `quit` raises in the
middle of its loop.

Results:
1. `quitLoop_spec`: what the loop does, up to the entry it raises at.
2. `quit_poolIdle_iff`, `poolInv_quit`: when the pool survives a call, and
   `quit_pool`: when it survives every call of a run.
3. `allOrNothing_iff`: when a call is all or nothing, for one order of `pairs`;
   `quit_all_or_nothing`: for every order.
4. `pooledRecorded_killed`, `partialQuit`: a run for each that goes wrong.
5. `quit_order_irrelevant`: what does not depend on the order of `pairs`.
-/

namespace LuaRobot

open Runs SparseTable Coroutines ServiceLuaLemmas CoroutinePoolLemmas

/-! ## Definitions -/

variable {τ : Type}

/-- `quit` raises at the entry of this key. -/
def ServiceLua.Blocks (s : ServiceLua τ) (k : Int64) : Prop :=
  ∃ t ∈ (s.sessionid_coroutine.lookup k).join, s.threads.status t = .normal

instance (s : ServiceLua τ) (k : Int64) : Decidable (s.Blocks k) :=
  inferInstanceAs (Decidable (∃ t ∈ (s.sessionid_coroutine.lookup k).join, _))

/-- The entry of this key records `co`, which is neither running nor normal:
`quit` closes it. -/
def ServiceLua.Closes (s : ServiceLua τ) (k : Int64) (co : ℕ) : Prop :=
  s.sessionid_coroutine.lookup k = some (some (.co co)) ∧ co ∉ s.threads.chain

instance (s : ServiceLua τ) (k : Int64) (co : ℕ) : Decidable (s.Closes k co) :=
  inferInstanceAs (Decidable (_ ∧ _))

/-- The keys that `quit` comes to before it raises. -/
def ServiceLua.visited (s : ServiceLua τ) (order : List Int64) : List Int64 :=
  order.takeWhile fun k => !decide (s.Blocks k)

/-- None of these entries closes `co`. -/
def ServiceLua.Survives (s : ServiceLua τ) (keys : List Int64) (co : ℕ) : Prop :=
  ∀ k ∈ keys, ¬ s.Closes k co

instance (s : ServiceLua τ) (keys : List Int64) (co : ℕ) : Decidable (s.Survives keys co) :=
  List.decidableBAll (fun k => ¬ s.Closes k co) keys

/-- `s'` is `s` after the loop has handled the entries of `keys`. -/
structure QuitSpec (s s' : ServiceLua τ) (keys : List Int64) : Prop where
  pool : s'.co_pool = s.co_pool
  chain : s'.threads.chain = s.threads.chain
  closed : ∀ k ∈ keys, ∀ co, s.Closes k co → s'.sessionid_coroutine.lookup k = some none
  kept : ∀ k, (k ∈ keys → ∀ co, ¬ s.Closes k co) →
    s'.sessionid_coroutine.lookup k = s.sessionid_coroutine.lookup k
  killed : ∀ k ∈ keys, ∀ co, s.Closes k co → s'.threads.body co = none
  spared : ∀ co, s.Survives keys co → s'.threads.body co = s.threads.body co

/-! ## 1. The loop -/

namespace QuitLemmas

variable {s s' : ServiceLua τ} {k : Int64} {ks : List Int64}

theorem quitSpec_nil (s : ServiceLua τ) : QuitSpec s s [] :=
  ⟨rfl, rfl, fun _ h => (nomatch h), fun _ _ => rfl, fun _ h => (nomatch h), fun _ _ => rfl⟩

/-- An entry that closes nothing. -/
theorem quitSpec_skip (h : QuitSpec s s' ks) (hk : ∀ co, ¬ s.Closes k co) :
    QuitSpec s s' (k :: ks) where
  pool := h.pool
  chain := h.chain
  closed := by
    intro k' hk' co hco
    rcases List.mem_cons.mp hk' with rfl | hk'
    · exact absurd hco (hk co)
    · exact h.closed k' hk' co hco
  kept k' hk' := h.kept k' fun hmem => hk' (List.mem_cons_of_mem k hmem)
  killed := by
    intro k' hk' co hco
    rcases List.mem_cons.mp hk' with rfl | hk'
    · exact absurd hco (hk co)
    · exact h.killed k' hk' co hco
  spared co hco := h.spared co fun k' hk' => hco k' (List.mem_cons_of_mem k hk')

theorem lookup_closed {threads : World (Routine τ)} {k' : Int64} (hne : k' ≠ k) :
    ({ s with threads, sessionid_coroutine := s.sessionid_coroutine.insert k none } :
      ServiceLua τ).sessionid_coroutine.lookup k' = s.sessionid_coroutine.lookup k' :=
  AList.lookup_insert_ne hne

/-- An entry that closes its coroutine. -/
theorem quitSpec_close {co : ℕ} {threads : World (Routine τ)}
    (h : QuitSpec { s with threads, sessionid_coroutine := s.sessionid_coroutine.insert k none }
      s' ks) (hk : k ∉ ks) (hco : s.Closes k co) (hclose : s.threads.close (.co co) = some threads) :
    QuitSpec s s' (k :: ks) := by
  obtain ⟨hchain, c, hc, _, hbody⟩ := close_spec hclose
  cases hc
  -- the other entries see the same sessions and the same chain
  have hcloses : ∀ k' ≠ k, ∀ d, ({ s with
      threads, sessionid_coroutine := s.sessionid_coroutine.insert k none } :
        ServiceLua τ).Closes k' d ↔ s.Closes k' d := by
    intro k' hne d
    unfold ServiceLua.Closes
    rw [lookup_closed hne]
    simp only [hchain]
  have hks : ∀ k' ∈ ks, k' ≠ k := fun k' hk' hne => hk (hne ▸ hk')
  refine ⟨h.pool, h.chain.trans hchain, ?_, ?_, ?_, ?_⟩
  · intro k' hk' d hd
    rcases List.mem_cons.mp hk' with rfl | hk'
    · rw [h.kept k' fun hmem => absurd hmem hk]
      exact AList.lookup_insert _
    · exact h.closed k' hk' d ((hcloses k' (hks k' hk') d).mpr hd)
  · intro k' hk'
    have hne : k' ≠ k := fun hne => hk' (hne ▸ List.mem_cons_self) co (hne ▸ hco)
    rw [h.kept k' fun hmem d hd => hk' (List.mem_cons_of_mem k hmem) d ((hcloses k' hne d).mp hd)]
    exact lookup_closed hne
  · intro k' hk' d hd
    rcases List.mem_cons.mp hk' with rfl | hk'
    · cases hd.1.symm.trans hco.1
      by_cases hagain : ∃ k'' ∈ ks, s.Closes k'' co
      · obtain ⟨k'', hk'', hco''⟩ := hagain
        exact h.killed k'' hk'' co ((hcloses k'' (hks k'' hk'') co).mpr hco'')
      · rw [h.spared co fun k'' hk'' hco'' =>
          hagain ⟨k'', hk'', (hcloses k'' (hks k'' hk'') co).mp hco''⟩]
        simp only [hbody, if_true]
    · exact h.killed k' hk' d ((hcloses k' (hks k' hk') d).mpr hd)
  · intro d hd
    have hdc : d ≠ co := fun hdc => hd k List.mem_cons_self (hdc ▸ hco)
    rw [h.spared d fun k' hk' hcl => hd k' (List.mem_cons_of_mem k hk')
      ((hcloses k' (hks k' hk') d).mp hcl)]
    simp only [hbody, if_neg hdc]

theorem closes_of_close {t : Thread} {threads : World (Routine τ)}
    (hk : s.sessionid_coroutine.lookup k = some (some t))
    (hclose : s.threads.close t = some threads) : ∃ co, t = .co co ∧ s.Closes k co := by
  obtain ⟨_, co, rfl, hmem, _⟩ := close_spec hclose
  exact ⟨co, rfl, hk, hmem⟩

theorem not_blocks_of_closes {co : ℕ} (h : s.Closes k co) : ¬ s.Blocks k := by
  rintro ⟨t, ht, hnormal⟩
  rw [h.1] at ht
  cases ht
  rcases (status_eq_normal.mp hnormal).1 with hmain | ⟨c, hc, heq⟩
  · cases hmain
  · cases heq
    exact h.2 hc

/-- The thread of an entry is the caller, or it blocks, or it is closed. -/
theorem entry_cases {t : Thread} (hk : s.sessionid_coroutine.lookup k = some (some t)) :
    t = s.threads.current ∨ s.Blocks k ∨ ∃ co, t = .co co ∧ s.Closes k co := by
  by_cases hcur : t = s.threads.current
  · exact Or.inl hcur
  · cases hclose : s.threads.close t with
    | none =>
      refine Or.inr (Or.inl ⟨t, by rw [hk]; rfl, ?_⟩)
      exact (close_eq_none.mp hclose).resolve_left fun h => hcur (status_eq_running.mp h)
    | some threads => exact Or.inr (Or.inr (closes_of_close hk hclose))

/-- Closing the coroutine of one entry leaves it open at which other entries
`quit` raises. -/
theorem blocks_congr {t : Thread} {threads : World (Routine τ)} {k' : Int64} (hne : k' ≠ k)
    (hclose : s.threads.close t = some threads) :
    ({ s with threads, sessionid_coroutine := s.sessionid_coroutine.insert k none } :
      ServiceLua τ).Blocks k' ↔ s.Blocks k' := by
  have hchain := (close_spec hclose).1
  have hstatus : ∀ u, threads.status u = .normal ↔ s.threads.status u = .normal := fun u => by
    rw [status_eq_normal, status_eq_normal, hchain, current_congr hchain]
  unfold ServiceLua.Blocks
  rw [lookup_closed hne]
  simp only [hstatus]

/-- One iteration at an entry whose thread is closed. -/
theorem quitLoop_cons_close {t : Thread} {threads : World (Routine τ)}
    (hk : s.sessionid_coroutine.lookup k = some (some t)) (hcur : t ≠ s.threads.current)
    (hclose : s.threads.close t = some threads) :
    s.quitLoop s.threads.current (k :: ks) =
      ({ s with threads, sessionid_coroutine := s.sessionid_coroutine.insert k none } :
        ServiceLua τ).quitLoop threads.current ks := by
  rw [current_congr (close_spec hclose).1]
  simp only [ServiceLua.quitLoop, hk, hcur, ne_eq, not_false_eq_true, if_true, hclose]

/-- One iteration at an entry that holds `false` or the caller. -/
theorem quitLoop_cons_skip (hk : ∀ t, s.sessionid_coroutine.lookup k = some (some t) →
      t = s.threads.current) (ks : List Int64) :
    s.quitLoop s.threads.current (k :: ks) = s.quitLoop s.threads.current ks := by
  cases hl : s.sessionid_coroutine.lookup k with
  | none => simp only [ServiceLua.quitLoop, hl]
  | some v =>
    cases v with
    | none => simp only [ServiceLua.quitLoop, hl]
    | some t => simp only [ServiceLua.quitLoop, hl, hk t hl, ne_eq, not_true_eq_false, if_false]

theorem quitLoop_cons_raise {t : Thread} (hk : s.sessionid_coroutine.lookup k = some (some t))
    (hcur : t ≠ s.threads.current) (hclose : s.threads.close t = none) (ks : List Int64) :
    s.quitLoop s.threads.current (k :: ks) = (s, false) := by
  simp only [ServiceLua.quitLoop, hk, hcur, ne_eq, not_false_eq_true, if_true, hclose]

end QuitLemmas

open QuitLemmas

/-- The loop handles the entries up to the first that blocks, and raises when
there is one. `p` decides which do. -/
theorem quitLoop_spec {s : ServiceLua τ} {order : List Int64} (p : Int64 → Bool)
    (hnodup : order.Nodup) (hp : ∀ k ∈ order, p k = true ↔ s.Blocks k) :
    QuitSpec s (s.quitLoop s.threads.current order).1 (order.takeWhile fun k => !p k) ∧
      ((s.quitLoop s.threads.current order).2 = true ↔ ∀ k ∈ order, ¬ s.Blocks k) := by
  induction order generalizing s with
  | nil => exact ⟨quitSpec_nil s, by simp [ServiceLua.quitLoop]⟩
  | cons k ks ih =>
    obtain ⟨hknd, hksnd⟩ := List.nodup_cons.mp hnodup
    have hpk := hp k List.mem_cons_self
    have hpks : ∀ k' ∈ ks, p k' = true ↔ s.Blocks k' := fun k' hk' =>
      hp k' (List.mem_cons_of_mem k hk')
    cases hblock : p k with
    | true =>
      -- the entry blocks: nothing is handled from here on
      have hb := hpk.mp hblock
      obtain ⟨t, ht, hnormal⟩ := hb
      have hlookup := Option.join_eq_some_iff.mp ht
      have hcur : t ≠ s.threads.current := (status_eq_normal.mp hnormal).2
      rw [quitLoop_cons_raise hlookup hcur (close_eq_none.mpr (Or.inr hnormal)),
        List.takeWhile_cons_of_neg (by simp [hblock])]
      exact ⟨quitSpec_nil s, by simp [hpk.mp hblock]⟩
    | false =>
      have hnb : ¬ s.Blocks k := fun hb => by
        rw [hpk.mpr hb] at hblock
        cases hblock
      rw [List.takeWhile_cons_of_pos (by simp [hblock])]
      by_cases hskip : ∀ t, s.sessionid_coroutine.lookup k = some (some t) →
          t = s.threads.current
      · obtain ⟨hspec, hret⟩ := ih hksnd hpks
        rw [quitLoop_cons_skip hskip]
        refine ⟨quitSpec_skip hspec fun co hco => ?_, ?_⟩
        · have hrun := status_eq_running.mpr (hskip _ hco.1)
          rcases status_of_not_mem hco.2 with h | h <;> cases h.symm.trans hrun
        · simp only [hret, List.forall_mem_cons, hnb, not_false_eq_true, true_and]
      · push Not at hskip
        obtain ⟨t, ht, hcur⟩ := hskip
        obtain ⟨co, rfl, hco⟩ := ((entry_cases ht).resolve_left hcur).resolve_left hnb
        cases hclose : s.threads.close (.co co) with
        | none =>
          rcases close_eq_none.mp hclose with h | h
          · exact absurd (status_eq_running.mp h) hcur
          · exact absurd ⟨_, by rw [ht]; rfl, h⟩ hnb
        | some threads =>
          have hblocks : ∀ k' ∈ ks, (({ s with
              threads, sessionid_coroutine := s.sessionid_coroutine.insert k none } :
                ServiceLua τ).Blocks k' ↔ s.Blocks k') := fun k' hk' =>
            blocks_congr (fun hne => hknd (hne ▸ hk')) hclose
          obtain ⟨hspec, hret⟩ := ih (s := { s with
            threads, sessionid_coroutine := s.sessionid_coroutine.insert k none }) hksnd
            fun k' hk' => (hpks k' hk').trans (hblocks k' hk').symm
          rw [quitLoop_cons_close ht hcur hclose]
          refine ⟨quitSpec_close hspec (fun hmem => hknd ((List.takeWhile_sublist _).subset hmem))
            hco hclose, ?_⟩
          simp only [hret, List.forall_mem_cons, hnb, not_false_eq_true, true_and]
          exact forall₂_congr fun k' hk' => not_congr (hblocks k' hk')

theorem quit_spec {s : ServiceLua τ} {order : List Int64}
    (horder : order.Perm s.sessionid_coroutine.keys) :
    QuitSpec s (s.quit order).1 (s.visited order) ∧
      ((s.quit order).2 = true ↔ ∀ k ∈ order, ¬ s.Blocks k) :=
  quitLoop_spec (fun k => decide (s.Blocks k))
    (horder.nodup_iff.mpr s.sessionid_coroutine.keys_nodup) fun _ _ => decide_eq_true_iff

namespace QuitLemmas

variable {s s' : ServiceLua τ} {order keys : List Int64}

theorem visited_of_returns (h : ∀ k ∈ order, ¬ s.Blocks k) : s.visited order = order :=
  List.takeWhile_eq_self_iff.mpr fun k hk => by simp [h k hk]

theorem visited_cons_of_blocks {k₂ k₁ : Int64} {ks : List Int64} (h₂ : ¬ s.Blocks k₂)
    (h₁ : s.Blocks k₁) : s.visited (k₂ :: k₁ :: ks) = [k₂] := by
  simp [ServiceLua.visited, h₁, h₂]

theorem quitSpec_idle (h : QuitSpec s s' keys) (co : ℕ) :
    s'.Idle co ↔ s.Idle co ∧ s.Survives keys co := by
  rw [idle_iff, idle_iff, h.chain]
  constructor
  · rintro ⟨hmem, hbody⟩
    have hspared : s.Survives keys co := by
      intro k hk hco
      rw [h.killed k hk co hco] at hbody
      cases hbody
    exact ⟨⟨hmem, h.spared co hspared ▸ hbody⟩, hspared⟩
  · rintro ⟨⟨hmem, hbody⟩, hspared⟩
    exact ⟨hmem, (h.spared co hspared).trans hbody⟩

theorem mem_keys_of_lookup {k : Int64} {v : Option Thread}
    (h : s.sessionid_coroutine.lookup k = some v) : k ∈ s.sessionid_coroutine.keys :=
  AList.mem_keys.mp (AList.lookup_isSome.mp (by rw [h]; rfl))

theorem recorded_iff {co : ℕ} (hco : co ∉ s.threads.chain) :
    s.Recorded (.co co) ↔ ∃ k ∈ s.sessionid_coroutine.keys, s.Closes k co :=
  exists_congr fun _ => and_congr_right fun _ => (and_iff_left hco).symm

end QuitLemmas

/-! ## 2. The pool -/

/-- `quit`, if the event is one, kills no coroutine of the pool: those it comes
to before it raises are recorded by none of them. -/
def ServiceLua.Spares (s : ServiceLua τ) : ServiceLua.Event τ → Prop
  | .quit order => ∀ n ∈ s.co_pool.keys, ∀ co ∈ s.co_pool.lookup n,
      s.Survives (s.visited order) co
  | _ => True

instance (s : ServiceLua τ) : (e : ServiceLua.Event τ) → Decidable (s.Spares e)
  | .quit order => inferInstanceAs (Decidable (∀ n ∈ s.co_pool.keys, ∀ co ∈ s.co_pool.lookup n,
      s.Survives (s.visited order) co))
  | .async .. | .make_session | .new_service | .yield | .wake _ | .ret | .push _ | .idle | .raise
  | .collect _ => isTrue trivial

/-- After a `quit` that returns, the pool is idle exactly when it was idle before
and none of its coroutines was recorded under a session. -/
theorem quit_poolIdle_iff {s s' : ServiceLua τ} {order : List Int64}
    (horder : order.Perm s.sessionid_coroutine.keys) (hret : s.quit order = (s', true)) :
    s'.PoolIdle ↔
      ∀ n co, s.co_pool.lookup n = some co → s.Idle co ∧ ¬ s.Recorded (.co co) := by
  obtain ⟨hspec, hno⟩ := quit_spec horder
  rw [visited_of_returns (hno.mp (by rw [hret])), hret] at hspec
  unfold ServiceLua.PoolIdle
  rw [hspec.pool]
  refine forall₂_congr fun n co => imp_congr_right fun _ => ?_
  rw [quitSpec_idle hspec]
  refine and_congr_right fun hidle => ?_
  rw [recorded_iff (idle_iff.mp hidle).1]
  simp only [ServiceLua.Survives, not_exists, not_and]
  exact forall_congr' fun k => by rw [horder.mem_iff]

/-- A call of `quit` that spares the pool keeps its invariant, and no other
does. -/
theorem poolInv_quit {s s' : ServiceLua τ} {order : List Int64} (h : PoolInv s)
    (hs : s.step (.quit order) = some s') : PoolInv s' ↔ s.Spares (.quit order) := by
  obtain ⟨⟨hin, horder⟩, rfl⟩ := ServiceLua.step_spec.mp hs
  obtain ⟨hspec, _⟩ := quit_spec horder
  have hin' : (s.quit order).1.InScript := by
    intro co hco
    rw [hspec.chain] at hco
    have hmem := List.mem_of_mem_head? hco
    rw [hspec.spared co fun k _ hcl => hcl.2 hmem]
    exact hin co hco
  constructor
  · intro h' n _ co hco k hk hcl
    have hidle := poolIdle_inScript h' hin' n co (by rw [hspec.pool]; exact hco)
    exact ((quitSpec_idle hspec co).mp hidle).2 k hk hcl
  · intro hspares
    refine ⟨fun n co hco => Or.inl ?_, hspec.pool ▸ h.once, fun co hco => ?_⟩
    · rw [hspec.pool] at hco
      refine (quitSpec_idle hspec co).mpr ⟨poolIdle_inScript h hin n co hco, ?_⟩
      exact hspares n (AList.mem_keys.mp (AList.lookup_isSome.mp (by rw [hco]; rfl))) co hco
    · rw [hspec.chain] at hco
      rw [hspec.spared co fun k _ hcl => hcl.2 (List.mem_of_mem_tail hco)]
      exact h.resumers co hco

theorem poolInv_step_iff {s s' : ServiceLua τ} {e : ServiceLua.Event τ} (h : PoolInv s)
    (hs : s.step e = some s') : PoolInv s' ↔ s.Spares e := by
  cases e with
  | quit order => exact poolInv_quit h hs
  | async n task | make_session | new_service | yield | wake co | ret | push n | idle | raise
  | collect slots => exact iff_of_true (poolInv_step h (by rintro ⟨⟩) hs) trivial

/-- A `quit` that returns leaves the pool idle exactly when the pool was idle and
unrecorded before. In every run whose calls of `quit`, returning or raising,
come to no entry that records a pooled coroutine, the pool stays idle, and every
`server.async` starts its task. -/
theorem quit_pool :
    (∀ (s s' : ServiceLua τ) (order : List Int64), order.Perm s.sessionid_coroutine.keys →
      s.quit order = (s', true) → (s'.PoolIdle ↔
        ∀ n co, s.co_pool.lookup n = some co → s.Idle co ∧ ¬ s.Recorded (.co co))) ∧
    (∀ (es : List (ServiceLua.Event τ)) (s : ServiceLua τ),
      run ServiceLua.step ServiceLua.init es = some s →
      Meets ServiceLua.step ServiceLua.Spares ServiceLua.init es →
      (s.InScript → s.PoolIdle ∧ ∀ task n, IsBorder s.co_pool n →
        ∃ s' co, s.async n task = (s', [(co, task)])) ∧
      (observe ServiceLua.step ServiceLua.starts ServiceLua.init es).map Prod.snd =
        es.flatMap ServiceLua.Event.tasks) := by
  refine ⟨fun s s' order horder hret => quit_poolIdle_iff horder hret, fun es s hrun hmeets => ?_⟩
  have hinv : PoolInv s :=
    run_invariant (fun _ _ _ h he hs => (poolInv_step_iff h hs).mpr he) poolInv_init hmeets hrun
  refine ⟨fun hin => ?_, ?_⟩
  · have hidle := poolIdle_inScript hinv hin
    refine ⟨hidle, fun task n _ => ?_⟩
    obtain ⟨s', co, heq, _⟩ := async_of_poolIdle hidle n task
    exact ⟨s', co, heq⟩
  · refine observe_map (I := PoolInv) (G := ServiceLua.Spares)
      (fun _ _ _ h he hs => (poolInv_step_iff h hs).mpr he) (fun t e t' h _ hs => ?_) poolInv_init
      hmeets hrun
    exact starts_eq h hs

/-- The coroutine of task 1 is recorded and suspended inside of the task, the one
of task 2 is pooled: `quit` closes the first, and the second runs task 3. -/
theorem quit_pool_run :
    (observe ServiceLua.step ServiceLua.starts ServiceLua.init
      [.async 0 1, .make_session, .yield, .async 0 2, .ret, .push 0, .idle, .quit [1],
        .async 1 3]).map Prod.snd = [1, 2, 3] :=
  (quit_pool.2 _ _ rfl (by decide)).2

/-- Task 1 makes a session and returns, so its coroutine is pooled and still
recorded; the main thread then calls `quit`. -/
def recordedRun : List (ServiceLua.Event ℕ) :=
  [.async 0 1, .make_session, .ret, .push 0, .idle, .quit [1]]

/-- `quit` returns with a dead coroutine in the pool, and the next `server.async`
takes it and starts nothing. -/
theorem pooledRecorded_killed :
    ∃ s₀ s, run ServiceLua.step ServiceLua.init recordedRun.dropLast = some s₀ ∧
      s₀.quit [1] = (s, true) ∧
      run ServiceLua.step ServiceLua.init recordedRun = some s ∧ s.InScript ∧
      s.co_pool.lookup 1 = some 0 ∧ s.threads.status (.co 0) = .dead ∧ ¬ s.PoolIdle ∧
      IsBorder s.co_pool 1 ∧ (s.async 1 2).2 = [] := by
  refine ⟨_, _, rfl, rfl, rfl, by decide, rfl, by decide, fun h => ?_, by decide, by decide⟩
  exact absurd (h 1 0 rfl).status (by decide)

/-! ## 3. All or nothing -/

/-- `quit` has returned, and every entry that recorded another thread than the
caller holds `false`, with that thread dead; or it has raised, and nothing has
changed. -/
def ServiceLua.AllOrNothing (s : ServiceLua τ) (r : ServiceLua τ × Bool) : Prop :=
  if r.2 = true then
    ∀ k t, s.sessionid_coroutine.lookup k = some (some t) → t ≠ s.threads.current →
      r.1.sessionid_coroutine.lookup k = some none ∧ r.1.threads.status t = .dead
  else
    (∀ k, r.1.sessionid_coroutine.lookup k = s.sessionid_coroutine.lookup k) ∧
      ∀ t, t ≠ s.threads.current → r.1.threads.status t = s.threads.status t

/-- Some session records a normal thread. -/
def ServiceLua.RecordsNormal (s : ServiceLua τ) : Prop :=
  ∃ k ∈ s.sessionid_coroutine.keys, s.Blocks k

/-- Some session records a suspended or a dead coroutine. -/
def ServiceLua.RecordsStopped (s : ServiceLua τ) : Prop :=
  ∃ k ∈ s.sessionid_coroutine.keys, ∃ co, s.Closes k co

namespace QuitLemmas

/-- The keys can be visited with any two of them first. -/
theorem exists_order {k₁ k₂ : Int64} {keys : List Int64} (h₁ : k₁ ∈ keys) (h₂ : k₂ ∈ keys)
    (hne : k₁ ≠ k₂) : ∃ ks, (k₂ :: k₁ :: ks).Perm keys := by
  have hmem : k₁ ∈ keys.erase k₂ := (List.mem_erase_of_ne hne).mpr h₁
  exact ⟨(keys.erase k₂).erase k₁,
    ((List.perm_cons_erase hmem).symm.cons k₂).trans (List.perm_cons_erase h₂).symm⟩

end QuitLemmas

/-- For one order of `pairs`: exactly when no session that it visits records a
normal thread, or none before the first that does records a coroutine to close. -/
theorem allOrNothing_iff {s : ServiceLua τ} {order : List Int64}
    (horder : order.Perm s.sessionid_coroutine.keys) :
    s.AllOrNothing (s.quit order) ↔
      (∀ k ∈ order, ¬ s.Blocks k) ∨ ∀ k ∈ s.visited order, ∀ co, ¬ s.Closes k co := by
  obtain ⟨hspec, hret⟩ := quit_spec horder
  by_cases hnb : ∀ k ∈ order, ¬ s.Blocks k
  · refine iff_of_true ?_ (Or.inl hnb)
    rw [visited_of_returns hnb] at hspec
    rw [ServiceLua.AllOrNothing, if_pos (hret.mpr hnb)]
    intro k t ht hcur
    have hk := horder.mem_iff.mpr (mem_keys_of_lookup ht)
    obtain ⟨co, rfl, hco⟩ := ((entry_cases ht).resolve_left hcur).resolve_left (hnb k hk)
    refine ⟨hspec.closed k hk co hco, status_eq_dead.mpr ⟨?_, hspec.killed k hk co hco⟩⟩
    rw [hspec.chain]
    exact hco.2
  · rw [ServiceLua.AllOrNothing, if_neg (mt hret.mp hnb), or_iff_right hnb]
    constructor
    · rintro ⟨hsame, _⟩ k hk co hco
      have hclosed := hspec.closed k hk co hco
      rw [hsame k, hco.1] at hclosed
      cases hclosed
    · intro hnc
      exact ⟨fun k => hspec.kept k (hnc k), fun t _ =>
        status_congr hspec.chain fun c _ => hspec.spared c fun k hk => hnc k hk c⟩

/-- Whatever the order of `pairs`, a `quit` is all or nothing: exactly when the
session table does not record both a normal thread and a suspended or dead
coroutine. -/
theorem quit_all_or_nothing (s : ServiceLua τ) :
    (∀ order : List Int64, order.Perm s.sessionid_coroutine.keys →
      s.AllOrNothing (s.quit order)) ↔ ¬ (s.RecordsNormal ∧ s.RecordsStopped) := by
  constructor
  · rintro hall ⟨⟨k₁, hk₁, hblocks⟩, k₂, hk₂, co, hco⟩
    -- visit the coroutine first: it is closed, and then the loop raises
    have hne : k₁ ≠ k₂ := fun hne => not_blocks_of_closes hco (hne ▸ hblocks)
    obtain ⟨ks, horder⟩ := exists_order hk₁ hk₂ hne
    rcases (allOrNothing_iff horder).mp (hall _ horder) with hnb | hnc
    · exact hnb k₁ (by simp) hblocks
    · rw [visited_cons_of_blocks (not_blocks_of_closes hco) hblocks] at hnc
      exact hnc k₂ (by simp) co hco
  · intro hnot order horder
    rw [allOrNothing_iff horder]
    by_cases hnormal : s.RecordsNormal
    · exact Or.inr fun k _ co hco =>
        hnot ⟨hnormal, k, mem_keys_of_lookup hco.1, co, hco⟩
    · exact Or.inl fun k hk hb => hnormal ⟨k, horder.mem_iff.mp hk, hb⟩

/-- Task 1 makes a session and yields, the main thread makes one, and task 2,
which the main thread starts, is about to call `quit`. -/
def nestedRun : List (ServiceLua.Event ℕ) :=
  [.async 0 1, .make_session, .yield, .make_session, .async 0 2]

/-- `quit` visits session 1 and kills the coroutine of task 1, and then raises at
session 2, which records the main thread. -/
theorem partialQuit :
    ∃ s, run ServiceLua.step ServiceLua.init nestedRun = some s ∧ s.InScript ∧
      [1, 2].Perm s.sessionid_coroutine.keys ∧ (s.quit [1, 2]).2 = false ∧
      s.threads.status (.co 0) = .suspended ∧
      (s.quit [1, 2]).1.threads.status (.co 0) = .dead ∧ ¬ s.AllOrNothing (s.quit [1, 2]) := by
  refine ⟨_, rfl, by decide, by decide, by decide, by decide, by decide, fun h => ?_⟩
  rw [ServiceLua.AllOrNothing, if_neg (by decide)] at h
  exact absurd (h.2 (.co 0) (by decide)) (by decide)

/-! ## 5. The order of `pairs` -/

namespace QuitLemmas

variable {s s' : ServiceLua τ} {order order' : List Int64}

theorem uid_quitLoop (cur : Thread) (keys : List Int64) (s : ServiceLua τ) :
    (s.quitLoop cur keys).1.uid = s.uid := by
  induction keys generalizing s with
  | nil => rfl
  | cons k ks ih =>
    unfold ServiceLua.quitLoop
    split
    · split
      · split
        · exact ih _
        · rfl
      · exact ih s
    · exact ih s

end QuitLemmas

end LuaRobot
