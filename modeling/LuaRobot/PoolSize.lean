import LuaRobot.ServiceRuns

/-!
# The size of the coroutine pool

`server.async` (`lua_scripts/service.lua`) creates a coroutine only when the pool has
none. While the collector does not clear the pool, its indices have no holes, and
every coroutine that waits for a task is in it; so the script never has more
coroutines than it has once needed at the same time.

Results:
1. `poolMove_step`: what one event does to the pool and to the points of `routine`.
2. `poolFull_step`: what holds while nothing is collected.
3. `pool_reuses`: how many coroutines a run creates.
-/

namespace LuaRobot

open Runs SparseTable Coroutines ServiceLuaLemmas CoroutinePoolLemmas QuitLemmas ServiceRunsLemmas

/-! ## Definitions -/

variable {τ : Type}

/-- A task has been started, and its coroutine is not back in the pool. -/
def Routine.underWay : Routine τ → Bool
  | .calling _ | .storing => true
  | .created | .looping | .waiting => false

/-- The coroutines that were ever created. -/
def ServiceLua.created (s : ServiceLua τ) : ℕ := s.threads.bodies.length

def ServiceLua.underWay (s : ServiceLua τ) : ℕ :=
  (List.range s.created).countP fun co => (s.threads.body co).any Routine.underWay

/-- The dead coroutines that are not in the pool. -/
def ServiceLua.ended (s : ServiceLua τ) : ℕ :=
  (List.range s.created).countP fun co =>
    (s.threads.body co).isNone && decide (co ∉ s.co_pool.keys.filterMap s.co_pool.lookup)

/-- No coroutine has ended. -/
def ServiceLua.AllAlive (s : ServiceLua τ) : Prop :=
  ∀ co, co < s.created → s.threads.body co ≠ none

def ServiceLua.Event.IsCollect : ServiceLua.Event τ → Prop
  | .collect _ => True
  | _ => False

/-- The event may end a coroutine. -/
def ServiceLua.Event.MayEnd : ServiceLua.Event τ → Prop
  | .raise | .quit _ => True
  | _ => False

/-- What an event that collects nothing does to the pool and to the points of
`routine`. -/
inductive PoolMove (s s' : ServiceLua τ) : ServiceLua.Event τ → Prop
  | same {e : ServiceLua.Event τ} : (∀ d, s'.threads.body d = s.threads.body d) →
      s'.created = s.created → s'.co_pool = s.co_pool → PoolMove s s' e
  /-- a task is lost on a dead coroutine -/
  | loses {n co : ℕ} {task : τ} : IsBorder s.co_pool n → s.co_pool.lookup n = some co →
      s.Dead co → s'.threads = s.threads → s'.co_pool = s.co_pool.erase n →
      PoolMove s s' (.async n task)
  | starts {n co : ℕ} {task : τ} : IsBorder s.co_pool n → s.Started s' n co task →
      (s'.created = s.created ∨ s'.created = s.created + 1 ∧ s.co_pool.lookup n = none) →
      PoolMove s s' (.async n task)
  /-- `routine` goes on, from the task to `invoke` or to the yield of its loop -/
  | goes {e : ServiceLua.Event τ} {co : ℕ} {r r' : Routine τ} : s.threads.body co = some r →
      (∃ task, r = .calling task ∧ r' = .storing) ∨ r = .looping ∧ r' = .waiting →
      (∀ d, s'.threads.body d = if d = co then some r' else s.threads.body d) →
      s'.created = s.created → s'.co_pool = s.co_pool → PoolMove s s' e
  | pushes {n co : ℕ} : IsBorder s.co_pool n → s.threads.body co = some .storing →
      (∀ d, s'.threads.body d = if d = co then some .looping else s.threads.body d) →
      s'.created = s.created → s'.co_pool = push s.co_pool n co → PoolMove s s' (.push n)
  | ends {e : ServiceLua.Event τ} : e.MayEnd →
      (∀ d, s'.threads.body d = s.threads.body d ∨ s'.threads.body d = none) →
      s'.created = s.created → s'.co_pool = s.co_pool → PoolMove s s' e

/-- The pool has no holes and has every coroutine that waits for a task, or is about
to; and none is left at its start. -/
structure PoolFull (s : ServiceLua τ) : Prop where
  kept : PoolKept s
  upto : ∃ k, Upto s.co_pool k
  pooled : ∀ co, s.threads.body co = some .waiting ∨ s.threads.body co = some .looping →
    ∃ n, s.co_pool.lookup n = some co
  begun : ∀ co, s.threads.body co ≠ some .created

/-! ## 1. One event -/

theorem poolMove_step {s s' : ServiceLua τ} {e : ServiceLua.Event τ} (h : PoolKept s)
    (he : ¬ e.IsCollect) (hs : s.step e = some s') : PoolMove s s' e := by
  cases e with
  | async n task =>
    obtain ⟨⟨hin, hborder⟩, rfl⟩ := ServiceLua.step_spec.mp hs
    rcases async_cases h hin n task with ⟨co, hn, hdead, heq⟩ | ⟨s', co, heq, hstart, _⟩
    · rw [heq]
      exact .loses hborder hn hdead rfl rfl
    · have hcreated := length_async s n task
      rw [heq] at hcreated ⊢
      exact .starts hborder hstart hcreated
  | make_session | new_service =>
    obtain ⟨_, rfl⟩ := ServiceLua.step_spec.mp hs
    exact .same (fun _ => rfl) rfl rfl
  | collect slots => exact absurd trivial he
  | yield =>
    obtain ⟨⟨co, cs, task, hr⟩, rfl⟩ := ServiceLua.step_spec.mp hs
    have hbody := (yield_spec id hr.chain).2
    exact .same (fun d => by simp [hbody]) (length_yield _) rfl
  | wake co =>
    obtain ⟨_, _, threads, hres, rfl⟩ := ServiceLua.step_spec.mp hs
    have hbody := (Coroutines.resume_spec hres).2.2
    exact .same (fun d => by simp [hbody]) (length_resume hres) rfl
  | ret =>
    obtain ⟨⟨co, cs, task, hr⟩, rfl⟩ := ServiceLua.step_spec.mp hs
    have hbody := (jump_spec (fun _ => Routine.storing) hr.chain).2
    exact .goes hr.body (Or.inl ⟨task, rfl, rfl⟩)
      (fun d => (hbody d).trans (body_map hr.body _ d)) (length_jump _) rfl
  | push n =>
    obtain ⟨hborder, co, ⟨cs, hr⟩, rfl⟩ := ServiceLua.step_spec.mp hs
    have hbody := (jump_spec (fun _ => Routine.looping) hr.chain).2
    exact .pushes hborder hr.body (fun d => (hbody d).trans (body_map hr.body _ d))
      (length_jump _) rfl
  | idle =>
    obtain ⟨⟨co, cs, hr⟩, rfl⟩ := ServiceLua.step_spec.mp hs
    have hbody := (yield_spec (fun _ => Routine.waiting) hr.chain).2
    exact .goes hr.body (Or.inr ⟨rfl, rfl⟩) (fun d => (hbody d).trans (body_map hr.body _ d))
      (length_yield _) rfl
  | raise =>
    obtain ⟨⟨co, cs, task, hr⟩, rfl⟩ := ServiceLua.step_spec.mp hs
    have hbody := (die_spec hr.chain).2
    refine .ends trivial (fun d => ?_) length_die rfl
    rw [hbody]
    exact (ite_eq_or_eq _ _ _).symm
  | quit order =>
    obtain ⟨⟨_, horder⟩, rfl⟩ := ServiceLua.step_spec.mp hs
    exact .ends trivial (fun d => (body_quit horder d).imp_right And.right) (length_quitLoop ..)
      (quit_spec horder).1.pool

/-! ## 2. The pool without holes -/

namespace PoolSizeLemmas

variable {s s' : ServiceLua τ} {e : ServiceLua.Event τ} {co : ℕ}

theorem poolFull_init : PoolFull (ServiceLua.init : ServiceLua τ) where
  kept := poolKept_init
  upto := ⟨0, upto_empty⟩
  pooled _ h := by rcases h with h | h <;> cases h
  begun _ h := by cases h

/-- At a border the pool is erased; what else it has stays. -/
theorem erase_keeps {n d : ℕ} (hd : ∃ m, s.co_pool.lookup m = some d)
    (hne : s.co_pool.lookup n ≠ some d) : ∃ m, (s.co_pool.erase n).lookup m = some d := by
  obtain ⟨m, hm⟩ := hd
  refine ⟨m, lookup_erase.mpr ⟨?_, hm⟩⟩
  rintro rfl
  exact hne hm

end PoolSizeLemmas

open PoolSizeLemmas

theorem poolFull_step {s s' : ServiceLua τ} {e : ServiceLua.Event τ} (h : PoolFull s)
    (he : ¬ e.IsCollect) (hs : s.step e = some s') : PoolFull s' := by
  have hkept := poolKept_step h.kept hs
  obtain ⟨k, hk⟩ := h.upto
  cases poolMove_step h.kept he hs with
  | same hbody _ hpool =>
    refine ⟨hkept, ⟨k, hpool ▸ hk⟩, fun d hd => ?_, fun d => ?_⟩
    · rw [hbody] at hd
      rw [hpool]
      exact h.pooled d hd
    · rw [hbody]
      exact h.begun d
  | @loses n co task hborder hn hdead hthreads hpool =>
    obtain rfl := border_upto hk hborder
    refine ⟨hkept, ⟨n - 1, hpool ▸ upto_erase hk⟩, fun d hd => ?_, fun d => ?_⟩
    · rw [hthreads] at hd
      rw [hpool]
      refine erase_keeps (h.pooled d hd) fun hnd => ?_
      cases hn.symm.trans hnd
      rw [hdead.body] at hd
      rcases hd with hd | hd <;> cases hd
    · rw [hthreads]
      exact h.begun d
  | @starts n co task hborder hstart _ =>
    obtain rfl := border_upto hk hborder
    refine ⟨hkept, ⟨n - 1, hstart.pool ▸ upto_erase hk⟩, fun d hd => ?_, fun d => ?_⟩
    · rw [hstart.body] at hd
      rw [hstart.pool]
      split at hd
      · rcases hd with hd | hd <;> cases hd
      · next hne =>
        refine erase_keeps (h.pooled d hd) fun hnd => ?_
        rcases hstart.chosen with hn | ⟨hn, _⟩
        · exact hne (Option.some.inj (hnd.symm.trans hn))
        · cases hn.symm.trans hnd
    · rw [hstart.body]
      split
      · exact nofun
      · exact h.begun d
  | @goes _ co r r' hco hr hbody _ hpool =>
    refine ⟨hkept, ⟨k, hpool ▸ hk⟩, fun d hd => ?_, fun d => ?_⟩
    · rw [hbody] at hd
      rw [hpool]
      split at hd
      · next hdc =>
        subst hdc
        rcases hr with ⟨_, rfl, rfl⟩ | ⟨rfl, rfl⟩
        · rcases hd with hd | hd <;> cases hd
        · exact h.pooled d (Or.inr hco)
      · exact h.pooled d hd
    · rw [hbody]
      split
      · rcases hr with ⟨_, rfl, rfl⟩ | ⟨rfl, rfl⟩ <;> exact nofun
      · exact h.begun d
  | @pushes n co hborder hco hbody _ hpool =>
    obtain rfl := border_upto hk hborder
    refine ⟨hkept, ⟨n + 1, hpool ▸ upto_push hk co⟩, fun d hd => ?_, fun d => ?_⟩
    · rw [hbody] at hd
      rw [hpool]
      split at hd
      · next hdc => exact ⟨n + 1, lookup_push.mpr (Or.inl ⟨rfl, hdc⟩)⟩
      · obtain ⟨m, hm⟩ := h.pooled d hd
        refine ⟨m, lookup_push.mpr (Or.inr ⟨?_, hm⟩)⟩
        rintro rfl
        cases hm.symm.trans (push_free hborder)
    · rw [hbody]
      split
      · exact nofun
      · exact h.begun d
  | ends _ hbody _ hpool =>
    have halive : ∀ d r, s'.threads.body d = some r → s.threads.body d = some r := by
      intro d r hd
      rcases hbody d with heq | hnone
      · exact heq.symm.trans hd
      · cases hnone.symm.trans hd
    refine ⟨hkept, ⟨k, hpool ▸ hk⟩, fun d hd => ?_, fun d hd => h.begun d (halive d _ hd)⟩
    rw [hpool]
    exact h.pooled d (hd.imp (halive d _) (halive d _))

/-! ## 3. How many coroutines a run creates -/

namespace PoolSizeLemmas

variable {s s' : ServiceLua τ} {e : ServiceLua.Event τ} {co : ℕ}

theorem mem_pooled : co ∈ s.co_pool.keys.filterMap s.co_pool.lookup ↔
    ∃ n, s.co_pool.lookup n = some co := by
  rw [List.mem_filterMap]
  refine exists_congr fun n => and_iff_right_of_imp fun hn => ?_
  exact AList.mem_keys.mp (AList.lookup_isSome.mp (by rw [hn]; rfl))

/-- With the pool empty every coroutine is under way or has ended. -/
theorem created_of_empty (h : PoolFull s) (hempty : ∀ n, s.co_pool.lookup n = none) :
    s.created = s.underWay + s.ended := by
  have hended : s.ended = (List.range s.created).countP
      fun co => decide ¬ (s.threads.body co).any Routine.underWay = true := by
    refine List.countP_congr fun co _ => ?_
    have hout : co ∉ s.co_pool.keys.filterMap s.co_pool.lookup := by
      rw [mem_pooled]
      rintro ⟨n, hn⟩
      cases (hempty n).symm.trans hn
    cases hbody : s.threads.body co with
    | none => simp [hout]
    | some r =>
      cases r with
      | created => exact absurd hbody (h.begun co)
      | calling task | storing => simp [Routine.underWay]
      | looping | waiting =>
        obtain ⟨n, hn⟩ := h.pooled co (by simp [hbody])
        cases (hempty n).symm.trans hn
  rw [hended, ServiceLua.underWay, ← List.length_eq_countP_add_countP, List.length_range]

theorem created_step (h : PoolFull s) (he : ¬ e.IsCollect) (hs : s.step e = some s') :
    s'.created = s.created ∨ s'.created = s'.underWay + s'.ended := by
  obtain ⟨k, hk⟩ := h.upto
  have hfull := poolFull_step h he hs
  cases poolMove_step h.kept he hs with
  | same _ hcreated _ | goes _ _ _ hcreated _ | pushes _ _ _ hcreated _ | ends _ _ hcreated _ =>
    exact Or.inl hcreated
  | loses _ _ _ hthreads _ => exact Or.inl (congrArg (·.bodies.length) hthreads)
  | starts hborder hstart hcreated =>
    refine hcreated.imp_right fun ⟨_, hnone⟩ => created_of_empty hfull fun m => ?_
    obtain rfl := border_upto hk hborder
    have hempty := lookup_of_upto hk hnone
    cases hm : s'.co_pool.lookup m with
    | none => rfl
    | some d =>
      rw [hstart.pool] at hm
      cases (hempty m).symm.trans (lookup_erase.mp hm).2

end PoolSizeLemmas

theorem created_le_step {s s' : ServiceLua τ} {e : ServiceLua.Event τ} (h : PoolKept s)
    (hs : s.step e = some s') : s.created ≤ s'.created := by
  cases threadMove_step h hs with
  | same hthreads => exact (congrArg (·.bodies.length) hthreads).ge
  | running _ _ _ _ hlen | closes _ _ _ hlen => exact hlen.ge
  | enters _ _ _ _ _ hlen => exact hlen

theorem created_le_run {s s' : ServiceLua τ} {es : List (ServiceLua.Event τ)} (h : PoolKept s)
    (hrun : run ServiceLua.step s es = some s') : s.created ≤ s'.created := by
  have hinv : PoolKept s' ∧ s.created ≤ s'.created :=
    run_invariant (I := fun t => PoolKept t ∧ s.created ≤ t.created)
      (fun t e t' ht _ hs => ⟨poolKept_step ht.1 hs, ht.2.trans (created_le_step ht.1 hs)⟩)
      ⟨h, le_rfl⟩ (meets_of_forall (fun _ _ => trivial) s es) hrun
  exact hinv.2

/-- Without an error and without `quit` no coroutine ends. -/
theorem alive_step {s s' : ServiceLua τ} {e : ServiceLua.Event τ} (h : PoolKept s)
    (halive : s.AllAlive) (hcollect : ¬ e.IsCollect) (hend : ¬ e.MayEnd)
    (hs : s.step e = some s') : s'.AllAlive := by
  intro d hd
  cases poolMove_step h hcollect hs with
  | same hbody hcreated _ =>
    rw [hbody]
    exact halive d (hd.trans_eq hcreated)
  | loses _ _ hdead _ _ => exact absurd hdead.body (halive _ hdead.created)
  | starts _ hstart hcreated =>
    rw [hstart.body]
    split
    · exact nofun
    · next hne =>
      refine halive d ?_
      rcases hcreated with hsame | ⟨hmore, hnone⟩
      · exact hd.trans_eq hsame
      · have hnew := (hstart.chosen.resolve_left (by rw [hnone]; exact nofun)).2
        exact lt_of_le_of_ne (Nat.le_of_lt_succ (hd.trans_eq hmore)) fun hd => hne (hd.trans hnew.symm)
  | goes _ _ hbody hcreated _ | pushes _ _ hbody hcreated _ =>
    rw [hbody]
    split
    · exact nofun
    · exact halive d (hd.trans_eq hcreated)
  | ends he _ _ _ => exact absurd he hend

theorem ended_of_alive {s : ServiceLua τ} (h : s.AllAlive) : s.ended = 0 := by
  refine List.countP_eq_zero.mpr fun co hco hended => ?_
  have hnone := (Bool.and_eq_true_iff.mp hended).1
  exact h co (List.mem_range.mp hco) (Option.isNone_iff_eq_none.mp hnone)

/-- The pool is as small as it can be. In every run in which the collector does not
clear it, at no moment more tasks are under way than coroutines are created in all;
and these are no more than, at some moment, were under way or had died outside of the
pool. If until then no task had raised an error and `quit` had not been called, none
had died, so they are the most tasks that were ever under way at once. -/
theorem pool_reuses {s : ServiceLua τ} {es : List (ServiceLua.Event τ)}
    (hrun : run ServiceLua.step ServiceLua.init es = some s) (hcollect : ∀ e ∈ es, ¬ e.IsCollect) :
    (∀ es₁ t, es₁ <+: es → run ServiceLua.step ServiceLua.init es₁ = some t →
      t.underWay ≤ s.created) ∧
    ∃ es₁ t, es₁ <+: es ∧ run ServiceLua.step ServiceLua.init es₁ = some t ∧
      s.created = t.underWay + t.ended ∧ ((∀ e ∈ es₁, ¬ e.MayEnd) → t.ended = 0) := by
  constructor
  · rintro es₁ t ⟨es₂, rfl⟩ ht
    obtain ⟨t', ht', hrest⟩ := run_prefix hrun
    cases ht.symm.trans ht'
    have hkept : PoolKept t := run_invariant (fun _ _ _ h _ hs => poolKept_step h hs) poolKept_init
      (meets_of_forall (fun _ _ => trivial) _ es₁) ht
    calc t.underWay ≤ (List.range t.created).length := List.countP_le_length
      _ = t.created := List.length_range
      _ ≤ s.created := created_le_run hkept hrest
  · obtain ⟨es₁, t, hpre, ht, hcreated⟩ := exists_moment (I := PoolFull)
      (fun s e s' h he hs => ⟨poolFull_step h he hs, created_step h he hs⟩) poolFull_init
      (created_of_empty poolFull_init fun _ => rfl) hcollect hrun
    refine ⟨es₁, t, hpre, ht, hcreated, fun hend => ended_of_alive ?_⟩
    have hevents : ∀ e ∈ es₁, ¬ e.IsCollect ∧ ¬ e.MayEnd :=
      fun e he => ⟨hcollect e (hpre.subset he), hend e he⟩
    have hinit : PoolKept (ServiceLua.init : ServiceLua τ) ∧
        (ServiceLua.init : ServiceLua τ).AllAlive :=
      ⟨poolKept_init, fun _ hco => absurd hco (Nat.not_lt_zero _)⟩
    exact (run_invariant (I := fun s => PoolKept s ∧ s.AllAlive)
      (fun _ _ _ h he hs => ⟨poolKept_step h.1 hs, alive_step h.1 h.2 he.1 he.2 hs⟩) hinit
      (meets_of_mem hevents _) ht).2

/-- Three tasks, of which two are under way at once; the third reuses a coroutine. -/
def threeTasks : List (ServiceLua.Event ℕ) :=
  [.async 0 0, .yield, .async 0 1, .ret, .push 0, .idle, .async 1 2]

theorem pool_reuses_three :
    ∃ s, run ServiceLua.step ServiceLua.init threeTasks = some s ∧ s.created = 2 ∧
      ∃ es₁ t, es₁ <+: threeTasks ∧ run ServiceLua.step ServiceLua.init es₁ = some t ∧
        s.created = t.underWay + t.ended := by
  obtain ⟨s, hrun, hcreated⟩ : ∃ s, run ServiceLua.step ServiceLua.init threeTasks = some s ∧
      s.created = 2 := ⟨_, rfl, rfl⟩
  obtain ⟨_, es₁, t, hpre, ht, heq, _⟩ := pool_reuses hrun
    (by simp [threeTasks, ServiceLua.Event.IsCollect])
  exact ⟨s, hrun, hcreated, es₁, t, hpre, ht, heq⟩

end LuaRobot
