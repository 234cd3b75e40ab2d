import LuaRobot.ServiceLua

/-!
# The coroutine pool

While nobody calls `server.quit`, the coroutines in `co_pool` are idle, but for
one that has just put itself there and is about to yield. So what
`server.async` takes from the pool is never in use, and every task starts.

Results:
1. `poolInv_step`: every event other than `quit` keeps the invariant.
2. `pool_safety`: the pool in every run without `quit`.
-/

namespace LuaRobot

open Runs SparseTable Coroutines ServiceLuaLemmas

/-! ## Definitions -/

variable {τ : Type}

/-- The pool holds idle coroutines and the one that runs `routine` right before
its yield, each once; and every coroutine that has resumed another is in a
task. -/
structure PoolInv (s : ServiceLua τ) : Prop where
  pooled : ∀ n co, s.co_pool.lookup n = some co → s.Idle co ∨ ∃ cs, s.Running co cs .looping
  once : Once s.co_pool
  resumers : ∀ co ∈ s.threads.chain.tail, ∃ task, s.threads.body co = some (.calling task)

/-- Every coroutine in the pool is idle. -/
def ServiceLua.PoolIdle (s : ServiceLua τ) : Prop :=
  ∀ n co, s.co_pool.lookup n = some co → s.Idle co

def ServiceLua.Event.IsQuit : ServiceLua.Event τ → Prop
  | .quit _ => True
  | _ => False

instance : (e : ServiceLua.Event τ) → Decidable e.IsQuit
  | .quit _ => isTrue trivial
  | .async .. | .make_session | .new_service | .yield | .wake _ | .ret | .push _ | .idle | .raise
  | .collect _ => isFalse id

namespace CoroutinePoolLemmas

variable {s s' : ServiceLua τ}

theorem idle_iff {co : ℕ} :
    s.Idle co ↔ co ∉ s.threads.chain ∧ s.threads.body co = some .waiting := by
  constructor
  · rintro ⟨hstatus, hbody⟩
    exact ⟨(status_eq_suspended.mp hstatus).1, hbody⟩
  · rintro ⟨hmem, hbody⟩
    exact ⟨status_eq_suspended.mpr ⟨hmem, by rw [hbody]; rfl⟩, hbody⟩

/-- Where the running coroutine is not right before its yield, the pool is
idle. -/
theorem poolIdle_of_running {co : ℕ} {cs : List ℕ} {r : Routine τ} (h : PoolInv s)
    (hr : s.Running co cs r) (hne : r ≠ .looping) : s.PoolIdle := by
  intro n d hd
  rcases h.pooled n d hd with hidle | ⟨cs', hrun⟩
  · exact hidle
  · cases hrun.chain.symm.trans hr.chain
    cases hrun.body.symm.trans hr.body
    exact absurd rfl hne

theorem poolIdle_inScript (h : PoolInv s) (hs : s.InScript) : s.PoolIdle := by
  intro n d hd
  rcases h.pooled n d hd with hidle | ⟨cs, hrun⟩
  · exact hidle
  · have hin := hs d (by rw [hrun.chain]; rfl)
    rw [hrun.body] at hin
    cases hin

/-- In the script, every coroutine in the chain is in a task. -/
theorem chain_inTask (h : PoolInv s) (hs : s.InScript) :
    ∀ co ∈ s.threads.chain, ∃ task, s.threads.body co = some (.calling task) := by
  have hresumers := h.resumers
  unfold ServiceLua.InScript at hs
  cases hc : s.threads.chain with
  | nil => exact fun co hco => absurd hco List.not_mem_nil
  | cons c cs =>
    rw [hc] at hs hresumers
    intro co hco
    rcases List.mem_cons.mp hco with rfl | hco
    · exact any_inTask.mp (hs co rfl)
    · exact hresumers co hco

theorem running_not_idle {co : ℕ} {cs : List ℕ} {r : Routine τ} (hr : s.Running co cs r) :
    ¬ s.Idle co := by
  intro hidle
  exact (idle_iff.mp hidle).1 (hr.chain ▸ List.mem_cons_self)

/-- An idle coroutine stays idle while it is not resumed and its body is left
alone. -/
theorem idle_of_same {co : ℕ} (h : s.Idle co) (hchain : co ∉ s'.threads.chain)
    (hbody : s'.threads.body co = s.threads.body co) : s'.Idle co :=
  idle_iff.mpr ⟨hchain, hbody.trans h.body⟩

end CoroutinePoolLemmas

open CoroutinePoolLemmas

/-! ## 1. One event -/

namespace CoroutinePoolLemmas

variable {s s' : ServiceLua τ}

theorem poolInv_init : PoolInv (ServiceLua.init : ServiceLua τ) where
  pooled _ _ h := nomatch h
  once _ _ _ h := nomatch h
  resumers _ h := nomatch h

theorem poolInv_started {n co : ℕ} {task : τ} (h : PoolInv s) (hs : s.InScript)
    (hstart : s.Started s' n co task) : PoolInv s' := by
  have hidle := poolIdle_inScript h hs
  -- what is left in the pool is not the coroutine that was started
  have hother : ∀ m d, s'.co_pool.lookup m = some d → s.co_pool.lookup m = some d ∧ d ≠ co := by
    intro m d hd
    rw [hstart.pool] at hd
    have hm := (lookup_erase.mp hd).2
    refine ⟨hm, fun hdc => ?_⟩
    rcases hstart.chosen with hn | ⟨_, hnew⟩
    · exact once_erase h.once hn m (hdc ▸ hd)
    · exact absurd (lt_of_body (hidle m d hm).body) (by omega)
  refine ⟨fun m d hd => Or.inl ?_, ?_, ?_⟩
  · obtain ⟨hm, hdc⟩ := hother m d hd
    refine idle_of_same (hidle m d hm) ?_ (by rw [hstart.body, if_neg hdc])
    rw [hstart.chain]
    exact fun hc => (List.mem_cons.mp hc).elim hdc (idle_iff.mp (hidle m d hm)).1
  · exact once_of_sub h.once (hstart.pool ▸ sub_erase s.co_pool n)
  · rw [hstart.chain, List.tail_cons]
    intro d hd
    rw [hstart.body]
    split
    · exact ⟨task, rfl⟩
    · exact chain_inTask h hs d hd

theorem poolInv_wake {co : ℕ} {task : τ} {threads : World (Routine τ)} (h : PoolInv s)
    (hs : s.InScript) (hbody : s.threads.body co = some (.calling task))
    (hres : s.threads.resume co id = some threads) : PoolInv { s with threads } := by
  obtain ⟨_, hchain, hb⟩ := Coroutines.resume_spec hres
  have hsame : ∀ d, threads.body d = s.threads.body d := by
    intro d
    rw [hb d]
    split <;> simp
  refine ⟨fun m d hd => Or.inl ?_, h.once, ?_⟩
  · have hidle := poolIdle_inScript h hs m d hd
    have hdc : d ≠ co := by
      rintro rfl
      cases hidle.body.symm.trans hbody
    refine idle_of_same hidle ?_ (hsame d)
    simp only [hchain]
    exact fun hc => (List.mem_cons.mp hc).elim hdc (idle_iff.mp hidle).1
  · simp only [hchain, List.tail_cons, hsame]
    exact chain_inTask h hs

/-- The running coroutine, in a task or about to store itself, leaves the chain
or goes on: the pool is as it was. -/
theorem poolInv_running {co : ℕ} {cs : List ℕ} {r : Routine τ} {threads : World (Routine τ)}
    (h : PoolInv s) (hr : s.Running co cs r) (hne : r ≠ .looping)
    (hchain : threads.chain = cs ∨ threads.chain = co :: cs)
    (hbody : ∀ d, d ≠ co → threads.body d = s.threads.body d) : PoolInv { s with threads } := by
  have hnodup := s.threads.nodup
  rw [hr.chain] at hnodup
  have hmem : ∀ d, d ∈ threads.chain → d ∈ s.threads.chain := by
    intro d hd
    rw [hr.chain]
    rcases hchain with hc | hc <;> rw [hc] at hd
    · exact List.mem_cons_of_mem co hd
    · exact hd
  have htail : ∀ d, d ∈ threads.chain.tail → d ∈ cs := by
    intro d hd
    rcases hchain with hc | hc <;> rw [hc] at hd
    · exact List.mem_of_mem_tail hd
    · exact hd
  refine ⟨fun m d hd => Or.inl ?_, h.once, fun d hd => ?_⟩
  · have hidle := poolIdle_of_running h hr hne m d hd
    have hdco : d ≠ co := fun hdc => running_not_idle hr (hdc ▸ hidle)
    exact idle_of_same hidle (fun hc => (idle_iff.mp hidle).1 (hmem d hc)) (hbody d hdco)
  · have hdcs := htail d hd
    have hdco : d ≠ co := fun hdc => (List.nodup_cons.mp hnodup).1 (hdc ▸ hdcs)
    have hres := h.resumers d (by rw [hr.chain]; exact hdcs)
    simpa only [hbody d hdco] using hres

/-- `invoke` stores its coroutine under a free index. -/
theorem poolInv_push {n co : ℕ} {cs : List ℕ} (h : PoolInv s) (hr : s.Running co cs .storing) :
    PoolInv { s with
      co_pool := push s.co_pool n co, threads := s.threads.jump fun _ => .looping } := by
  obtain ⟨hchain, hbody⟩ := jump_spec (fun _ => .looping) hr.chain
  have hinv : PoolInv { s with threads := s.threads.jump fun _ => .looping } :=
    poolInv_running h hr (fun h => nomatch h) (Or.inr hchain) fun d hd => by rw [hbody, if_neg hd]
  have hfree : ∀ m, s.co_pool.lookup m ≠ some co := fun m hm =>
    running_not_idle hr (poolIdle_of_running h hr (fun h => nomatch h) m co hm)
  refine ⟨fun m d hd => ?_, once_push h.once hfree, hinv.resumers⟩
  rcases lookup_push.mp hd with ⟨_, rfl⟩ | ⟨_, hd⟩
  · refine Or.inr ⟨cs, hchain, ?_⟩
    simp only [hbody, if_true, hr.body, Option.map_some]
  · rcases hinv.pooled m d hd with hidle | ⟨cs', hrun⟩
    · exact Or.inl ⟨hidle.status, hidle.body⟩
    · exact Or.inr ⟨cs', hrun.chain, hrun.body⟩

/-- The coroutine that stored itself yields and is idle. -/
theorem poolInv_idle {co : ℕ} {cs : List ℕ} (h : PoolInv s) (hr : s.Running co cs .looping) :
    PoolInv { s with threads := s.threads.yield fun _ => .waiting } := by
  obtain ⟨hchain, hbody⟩ := yield_spec (fun _ => .waiting) hr.chain
  have hnodup := s.threads.nodup
  rw [hr.chain] at hnodup
  have hco := (List.nodup_cons.mp hnodup).1
  refine ⟨fun m d hd => Or.inl ?_, h.once, fun d hd => ?_⟩
  · refine idle_iff.mpr ?_
    simp only [hchain, hbody]
    by_cases hdc : d = co
    · subst hdc
      exact ⟨hco, by rw [if_pos rfl, hr.body, Option.map_some]⟩
    · rw [if_neg hdc]
      rcases h.pooled m d hd with hidle | ⟨cs', hrun⟩
      · have hmem := (idle_iff.mp hidle).1
        rw [hr.chain] at hmem
        exact ⟨fun hc => hmem (List.mem_cons_of_mem co hc), hidle.body⟩
      · cases hrun.chain.symm.trans hr.chain
        exact absurd rfl hdc
  · simp only [hchain] at hd
    have hdcs := List.mem_of_mem_tail hd
    have hdco : d ≠ co := fun hdc => hco (hdc ▸ hdcs)
    have hres := h.resumers d (by rw [hr.chain]; exact hdcs)
    simpa only [hbody, if_neg hdco] using hres

end CoroutinePoolLemmas

/-- Every event but `quit` keeps the invariant of the pool. -/
theorem poolInv_step {s s' : ServiceLua τ} {e : ServiceLua.Event τ} (h : PoolInv s)
    (he : ¬ e.IsQuit) (hs : s.step e = some s') : PoolInv s' := by
  cases e with
  | async n task =>
    obtain ⟨⟨hin, _⟩, rfl⟩ := ServiceLua.step_spec.mp hs
    obtain ⟨s', co, heq, hstart⟩ := ServiceLua.async_idle task
      fun co hco => poolIdle_inScript h hin n co hco
    rw [heq]
    exact poolInv_started h hin hstart
  | make_session | new_service =>
    obtain ⟨_, rfl⟩ := ServiceLua.step_spec.mp hs
    exact ⟨fun n co hco => (h.pooled n co hco).imp (fun hi => ⟨hi.status, hi.body⟩)
      fun ⟨cs, hr⟩ => ⟨cs, hr.chain, hr.body⟩, h.once, h.resumers⟩
  | yield =>
    obtain ⟨⟨co, cs, task, hr⟩, rfl⟩ := ServiceLua.step_spec.mp hs
    obtain ⟨hchain, hbody⟩ := yield_spec id hr.chain
    exact poolInv_running h hr (fun h => nomatch h) (Or.inl hchain)
      fun d hd => by rw [hbody, if_neg hd]
  | wake co =>
    obtain ⟨hin, ⟨task, hbody⟩, threads, hres, rfl⟩ := ServiceLua.step_spec.mp hs
    exact poolInv_wake h hin hbody hres
  | ret =>
    obtain ⟨⟨co, cs, task, hr⟩, rfl⟩ := ServiceLua.step_spec.mp hs
    obtain ⟨hchain, hbody⟩ := jump_spec (fun _ => .storing) hr.chain
    exact poolInv_running h hr (fun h => nomatch h) (Or.inr hchain)
      fun d hd => by rw [hbody, if_neg hd]
  | push n =>
    obtain ⟨_, co, ⟨cs, hr⟩, rfl⟩ := ServiceLua.step_spec.mp hs
    exact poolInv_push h hr
  | idle =>
    obtain ⟨⟨co, cs, hr⟩, rfl⟩ := ServiceLua.step_spec.mp hs
    exact poolInv_idle h hr
  | raise =>
    obtain ⟨⟨co, cs, task, hr⟩, rfl⟩ := ServiceLua.step_spec.mp hs
    obtain ⟨hchain, hbody⟩ := die_spec hr.chain
    exact poolInv_running h hr (fun h => nomatch h) (Or.inl hchain)
      fun d hd => by rw [hbody, if_neg hd]
  | collect slots =>
    obtain ⟨_, rfl⟩ := ServiceLua.step_spec.mp hs
    have hsub := sub_collect s.co_pool slots
    exact ⟨fun n co hco => (h.pooled n co (hsub n co hco)).imp (fun hi => ⟨hi.status, hi.body⟩)
      fun ⟨cs, hr⟩ => ⟨cs, hr.chain, hr.body⟩, once_of_sub h.once hsub, h.resumers⟩
  | quit order => exact absurd trivial he

/-! ## 2. Every run without `quit` -/

namespace CoroutinePoolLemmas

variable {s s' : ServiceLua τ}

/-- An idle pool gives `server.async` a coroutine that is in no task. -/
theorem async_of_poolIdle (h : s.PoolIdle) (n : ℕ) (task : τ) :
    ∃ s' co, s.async n task = (s', [(co, task)]) ∧
      (s.Idle co ∨ co = s.threads.bodies.length) := by
  obtain ⟨s', co, heq, hstart⟩ := ServiceLua.async_idle task (h n)
  exact ⟨s', co, heq, hstart.chosen.imp (h n co) And.right⟩

/-- An event starts the task it gives to `server.async`, and no other. -/
theorem starts_eq (h : PoolInv s) {e : ServiceLua.Event τ} (hs : s.step e = some s') :
    (s.starts e).map Prod.snd = e.tasks := by
  cases e with
  | async n task =>
    obtain ⟨⟨hin, _⟩, _⟩ := ServiceLua.step_spec.mp hs
    obtain ⟨_, co, heq, _⟩ := async_of_poolIdle (poolIdle_inScript h hin) n task
    simp [ServiceLua.starts, heq, ServiceLua.Event.tasks]
  | make_session | new_service | yield | wake co | ret | push n | idle | raise | collect slots
  | quit order => rfl

theorem poolInv_run {es : List (ServiceLua.Event τ)} (hes : ∀ e ∈ es, ¬ e.IsQuit)
    (hrun : run ServiceLua.step ServiceLua.init es = some s) : PoolInv s :=
  run_invariant (G := fun _ e => ¬ e.IsQuit) (fun _ _ _ h he hs => poolInv_step h he hs)
    poolInv_init (meets_of_mem hes _) hrun

end CoroutinePoolLemmas

/-- In every run without `quit`, where `server.async` may be called the pool holds
idle coroutines only; it never holds one twice; `invoke` stores its coroutine in
a free slot; and each `server.async` starts its task, once, on a coroutine that
is idle or new. -/
theorem pool_safety {es : List (ServiceLua.Event τ)} {s : ServiceLua τ}
    (hes : ∀ e ∈ es, ¬ e.IsQuit) (hrun : run ServiceLua.step ServiceLua.init es = some s) :
    (s.InScript → ∀ n co, s.co_pool.lookup n = some co → s.Idle co ∧ co ∉ s.threads.chain ∧
      ∀ task, s.threads.body co ≠ some (.calling task)) ∧
    (∀ n m co, s.co_pool.lookup n = some co → s.co_pool.lookup m = some co → n = m) ∧
    (∀ n s', s.step (.push n) = some s' → s.co_pool.lookup (n + 1) = none ∧
      ∀ m co, s.co_pool.lookup m = some co → s'.co_pool.lookup m = some co) ∧
    (s.InScript → ∀ task, (∃ n, IsBorder s.co_pool n) ∧ ∀ n, IsBorder s.co_pool n →
      ∃ s' co, s.async n task = (s', [(co, task)]) ∧
        (s.Idle co ∨ co = s.threads.bodies.length)) ∧
    (observe ServiceLua.step ServiceLua.starts ServiceLua.init es).map Prod.snd =
      es.flatMap ServiceLua.Event.tasks := by
  have hinv := poolInv_run hes hrun
  refine ⟨fun hin n co hco => ?_, hinv.once, fun n s' hs => ?_, fun hin task => ?_, ?_⟩
  · have hidle := poolIdle_inScript hinv hin n co hco
    refine ⟨hidle, (idle_iff.mp hidle).1, fun task htask => ?_⟩
    cases hidle.body.symm.trans htask
  · obtain ⟨hborder, co, _, rfl⟩ := ServiceLua.step_spec.mp hs
    have hfree := push_free hborder
    refine ⟨hfree, fun m d hd => lookup_push.mpr (Or.inr ⟨fun hm => ?_, hd⟩)⟩
    rw [hm, hfree] at hd
    cases hd
  · exact ⟨exists_border s.co_pool,
      fun n _ => async_of_poolIdle (poolIdle_inScript hinv hin) n task⟩
  · refine observe_map (I := PoolInv) (G := fun _ (e : ServiceLua.Event τ) => ¬ e.IsQuit)
      (fun _ _ _ h he hs => poolInv_step h he hs) (fun t e t' h _ hs => ?_)
      poolInv_init (meets_of_mem hes _) hrun
    exact starts_eq h hs

/-- Task 1 yields, task 2 returns and its coroutine runs task 3, which wakes
task 1. -/
def pooledRun : List (ServiceLua.Event ℕ) :=
  [.async 0 1, .make_session, .yield, .async 0 2, .ret, .push 0, .idle, .async 1 3, .wake 0,
    .raise, .ret, .push 0, .idle, .collect [1]]

theorem pool_safety_run :
    (observe ServiceLua.step ServiceLua.starts ServiceLua.init pooledRun).map Prod.snd =
      [1, 2, 3] := by
  have hrun : (run ServiceLua.step ServiceLua.init pooledRun).isSome = true := by decide
  obtain ⟨s, hs⟩ := Option.isSome_iff_exists.mp hrun
  exact (pool_safety (by decide) hs).2.2.2.2

end LuaRobot
