import LuaRobot.Quit
import Mathlib.Algebra.Group.Nat.Defs

/-!
# The service script in every run

`server.quit` may be called again and again, from any thread and with or without an
error. What is left of the pool and of the session table then: a coroutine that was
closed stays dead, and `server.async` loses a task only by taking such a coroutine
from the pool; a session keeps the thread that made it, or `false` once that thread
is dead.

Results:
1. `threadMove_step`: what one event does to the threads; `dead_step`: death is
   final.
2. `poolKept_step`: the invariant of the pool that `quit` keeps too.
3. `pool_in_every_run`: which tasks start, and on what the others are lost.
4. `sessions_in_every_run`: what the session table holds.
-/

namespace LuaRobot

open Runs SparseTable Coroutines ServiceLuaLemmas CoroutinePoolLemmas QuitLemmas

/-! ## Definitions -/

variable {τ : Type}

/-- The coroutine was created, and has ended or was closed. -/
structure ServiceLua.Dead (s : ServiceLua τ) (co : ℕ) : Prop where
  created : co < s.threads.bodies.length
  out : co ∉ s.threads.chain
  body : s.threads.body co = none

/-- Idle or dead. -/
structure ServiceLua.Resting (s : ServiceLua τ) (co : ℕ) : Prop where
  created : co < s.threads.bodies.length
  out : co ∉ s.threads.chain
  body : ∀ r, s.threads.body co = some r → r = .waiting

/-- The pool holds idle and dead coroutines and the one that runs `routine` right
before its yield, each once; and every coroutine that has resumed another is in a
task. -/
structure PoolKept (s : ServiceLua τ) : Prop where
  pooled : ∀ n co, s.co_pool.lookup n = some co → s.Resting co ∨ ∃ cs, s.Running co cs .looping
  once : Once s.co_pool
  resumers : ∀ co ∈ s.threads.chain.tail, ∃ task, s.threads.body co = some (.calling task)

/-- What becomes of the tasks, and of the coroutines in the pool. -/
inductive PoolRecord (τ : Type) where
  /-- `server.async` has started the task on `co` -/
  | started (co : ℕ) (task : τ)
  /-- it has taken `co` from the pool, which could not be resumed -/
  | lost (co : ℕ) (task : τ)
  /-- `quit` has closed `co`, which was in the pool -/
  | killed (co : ℕ)

def PoolRecord.task? : PoolRecord τ → Option τ
  | .started _ task | .lost _ task => some task
  | .killed _ => none

def PoolRecord.lost? : PoolRecord τ → Option ℕ
  | .lost co _ => some co
  | .started .. | .killed _ => none

/-- The coroutines on which a task was lost, oldest first. -/
def lostOn (log : List (PoolRecord τ)) : List ℕ := log.filterMap PoolRecord.lost?

def ServiceLua.poolRecords (s : ServiceLua τ) : ServiceLua.Event τ → List (PoolRecord τ)
  | .async n task =>
    match (s.async n task).2 with
    | (co, task) :: _ => [.started co task]
    | [] => (s.co_pool.lookup n).toList.map fun co => .lost co task
  | .quit order =>
    ((s.co_pool.keys.filterMap s.co_pool.lookup).filter fun co =>
      (s.threads.body co).isSome && ((s.quit order).1.threads.body co).isNone).map .killed
  | _ => []

/-- Tasks are lost on coroutines that `quit` has closed in the pool, on each at most
once; the pool holds no dead ones but such. -/
structure LostInv (s : ServiceLua τ) (log : List (PoolRecord τ)) : Prop where
  kept : PoolKept s
  once : (lostOn log).Nodup
  gone : ∀ co ∈ lostOn log, s.Dead co ∧ ∀ n, s.co_pool.lookup n ≠ some co
  pooled : ∀ n co, s.co_pool.lookup n = some co → s.Dead co → .killed co ∈ log
  killed : ∀ co ∈ lostOn log, .killed co ∈ log

/-- The thread that an event makes a session for. -/
def ServiceLua.makers (s : ServiceLua τ) : ServiceLua.Event τ → List Thread
  | .make_session | .new_service => [s.threads.current]
  | _ => []

/-- What the session after `i` others is numbered. -/
def sessionid (i : ℕ) : Int64 := Int64.ofNat (i + 1)

/-- The table has the sessions that were made, and each holds its maker, or `false`
when that is dead. -/
structure SessionInv (s : ServiceLua τ) (log : List Thread) : Prop where
  uid : s.uid = Int64.ofNat log.length
  keys : ∀ k, k ∈ s.sessionid_coroutine ↔ ∃ i < log.length, k = sessionid i
  created : ∀ co, .co co ∈ log → co < s.threads.bodies.length
  entries : ∀ i t, log[i]? = some t →
    s.sessionid_coroutine.lookup (sessionid i) = some (some t) ∨
      s.sessionid_coroutine.lookup (sessionid i) = some none ∧ ∃ co, t = .co co ∧ s.Dead co

/-- What an event does to the threads. -/
inductive ThreadMove (s s' : ServiceLua τ) (e : ServiceLua.Event τ) : Prop
  /-- nothing -/
  | same : s'.threads = s.threads → ThreadMove s s' e
  /-- the running coroutine goes on, or leaves the chain; it ends only in a task -/
  | running {co : ℕ} {cs : List ℕ} {r : Routine τ} : s.Running co cs r →
      (s'.threads.chain = cs ∨ s'.threads.chain = co :: cs) →
      (s'.threads.body co = none → ∃ task, r = .calling task) →
      (∀ d, d ≠ co → s'.threads.body d = s.threads.body d) →
      s'.threads.bodies.length = s.threads.bodies.length → ThreadMove s s' e
  /-- a new or a suspended coroutine runs in a task -/
  | enters {co : ℕ} {task : τ} : s.InScript →
      ((s.threads.body co).isSome = true ∨ co = s.threads.bodies.length) →
      s'.threads.chain = co :: s.threads.chain → s'.threads.body co = some (.calling task) →
      (∀ d, d ≠ co → s'.threads.body d = s.threads.body d) →
      s.threads.bodies.length ≤ s'.threads.bodies.length → ThreadMove s s' e
  /-- `quit` closes coroutines outside of the chain -/
  | closes : e.IsQuit → s'.threads.chain = s.threads.chain →
      (∀ d, s'.threads.body d = s.threads.body d ∨
        d ∉ s.threads.chain ∧ s'.threads.body d = none) →
      s'.threads.bodies.length = s.threads.bodies.length → ThreadMove s s' e

/-! ## 1. The threads -/

namespace ServiceRunsLemmas

variable {s s' : ServiceLua τ} {e : ServiceLua.Event τ} {co : ℕ}

theorem idle_resting (h : s.Idle co) : s.Resting co where
  created := lt_of_body h.body
  out := (idle_iff.mp h).1
  body _ hr := Option.some.inj (hr.symm.trans h.body)

theorem dead_resting (h : s.Dead co) : s.Resting co where
  created := h.created
  out := h.out
  body _ hr := nomatch hr.symm.trans h.body

theorem resting_iff : s.Resting co ↔ s.Idle co ∨ s.Dead co := by
  constructor
  · intro h
    cases hbody : s.threads.body co with
    | none => exact Or.inr ⟨h.created, h.out, hbody⟩
    | some r => exact Or.inl (idle_iff.mpr ⟨h.out, by rw [hbody, h.body r hbody]⟩)
  · rintro (h | h)
    · exact idle_resting h
    · exact dead_resting h

theorem length_quitLoop (cur : Thread) (keys : List Int64) (s : ServiceLua τ) :
    (s.quitLoop cur keys).1.threads.bodies.length = s.threads.bodies.length := by
  induction keys generalizing s with
  | nil => rfl
  | cons k ks ih =>
    unfold ServiceLua.quitLoop
    split
    · split
      · split
        · next threads hclose => exact (ih _).trans (length_close hclose)
        · rfl
      · exact ih s
    · exact ih s

theorem length_script_resume (s : ServiceLua τ) (co : ℕ) (task : τ) :
    (s.resume co task).1.threads.bodies.length = s.threads.bodies.length := by
  unfold ServiceLua.resume
  split
  · next threads hres => exact length_resume hres
  · rfl

/-- `server.async` creates a coroutine only when there is no entry at the border. -/
theorem length_async (s : ServiceLua τ) (n : ℕ) (task : τ) :
    (s.async n task).1.threads.bodies.length = s.threads.bodies.length ∨
      (s.async n task).1.threads.bodies.length = s.threads.bodies.length + 1 ∧
        s.co_pool.lookup n = none := by
  unfold ServiceLua.async SparseTable.remove
  cases hn : s.co_pool.lookup n with
  | some co => exact Or.inl (length_script_resume ..)
  | none => exact Or.inr ⟨(length_script_resume ..).trans (length_create _), rfl⟩

/-- `quit` closes coroutines outside of the chain. -/
theorem body_quit {order : List Int64} (horder : order.Perm s.sessionid_coroutine.keys) (d : ℕ) :
    (s.quit order).1.threads.body d = s.threads.body d ∨
      d ∉ s.threads.chain ∧ (s.quit order).1.threads.body d = none := by
  obtain ⟨hspec, _⟩ := quit_spec horder
  by_cases hd : s.Survives (s.visited order) d
  · exact Or.inl (hspec.spared d hd)
  · obtain ⟨k, hk, hcl⟩ : ∃ k ∈ s.visited order, s.Closes k d := by
      simpa [ServiceLua.Survives] using hd
    exact Or.inr ⟨hcl.2, hspec.killed k hk d hcl⟩

/-- Where the script may call `server.async`, every coroutine of the pool rests. -/
theorem resting_inScript (h : PoolKept s) (hs : s.InScript) {n : ℕ}
    (hn : s.co_pool.lookup n = some co) : s.Resting co := by
  rcases h.pooled n co hn with hrest | ⟨cs, hrun⟩
  · exact hrest
  · have hin := hs co (by rw [hrun.chain]; rfl)
    rw [hrun.body] at hin
    cases hin

theorem inTask_of_resumers (h : PoolKept s) (hs : s.InScript) :
    ∀ co ∈ s.threads.chain, ∃ task, s.threads.body co = some (.calling task) := by
  have hresumers := h.resumers
  unfold ServiceLua.InScript at hs
  cases hc : s.threads.chain with
  | nil => exact fun co hco => absurd hco List.not_mem_nil
  | cons c cs =>
    rw [hc] at hs hresumers
    intro co hco
    rcases List.mem_cons.mp hco with rfl | hco
    · exact any_inTask.mp (hs co rfl)
    · exact hresumers co hco

/-- A task starts on a coroutine that is idle or new, or it is lost on a dead one. -/
theorem async_cases (h : PoolKept s) (hs : s.InScript) (n : ℕ) (task : τ) :
    (∃ co, s.co_pool.lookup n = some co ∧ s.Dead co ∧
      s.async n task = ({ s with co_pool := s.co_pool.erase n }, [])) ∨
    ∃ s' co, s.async n task = (s', [(co, task)]) ∧ s.Started s' n co task ∧
      (s.Idle co ∨ co = s.threads.bodies.length) := by
  by_cases hdead : ∃ co, s.co_pool.lookup n = some co ∧ s.Dead co
  · obtain ⟨co, hn, hco⟩ := hdead
    refine Or.inl ⟨co, hn, hco, ServiceLua.async_dead task hn fun hstatus => ?_⟩
    have hbody := (status_eq_suspended.mp hstatus).2
    rw [hco.body] at hbody
    cases hbody
  · have hidle : ∀ co, s.co_pool.lookup n = some co → s.Idle co := fun co hn =>
      (resting_iff.mp (resting_inScript h hs hn)).resolve_right fun hco => hdead ⟨co, hn, hco⟩
    obtain ⟨s', co, heq, hstart⟩ := ServiceLua.async_idle task hidle
    exact Or.inr ⟨s', co, heq, hstart, hstart.chosen.imp (hidle co) And.right⟩

end ServiceRunsLemmas

open ServiceRunsLemmas

theorem threadMove_step {s s' : ServiceLua τ} {e : ServiceLua.Event τ} (h : PoolKept s)
    (hs : s.step e = some s') : ThreadMove s s' e := by
  cases e with
  | async n task =>
    obtain ⟨⟨hin, _⟩, rfl⟩ := ServiceLua.step_spec.mp hs
    rcases async_cases h hin n task with ⟨co, _, _, heq⟩ | ⟨s', co, heq, hstart, hco⟩
    · exact .same (by rw [heq])
    · have hlen : s.threads.bodies.length ≤ (s.async n task).1.threads.bodies.length :=
        (length_async s n task).elim (fun h => h.ge) fun h => (Nat.le_succ _).trans_eq h.1.symm
      rw [heq] at hlen ⊢
      refine .enters hin ?_ hstart.chain (by rw [hstart.body, if_pos rfl])
        (fun d hd => by rw [hstart.body, if_neg hd]) hlen
      exact hco.imp_left fun hidle => by rw [hidle.body]; rfl
  | make_session | new_service | collect slots =>
    obtain ⟨_, rfl⟩ := ServiceLua.step_spec.mp hs
    exact .same rfl
  | yield =>
    obtain ⟨⟨co, cs, task, hr⟩, rfl⟩ := ServiceLua.step_spec.mp hs
    obtain ⟨hchain, hbody⟩ := yield_spec id hr.chain
    exact .running hr (Or.inl hchain) (fun h => by rw [hbody, if_pos rfl, hr.body] at h; cases h)
      (fun d hd => by rw [hbody, if_neg hd]) (length_yield _)
  | wake co =>
    obtain ⟨hin, ⟨task, hbody⟩, threads, hres, rfl⟩ := ServiceLua.step_spec.mp hs
    obtain ⟨_, hchain, hb⟩ := Coroutines.resume_spec hres
    have hco : threads.body co = some (.calling task) := by
      rw [hb, if_pos rfl, hbody]
      rfl
    exact .enters hin (Or.inl (by rw [hbody]; rfl)) hchain hco (fun d hd => by rw [hb, if_neg hd])
      (length_resume hres).ge
  | ret =>
    obtain ⟨⟨co, cs, task, hr⟩, rfl⟩ := ServiceLua.step_spec.mp hs
    obtain ⟨hchain, hbody⟩ := jump_spec (fun _ => .storing) hr.chain
    exact .running hr (Or.inr hchain) (fun h => by rw [hbody, if_pos rfl, hr.body] at h; cases h)
      (fun d hd => by rw [hbody, if_neg hd]) (length_jump _)
  | push n =>
    obtain ⟨_, co, ⟨cs, hr⟩, rfl⟩ := ServiceLua.step_spec.mp hs
    obtain ⟨hchain, hbody⟩ := jump_spec (fun _ => .looping) hr.chain
    exact .running hr (Or.inr hchain) (fun h => by rw [hbody, if_pos rfl, hr.body] at h; cases h)
      (fun d hd => by rw [hbody, if_neg hd]) (length_jump _)
  | idle =>
    obtain ⟨⟨co, cs, hr⟩, rfl⟩ := ServiceLua.step_spec.mp hs
    obtain ⟨hchain, hbody⟩ := yield_spec (fun _ => .waiting) hr.chain
    exact .running hr (Or.inl hchain) (fun h => by rw [hbody, if_pos rfl, hr.body] at h; cases h)
      (fun d hd => by rw [hbody, if_neg hd]) (length_yield _)
  | raise =>
    obtain ⟨⟨co, cs, task, hr⟩, rfl⟩ := ServiceLua.step_spec.mp hs
    obtain ⟨hchain, hbody⟩ := die_spec hr.chain
    exact .running hr (Or.inl hchain) (fun _ => ⟨task, rfl⟩)
      (fun d hd => by rw [hbody, if_neg hd]) length_die
  | quit order =>
    obtain ⟨⟨_, horder⟩, rfl⟩ := ServiceLua.step_spec.mp hs
    obtain ⟨hspec, _⟩ := quit_spec horder
    exact .closes trivial hspec.chain (body_quit horder) (length_quitLoop ..)

namespace ServiceRunsLemmas

variable {s s' : ServiceLua τ} {e : ServiceLua.Event τ} {co : ℕ}

/-- A coroutine outside of the chain that is not resumed is left as it is, or closed. -/
theorem out_move (hmove : ThreadMove s s' e) (hlt : co < s.threads.bodies.length)
    (hout : co ∉ s.threads.chain) (hin : co ∉ s'.threads.chain) :
    co < s'.threads.bodies.length ∧
      (s'.threads.body co = s.threads.body co ∨ s'.threads.body co = none) := by
  cases hmove with
  | same heq =>
    rw [heq]
    exact ⟨hlt, Or.inl rfl⟩
  | @running c cs r hr _ _ hother hlen =>
    have hne : co ≠ c := fun hc => hout (hr.chain ▸ hc ▸ List.mem_cons_self)
    exact ⟨hlt.trans_eq hlen.symm, Or.inl (hother co hne)⟩
  | @enters c task _ _ hchain _ hother hlen =>
    have hne : co ≠ c := fun hc => hin (hchain ▸ hc ▸ List.mem_cons_self)
    exact ⟨hlt.trans_le hlen, Or.inl (hother co hne)⟩
  | closes _ _ hbody hlen => exact ⟨hlt.trans_eq hlen.symm, (hbody co).imp_right And.right⟩

/-- Only a coroutine that is alive or new comes into the chain. -/
theorem out_of_move (hmove : ThreadMove s s' e) (hlt : co < s.threads.bodies.length)
    (hout : co ∉ s.threads.chain) (hbody : s.threads.body co = none) : co ∉ s'.threads.chain := by
  cases hmove with
  | same heq => rwa [heq]
  | @running c cs r hr hchain _ _ _ =>
    intro hmem
    refine hout (hr.chain ▸ ?_)
    rcases hchain with hc | hc <;> rw [hc] at hmem
    · exact List.mem_cons_of_mem c hmem
    · exact hmem
  | @enters c task _ hnew hchain _ _ _ =>
    rw [hchain]
    refine List.not_mem_cons_of_ne_of_not_mem (fun hc => ?_) hout
    rcases hnew with halive | hnew
    · rw [← hc, hbody] at halive
      cases halive
    · exact absurd (hc.trans hnew) hlt.ne
  | closes _ hchain _ _ => rwa [hchain]

end ServiceRunsLemmas

/-- A dead coroutine stays dead. -/
theorem dead_step {s s' : ServiceLua τ} {e : ServiceLua.Event τ} {co : ℕ} (h : PoolKept s)
    (hs : s.step e = some s') (hco : s.Dead co) : s'.Dead co := by
  have hmove := threadMove_step h hs
  have hout := out_of_move hmove hco.created hco.out hco.body
  obtain ⟨hlt, hbody⟩ := out_move hmove hco.created hco.out hout
  exact ⟨hlt, hout, hbody.elim (fun heq => heq.trans hco.body) id⟩

/-! ## 2. The pool -/

namespace ServiceRunsLemmas

variable {s s' : ServiceLua τ} {e : ServiceLua.Event τ} {co : ℕ}

theorem resting_move (hmove : ThreadMove s s' e) (h : s.Resting co) (hin : co ∉ s'.threads.chain) :
    s'.Resting co := by
  obtain ⟨hlt, hbody⟩ := out_move hmove h.created h.out hin
  refine ⟨hlt, hin, fun r hr => ?_⟩
  rcases hbody with heq | hnone
  · exact h.body r (heq.symm.trans hr)
  · cases hnone.symm.trans hr

theorem resumers_move (hmove : ThreadMove s s' e) (h : PoolKept s) :
    ∀ co ∈ s'.threads.chain.tail, ∃ task, s'.threads.body co = some (.calling task) := by
  cases hmove with
  | same heq =>
    rw [heq]
    exact h.resumers
  | @running c cs r hr hchain _ hother _ =>
    have hnodup := s.threads.nodup
    rw [hr.chain] at hnodup
    intro d hd
    have hdcs : d ∈ cs := by
      rcases hchain with hc | hc <;> rw [hc] at hd
      · exact List.mem_of_mem_tail hd
      · exact hd
    have hne : d ≠ c := fun hdc => (List.nodup_cons.mp hnodup).1 (hdc ▸ hdcs)
    rw [hother d hne]
    exact h.resumers d (hr.chain ▸ hdcs)
  | @enters c task hin _ hchain _ hother _ =>
    have hnodup := s'.threads.nodup
    rw [hchain] at hnodup
    rw [hchain, List.tail_cons]
    intro d hd
    have hne : d ≠ c := fun hdc => (List.nodup_cons.mp hnodup).1 (hdc ▸ hd)
    rw [hother d hne]
    exact inTask_of_resumers h hin d hd
  | closes _ hchain hbody _ =>
    rw [hchain]
    intro d hd
    rw [(hbody d).resolve_right fun hout => hout.1 (List.mem_of_mem_tail hd)]
    exact h.resumers d hd

/-- The invariant survives where no pooled coroutine is resumed, and the one that has
just stored itself at most yields. -/
theorem poolKept_move (hmove : ThreadMove s s' e) (h : PoolKept s)
    (hsub : Sub s'.co_pool s.co_pool)
    (hout : ∀ n co, s'.co_pool.lookup n = some co → s.Resting co → co ∉ s'.threads.chain)
    (hlooping : ∀ co cs, s.Running co cs .looping →
      s'.Resting co ∨ ∃ cs, s'.Running co cs .looping) : PoolKept s' where
  pooled n co hn := by
    rcases h.pooled n co (hsub n co hn) with hrest | ⟨cs, hrun⟩
    · exact Or.inl (resting_move hmove hrest (hout n co hn hrest))
    · exact hlooping co cs hrun
  once := once_of_sub h.once hsub
  resumers := resumers_move hmove h

theorem sub_refl (t : Table ℕ) : Sub t t := fun _ _ h => h

/-- Where the running coroutine is not right before its yield, none is. -/
theorem not_looping {c d : ℕ} {cs ds : List ℕ} {r : Routine τ} (hr : s.Running c cs r)
    (hne : r ≠ .looping) : ¬ s.Running d ds .looping := by
  intro hrun
  cases hrun.chain.symm.trans hr.chain
  exact hne (Option.some.inj (hr.body.symm.trans hrun.body))

theorem not_looping_inScript {d : ℕ} {ds : List ℕ} (hs : s.InScript) :
    ¬ s.Running d ds .looping := by
  intro hrun
  have hin := hs d (by rw [hrun.chain]; rfl)
  rw [hrun.body] at hin
  cases hin

/-- The running coroutine goes on or leaves the chain, with the pool as it was. -/
theorem poolKept_running {cs : List ℕ} {r : Routine τ} {threads : World (Routine τ)}
    (h : PoolKept s) (hr : s.Running co cs r) (hmove : ThreadMove s { s with threads } e)
    (hchain : threads.chain = cs ∨ threads.chain = co :: cs)
    (hlooping : ∀ d ds, s.Running d ds .looping → ({ s with threads } : ServiceLua τ).Resting d) :
    PoolKept { s with threads } := by
  refine poolKept_move hmove h (sub_refl _) (fun n d _ hrest hmem => hrest.out ?_)
    fun d ds hrun => Or.inl (hlooping d ds hrun)
  rw [hr.chain]
  rcases hchain with hc | hc <;> rw [hc] at hmem
  · exact List.mem_cons_of_mem co hmem
  · exact hmem

/-- `invoke` stores its coroutine under a free index. -/
theorem poolKept_push {n : ℕ} {cs : List ℕ} (h : PoolKept s) (hr : s.Running co cs .storing) :
    PoolKept { s with
      co_pool := push s.co_pool n co, threads := s.threads.jump fun _ => .looping } := by
  obtain ⟨hchain, hbody⟩ := jump_spec (fun _ => .looping) hr.chain
  have hkept : PoolKept { s with threads := s.threads.jump fun _ => .looping } :=
    poolKept_running (e := .push n) h hr (.running hr (Or.inr hchain)
      (fun h => by rw [hbody, if_pos rfl, hr.body] at h; cases h)
      (fun d hd => by rw [hbody, if_neg hd]) (length_jump _)) (Or.inr hchain) fun _ _ hrun => absurd hrun (not_looping hr nofun)
  have hfree : ∀ m, s.co_pool.lookup m ≠ some co := by
    intro m hm
    rcases h.pooled m co hm with hrest | ⟨ds, hrun⟩
    · exact hrest.out (hr.chain ▸ List.mem_cons_self)
    · exact not_looping hr nofun hrun
  refine ⟨fun m d hd => ?_, once_push h.once hfree, hkept.resumers⟩
  rcases lookup_push.mp hd with ⟨_, rfl⟩ | ⟨_, hd⟩
  · exact Or.inr ⟨cs, hchain, by simp only [hbody, if_true, hr.body, Option.map_some]⟩
  · exact (hkept.pooled m d hd).imp (fun hrest => ⟨hrest.created, hrest.out, hrest.body⟩)
      fun ⟨ds, hrun⟩ => ⟨ds, hrun.chain, hrun.body⟩

end ServiceRunsLemmas

/-- Every event, `quit` included, keeps the invariant. -/
theorem poolKept_step {s s' : ServiceLua τ} {e : ServiceLua.Event τ} (h : PoolKept s)
    (hs : s.step e = some s') : PoolKept s' := by
  have hmove := threadMove_step h hs
  cases e with
  | async n task =>
    obtain ⟨⟨hin, _⟩, rfl⟩ := ServiceLua.step_spec.mp hs
    rcases async_cases h hin n task with ⟨co, _, _, heq⟩ | ⟨s', co, heq, hstart, hco⟩
    · rw [heq] at hmove ⊢
      exact poolKept_move hmove h (sub_erase _ n) (fun _ _ _ hrest => hrest.out)
        fun _ _ hrun => absurd hrun (not_looping_inScript hin)
    · rw [heq] at hmove ⊢
      refine poolKept_move hmove h (hstart.pool ▸ sub_erase _ n) (fun m d hd hrest => ?_)
        fun _ _ hrun => absurd hrun (not_looping_inScript hin)
      rw [hstart.chain]
      rw [hstart.pool] at hd
      refine List.not_mem_cons_of_ne_of_not_mem ?_ hrest.out
      rintro rfl
      rcases hstart.chosen with hn | ⟨_, hnew⟩
      · exact once_erase h.once hn m hd
      · exact absurd hrest.created hnew.not_lt
  | make_session | new_service =>
    obtain ⟨_, rfl⟩ := ServiceLua.step_spec.mp hs
    exact poolKept_move hmove h (sub_refl _) (fun _ _ _ hrest => hrest.out)
      fun _ cs hrun => Or.inr ⟨cs, hrun.chain, hrun.body⟩
  | collect slots =>
    obtain ⟨_, rfl⟩ := ServiceLua.step_spec.mp hs
    exact poolKept_move hmove h (sub_collect _ slots) (fun _ _ _ hrest => hrest.out)
      fun _ cs hrun => Or.inr ⟨cs, hrun.chain, hrun.body⟩
  | yield =>
    obtain ⟨⟨co, cs, task, hr⟩, rfl⟩ := ServiceLua.step_spec.mp hs
    exact poolKept_running h hr hmove (Or.inl (yield_spec id hr.chain).1) fun _ _ hrun =>
      absurd hrun (not_looping hr nofun)
  | wake co =>
    obtain ⟨hin, ⟨task, hbody⟩, threads, hres, rfl⟩ := ServiceLua.step_spec.mp hs
    obtain ⟨_, hchain, _⟩ := Coroutines.resume_spec hres
    refine poolKept_move hmove h (sub_refl _) (fun n d _ hrest => ?_) fun _ _ hrun =>
      absurd hrun (not_looping_inScript hin)
    rw [hchain]
    refine List.not_mem_cons_of_ne_of_not_mem ?_ hrest.out
    rintro rfl
    cases hrest.body _ hbody
  | ret =>
    obtain ⟨⟨co, cs, task, hr⟩, rfl⟩ := ServiceLua.step_spec.mp hs
    exact poolKept_running h hr hmove (Or.inr (jump_spec _ hr.chain).1) fun _ _ hrun =>
      absurd hrun (not_looping hr nofun)
  | push n =>
    obtain ⟨_, co, ⟨cs, hr⟩, rfl⟩ := ServiceLua.step_spec.mp hs
    exact poolKept_push h hr
  | idle =>
    obtain ⟨⟨co, cs, hr⟩, rfl⟩ := ServiceLua.step_spec.mp hs
    obtain ⟨hchain, hbody⟩ := yield_spec (fun _ => .waiting) hr.chain
    refine poolKept_running h hr hmove (Or.inl hchain) fun d ds hrun => ?_
    cases hrun.chain.symm.trans hr.chain
    have hnodup := s.threads.nodup
    rw [hr.chain] at hnodup
    refine ⟨(lt_of_body hr.body).trans_eq (length_yield _).symm, ?_, fun r hr' => ?_⟩
    · rw [hchain]
      exact (List.nodup_cons.mp hnodup).1
    · rw [hbody, if_pos rfl, hr.body] at hr'
      exact (Option.some.inj hr').symm
  | raise =>
    obtain ⟨⟨co, cs, task, hr⟩, rfl⟩ := ServiceLua.step_spec.mp hs
    exact poolKept_running h hr hmove (Or.inl (die_spec hr.chain).1) fun _ _ hrun =>
      absurd hrun (not_looping hr nofun)
  | quit order =>
    obtain ⟨⟨hin, horder⟩, rfl⟩ := ServiceLua.step_spec.mp hs
    obtain ⟨hspec, _⟩ := quit_spec horder
    refine poolKept_move hmove h (hspec.pool ▸ sub_refl _) (fun _ _ _ hrest => ?_) fun _ _ hrun =>
      absurd hrun (not_looping_inScript hin)
    rw [hspec.chain]
    exact hrest.out

theorem poolKept_init : PoolKept (ServiceLua.init : ServiceLua τ) where
  pooled _ _ h := nomatch h
  once _ _ _ h := nomatch h
  resumers _ h := nomatch h

/-! ## 3. The tasks -/

namespace ServiceRunsLemmas

variable {s s' : ServiceLua τ} {e : ServiceLua.Event τ} {co : ℕ} {log : List (PoolRecord τ)}

theorem poolRecords_dead {n : ℕ} {task : τ} (hn : s.co_pool.lookup n = some co)
    (heq : s.async n task = ({ s with co_pool := s.co_pool.erase n }, [])) :
    s.poolRecords (.async n task) = [.lost co task] := by
  simp only [ServiceLua.poolRecords, heq, hn, Option.toList_some, List.map_cons, List.map_nil]

theorem poolRecords_started {n : ℕ} {task : τ} (heq : s.async n task = (s', [(co, task)])) :
    s.poolRecords (.async n task) = [.started co task] := by
  simp only [ServiceLua.poolRecords, heq]

/-- What `quit` records: the pooled coroutines that it kills. -/
theorem mem_poolRecords_quit {order : List Int64} {n : ℕ} {r : Routine τ}
    (hn : s.co_pool.lookup n = some co) (hbefore : s.threads.body co = some r)
    (hafter : (s.quit order).1.threads.body co = none) :
    .killed co ∈ s.poolRecords (.quit order) := by
  have hkey : n ∈ s.co_pool.keys := AList.mem_keys.mp (AList.lookup_isSome.mp (by rw [hn]; rfl))
  refine List.mem_map.mpr ⟨co, List.mem_filter.mpr ⟨?_, by rw [hbefore, hafter]; rfl⟩, rfl⟩
  exact List.mem_filterMap.mpr ⟨n, hkey, hn⟩

/-- An event records the task it gives to `server.async`. -/
theorem tasks_poolRecords (h : PoolKept s) (hs : s.step e = some s') :
    (s.poolRecords e).filterMap PoolRecord.task? = e.tasks := by
  cases e with
  | async n task =>
    obtain ⟨⟨hin, _⟩, _⟩ := ServiceLua.step_spec.mp hs
    rcases async_cases h hin n task with ⟨co, hn, _, heq⟩ | ⟨t, co, heq, _, _⟩
    · rw [poolRecords_dead hn heq]
      rfl
    · rw [poolRecords_started heq]
      rfl
  | quit order =>
    refine List.filterMap_eq_nil_iff.mpr fun x hx => ?_
    obtain ⟨co, _, rfl⟩ := List.mem_map.mp hx
    rfl
  | make_session | new_service | yield | wake co | ret | push n | idle | raise | collect slots =>
    rfl

theorem lostOn_quit (order : List Int64) : lostOn (s.poolRecords (.quit order)) = [] := by
  refine List.filterMap_eq_nil_iff.mpr fun x hx => ?_
  obtain ⟨co, _, rfl⟩ := List.mem_map.mp hx
  rfl

theorem lostOn_append (log log' : List (PoolRecord τ)) :
    lostOn (log ++ log') = lostOn log ++ lostOn log' := List.filterMap_append

/-- Only `quit` kills a coroutine that rests. -/
theorem dead_of_move (he : ¬ e.IsQuit) (h : PoolKept s)
    (hs : s.step e = some s') (hrest : s.Resting co) (hdead : s'.Dead co) : s.Dead co := by
  refine ⟨hrest.created, hrest.out, ?_⟩
  have hkeep : s'.threads.body co = s.threads.body co → s.threads.body co = none :=
    fun heq => heq.symm.trans hdead.body
  cases threadMove_step h hs with
  | same heq => exact hkeep (by rw [heq])
  | @running c cs r hr _ _ hother _ =>
    exact hkeep (hother co fun hc => hrest.out (hr.chain ▸ hc ▸ List.mem_cons_self))
  | @enters c task _ _ hchain _ hother _ =>
    exact hkeep (hother co fun hc => hdead.out (hchain ▸ hc ▸ List.mem_cons_self))
  | closes hquit _ _ _ => exact absurd hquit he

/-- A dead coroutine comes into the pool only by `quit`. -/
theorem dead_pooled (he : ¬ e.IsQuit) (h : PoolKept s) (hs : s.step e = some s') {n : ℕ}
    (hn : s.co_pool.lookup n = some co) (hdead : s'.Dead co) : s.Dead co := by
  rcases h.pooled n co hn with hrest | ⟨cs, hrun⟩
  · exact dead_of_move he h hs hrest hdead
  · have hmem : co ∈ s.threads.chain := hrun.chain ▸ List.mem_cons_self
    exfalso
    cases threadMove_step h hs with
    | same heq => exact hdead.out (heq ▸ hmem)
    | @running c ds r hr _ hends _ _ =>
      cases hr.chain.symm.trans hrun.chain
      obtain ⟨task, rfl⟩ := hends hdead.body
      cases hr.body.symm.trans hrun.body
    | enters hin => exact not_looping_inScript hin hrun
    | closes hquit => exact he hquit

/-- What is in the pool after an event was there before, unless `invoke` has just put
it there. -/
theorem pool_step (h : PoolKept s) (hs : s.step e = some s') {n : ℕ}
    (hn : s'.co_pool.lookup n = some co) :
    s.co_pool.lookup n = some co ∨ co ∈ s.threads.chain ∧ co ∈ s'.threads.chain := by
  cases e with
  | async m task =>
    obtain ⟨⟨hin, _⟩, rfl⟩ := ServiceLua.step_spec.mp hs
    rcases async_cases h hin m task with ⟨c, _, _, heq⟩ | ⟨t, c, heq, hstart, _⟩
    · rw [heq] at hn
      exact Or.inl (sub_erase _ m n co hn)
    · rw [heq] at hn
      simp only [hstart.pool] at hn
      exact Or.inl (sub_erase _ m n co hn)
  | push m =>
    obtain ⟨_, c, ⟨cs, hr⟩, rfl⟩ := ServiceLua.step_spec.mp hs
    rcases lookup_push.mp hn with ⟨_, rfl⟩ | ⟨_, hn⟩
    · have hchain := (jump_spec (fun _ => .looping) hr.chain).1
      refine Or.inr ⟨hr.chain ▸ List.mem_cons_self, ?_⟩
      simp only [hchain]
      exact List.mem_cons_self
    · exact Or.inl hn
  | collect slots =>
    obtain ⟨_, rfl⟩ := ServiceLua.step_spec.mp hs
    exact Or.inl (sub_collect _ slots n co hn)
  | quit order =>
    obtain ⟨⟨_, horder⟩, rfl⟩ := ServiceLua.step_spec.mp hs
    rw [(quit_spec horder).1.pool] at hn
    exact Or.inl hn
  | make_session | new_service | yield | ret | idle | raise =>
    obtain ⟨_, rfl⟩ := ServiceLua.step_spec.mp hs
    exact Or.inl hn
  | wake c =>
    obtain ⟨_, _, _, _, rfl⟩ := ServiceLua.step_spec.mp hs
    exact Or.inl hn

end ServiceRunsLemmas

theorem lostInv_step {s s' : ServiceLua τ} {e : ServiceLua.Event τ} {log : List (PoolRecord τ)}
    (h : LostInv s log) (hs : s.step e = some s') : LostInv s' (log ++ s.poolRecords e) := by
  have hgone : ∀ co ∈ lostOn log, s'.Dead co ∧ ∀ n, s'.co_pool.lookup n ≠ some co := by
    intro co hco
    obtain ⟨hdead, hno⟩ := h.gone co hco
    have hdead' := dead_step h.kept hs hdead
    refine ⟨hdead', fun n hn => ?_⟩
    rcases pool_step h.kept hs hn with hold | ⟨hmem, _⟩
    · exact hno n hold
    · exact hdead.out hmem
  have hkept := poolKept_step h.kept hs
  -- nothing is lost, and nothing but `quit` kills in the pool
  have hquiet : lostOn (s.poolRecords e) = [] → (∀ n co, s'.co_pool.lookup n = some co →
      s.co_pool.lookup n = some co → s'.Dead co → s.Dead co ∨ .killed co ∈ s.poolRecords e) →
      LostInv s' (log ++ s.poolRecords e) := by
    intro hnil hkilled
    have hlog : lostOn (log ++ s.poolRecords e) = lostOn log := by
      rw [lostOn_append, hnil, List.append_nil]
    refine ⟨hkept, hlog ▸ h.once, hlog ▸ hgone, fun n co hn hdead => ?_, fun co hco => ?_⟩
    · rcases pool_step h.kept hs hn with hold | ⟨_, hmem⟩
      · rcases hkilled n co hn hold hdead with hdead | hnew
        · exact List.mem_append_left _ (h.pooled n co hold hdead)
        · exact List.mem_append_right _ hnew
      · exact absurd hmem hdead.out
    · exact List.mem_append_left _ (h.killed co (hlog ▸ hco))
  have hold : ¬ e.IsQuit → ∀ n co, s'.co_pool.lookup n = some co →
      s.co_pool.lookup n = some co → s'.Dead co → s.Dead co ∨ .killed co ∈ s.poolRecords e :=
    fun he n co _ hn hdead => Or.inl (dead_pooled he h.kept hs hn hdead)
  cases e with
  | async n task =>
    obtain ⟨⟨hin, _⟩, hs'⟩ := ServiceLua.step_spec.mp hs
    rcases async_cases h.kept hin n task with ⟨co, hn, hdead, heq⟩ | ⟨t, co, heq, _, _⟩
    · have hpool : ∀ m d, s'.co_pool.lookup m = some d → (s.co_pool.erase n).lookup m = some d := by
        intro m d hd
        rwa [hs', heq] at hd
      have hlog : lostOn (log ++ s.poolRecords (.async n task)) = lostOn log ++ [co] := by
        rw [lostOn_append, poolRecords_dead hn heq]
        rfl
      refine ⟨hkept, ?_, fun d hd => ?_, fun m d hd hdead' => ?_, fun d hd => ?_⟩
      · rw [hlog]
        exact List.nodup_append.mpr ⟨h.once, List.nodup_singleton co, fun d hd d' hd' hdd => by
          rw [List.mem_singleton.mp hd'] at hdd
          exact (h.gone d hd).2 n (hdd ▸ hn)⟩
      · rw [hlog] at hd
        rcases List.mem_append.mp hd with hd | hd
        · exact hgone d hd
        · rw [List.mem_singleton.mp hd]
          exact ⟨dead_step h.kept hs hdead, fun m hm => once_erase h.kept.once hn m (hpool m co hm)⟩
      · have hd' := sub_erase _ n m d (hpool m d hd)
        exact List.mem_append_left _ (h.pooled m d hd' (dead_pooled id h.kept hs hd' hdead'))
      · rw [hlog] at hd
        rcases List.mem_append.mp hd with hd | hd
        · exact List.mem_append_left _ (h.killed d hd)
        · rw [List.mem_singleton.mp hd]
          exact List.mem_append_left _ (h.pooled n co hn hdead)
    · exact hquiet (by rw [poolRecords_started heq]; rfl) (hold id)
  | quit order =>
    obtain ⟨⟨hin, _⟩, hs'⟩ := ServiceLua.step_spec.mp hs
    refine hquiet (lostOn_quit order) fun n co _ hn hdead => ?_
    have hrest := resting_inScript h.kept hin hn
    cases hbody : s.threads.body co with
    | none => exact Or.inl ⟨hrest.created, hrest.out, hbody⟩
    | some r => exact Or.inr (mem_poolRecords_quit hn hbody (hs' ▸ hdead.body))
  | make_session | new_service | yield | wake co | ret | push n | idle | raise | collect slots =>
    exact hquiet rfl (hold id)

theorem lostInv_init : LostInv (ServiceLua.init : ServiceLua τ) [] where
  kept := poolKept_init
  once := List.nodup_nil
  gone _ h := nomatch h
  pooled _ _ h := nomatch h
  killed _ h := nomatch h

/-- In every run, calls of `quit` included, returning or raising: where
`server.async` may be called, the pool holds idle and dead coroutines only, each
once; every task given to it is started once, on an idle or new coroutine, or it
is lost; and each that is lost is lost on a coroutine of its own, which `quit` has
closed in the pool before. -/
theorem pool_in_every_run {es : List (ServiceLua.Event τ)} {s : ServiceLua τ}
    (hrun : run ServiceLua.step ServiceLua.init es = some s) :
    (s.InScript → ∀ n co, s.co_pool.lookup n = some co → s.Idle co ∨ s.Dead co) ∧
    (∀ n m co, s.co_pool.lookup n = some co → s.co_pool.lookup m = some co → n = m) ∧
    (s.InScript → ∀ n task co, .started co task ∈ s.poolRecords (.async n task) →
      s.Idle co ∨ co = s.threads.bodies.length) ∧
    let log := observe ServiceLua.step ServiceLua.poolRecords ServiceLua.init es
    log.filterMap PoolRecord.task? = es.flatMap ServiceLua.Event.tasks ∧
      (lostOn log).Nodup ∧ ∀ co ∈ lostOn log, .killed co ∈ log := by
  have hinv := run_observes (fun _ _ _ _ h hs => lostInv_step h hs) lostInv_init hrun
  refine ⟨fun hin n co hn => resting_iff.mp (resting_inScript hinv.kept hin hn), hinv.kept.once,
    fun hin n task co hco => ?_, ?_, hinv.once, hinv.killed⟩
  · rcases async_cases hinv.kept hin n task with ⟨d, hn, _, heq⟩ | ⟨s', d, heq, _, hd⟩
    · rw [poolRecords_dead hn heq] at hco
      cases List.mem_singleton.mp hco
    · rw [poolRecords_started heq] at hco
      cases List.mem_singleton.mp hco
      exact hd
  · refine observe_filterMap (I := PoolKept) (G := fun _ _ => True) (fun _ _ _ h _ hs => ?_)
      (fun _ _ _ h _ hs => ?_) poolKept_init (meets_of_forall (fun _ _ => trivial) _ es) hrun
    · exact poolKept_step h hs
    · exact tasks_poolRecords h hs

theorem pool_in_every_run_lost :
    ∃ s, run ServiceLua.step ServiceLua.init (recordedRun ++ [.async 1 2]) = some s ∧
      .killed 0 ∈ observe ServiceLua.step ServiceLua.poolRecords ServiceLua.init
        (recordedRun ++ [.async 1 2]) := by
  obtain ⟨s, hrun, hlost⟩ : ∃ s,
      run ServiceLua.step ServiceLua.init (recordedRun ++ [.async 1 2]) = some s ∧
        0 ∈ lostOn (observe ServiceLua.step ServiceLua.poolRecords ServiceLua.init
          (recordedRun ++ [.async 1 2])) := ⟨_, rfl, by decide⟩
  exact ⟨s, hrun, (pool_in_every_run hrun).2.2.2.2.2 0 hlost⟩

/-! ## 4. The sessions -/

namespace ServiceRunsLemmas

variable {s s' : ServiceLua τ} {e : ServiceLua.Event τ} {log : List Thread}

theorem sessionid_inj {i j : ℕ} (hi : i + 1 < 2 ^ 64) (hj : j + 1 < 2 ^ 64)
    (h : sessionid i = sessionid j) : i = j := by
  have hnat := congrArg (fun x : Int64 => x.toUInt64.toNat) h
  simp only [sessionid, Int64.toUInt64_ofNat', UInt64.toNat_ofNat'] at hnat
  rw [Nat.mod_eq_of_lt hi, Nat.mod_eq_of_lt hj] at hnat
  exact Nat.succ.inj hnat

theorem length_move (hmove : ThreadMove s s' e) :
    s.threads.bodies.length ≤ s'.threads.bodies.length := by
  cases hmove with
  | same heq => rw [heq]
  | running _ _ _ _ hlen | closes _ _ _ hlen => exact hlen.ge
  | enters _ _ _ _ _ hlen => exact hlen

/-- The current coroutine was created. -/
theorem current_created {co : ℕ} (h : s.threads.current = .co co) :
    co < s.threads.bodies.length := by
  unfold World.current at h
  split at h
  · cases h
  · next c cs hchain =>
    cases h
    have halive := s.threads.alive co (hchain ▸ List.mem_cons_self)
    obtain ⟨b, hb⟩ := Option.isSome_iff_exists.mp halive
    exact lt_of_body hb

/-- An event that neither makes a session nor closes one. -/
theorem sessionInv_kept (h : SessionInv s log) (hkept : PoolKept s) (hs : s.step e = some s')
    (huid : s'.uid = s.uid) (hsessions : s'.sessionid_coroutine = s.sessionid_coroutine) :
    SessionInv s' log where
  uid := huid.trans h.uid
  keys := hsessions ▸ h.keys
  created co hco := (h.created co hco).trans_le (length_move (threadMove_step hkept hs))
  entries i t ht := by
    rw [hsessions]
    exact (h.entries i t ht).imp_right fun ⟨hnone, co, hco, hdead⟩ =>
      ⟨hnone, co, hco, dead_step hkept hs hdead⟩

theorem sessionid_fresh (h : SessionInv s log) (hlen : log.length + 1 < 2 ^ 64) :
    s.sessionid_coroutine.lookup (s.uid + 1) = none := by
  rw [AList.lookup_eq_none, h.keys]
  rintro ⟨i, hi, heq⟩
  have hid : s.uid + 1 = sessionid log.length := by
    rw [h.uid, sessionid, Int64.ofNat_add]
    rfl
  exact hi.ne' (sessionid_inj hlen ((Nat.succ_lt_succ hi).trans hlen) (hid.symm.trans heq))

theorem sessionInv_make (h : SessionInv s log) (hlen : log.length + 1 < 2 ^ 64) :
    SessionInv s.make_session (log ++ [s.threads.current]) := by
  have hid : s.uid + 1 = sessionid log.length := by
    rw [h.uid, sessionid, Int64.ofNat_add]
    rfl
  refine ⟨?_, fun k => ?_, fun co hco => ?_, fun i t ht => ?_⟩
  · rw [List.length_append]
    exact hid
  · rw [ServiceLua.make_session, AList.mem_insert, h.keys, List.length_append,
      List.length_singleton, hid]
    constructor
    · rintro (rfl | ⟨i, hi, rfl⟩)
      · exact ⟨log.length, Nat.lt_succ_self _, rfl⟩
      · exact ⟨i, Nat.lt_succ_of_lt hi, rfl⟩
    · rintro ⟨i, hi, rfl⟩
      rcases Nat.lt_succ_iff_lt_or_eq.mp hi with hlt | rfl
      · exact Or.inr ⟨i, hlt, rfl⟩
      · exact Or.inl rfl
  · rcases List.mem_append.mp hco with hco | hco
    · exact h.created co hco
    · exact current_created (List.mem_singleton.mp hco).symm
  · rw [ServiceLua.make_session, hid]
    rcases Nat.lt_trichotomy i log.length with hlt | rfl | hgt
    · rw [List.getElem?_append_left hlt] at ht
      have hne : sessionid i ≠ sessionid log.length := fun heq =>
        hlt.ne (sessionid_inj ((Nat.succ_lt_succ hlt).trans hlen) hlen heq)
      rw [AList.lookup_insert_ne hne]
      exact (h.entries i t ht).imp_right fun ⟨hnone, co, hco, hdead⟩ =>
        ⟨hnone, co, hco, hdead.created, hdead.out, hdead.body⟩
    · rw [List.getElem?_concat_length] at ht
      cases ht
      exact Or.inl (AList.lookup_insert _)
    · rw [List.getElem?_eq_none (by rw [List.length_append]; exact hgt)] at ht
      cases ht

/-- `quit` puts `false` where it closes the maker. -/
theorem sessionInv_quit {order : List Int64} (h : SessionInv s log) (hkept : PoolKept s)
    (hs : s.step (.quit order) = some s') : SessionInv s' log := by
  have hdead : ∀ co, s.Dead co → s'.Dead co := fun co => dead_step hkept hs
  have hlen := length_move (threadMove_step hkept hs)
  obtain ⟨⟨_, horder⟩, rfl⟩ := ServiceLua.step_spec.mp hs
  obtain ⟨hspec, _⟩ := quit_spec horder
  -- an entry is closed, or left as it was
  have hentry : ∀ k, (∃ co, s.Closes k co ∧
      (s.quit order).1.sessionid_coroutine.lookup k = some none ∧
        (s.quit order).1.threads.body co = none) ∨
      (s.quit order).1.sessionid_coroutine.lookup k = s.sessionid_coroutine.lookup k := by
    intro k
    by_cases hk : ∃ co, k ∈ s.visited order ∧ s.Closes k co
    · obtain ⟨co, hmem, hcl⟩ := hk
      exact Or.inl ⟨co, hcl, hspec.closed k hmem co hcl, hspec.killed k hmem co hcl⟩
    · exact Or.inr (hspec.kept k fun hmem co hcl => hk ⟨co, hmem, hcl⟩)
  refine ⟨(uid_quitLoop ..).trans h.uid, fun k => ?_,
    fun co hco => (h.created co hco).trans_le hlen, fun i t ht => ?_⟩
  · rw [← h.keys k, ← AList.lookup_isSome, ← AList.lookup_isSome]
    rcases hentry k with ⟨co, hcl, hnone, _⟩ | heq
    · rw [hnone, hcl.1]
      exact Iff.rfl
    · rw [heq]
  · rcases hentry (sessionid i) with ⟨co, hcl, hnone, hbody⟩ | heq
    · have ht' : t = .co co := by
        rcases h.entries i t ht with hmade | ⟨hnone', _⟩
        · cases hmade.symm.trans hcl.1
          rfl
        · cases hnone'.symm.trans hcl.1
      refine Or.inr ⟨hnone, co, ht', ?_, hspec.chain ▸ hcl.2, hbody⟩
      exact (h.created co (ht' ▸ List.mem_of_getElem? ht)).trans_le hlen
    · rw [heq]
      exact (h.entries i t ht).imp_right fun ⟨hnone, co, hco, hd⟩ => ⟨hnone, co, hco, hdead co hd⟩

end ServiceRunsLemmas

theorem sessionInv_step {s s' : ServiceLua τ} {e : ServiceLua.Event τ} {log : List Thread}
    (h : SessionInv s log) (hkept : PoolKept s) (hs : s.step e = some s')
    (hlen : (log ++ s.makers e).length < 2 ^ 64) : SessionInv s' (log ++ s.makers e) := by
  have hnil : SessionInv s' log → SessionInv s' (log ++ []) := fun h => by rwa [List.append_nil]
  cases e with
  | make_session | new_service =>
    obtain ⟨_, rfl⟩ := ServiceLua.step_spec.mp hs
    rw [List.length_append] at hlen
    exact sessionInv_make h hlen
  | quit order => exact hnil (sessionInv_quit h hkept hs)
  | async n task =>
    obtain ⟨⟨hin, _⟩, hs'⟩ := ServiceLua.step_spec.mp hs
    rcases async_cases hkept hin n task with ⟨co, _, _, heq⟩ | ⟨t, co, heq, hstart, _⟩
    · rw [heq] at hs'
      exact hnil (sessionInv_kept h hkept hs (by rw [hs']) (by rw [hs']))
    · rw [heq] at hs'
      exact hnil (sessionInv_kept h hkept hs (hs' ▸ hstart.uid) (hs' ▸ hstart.sessions))
  | yield | ret | idle | raise | collect slots =>
    have hs' := (ServiceLua.step_spec.mp hs).2
    exact hnil (sessionInv_kept h hkept hs (by rw [hs']) (by rw [hs']))
  | push n =>
    obtain ⟨_, co, _, hs'⟩ := ServiceLua.step_spec.mp hs
    exact hnil (sessionInv_kept h hkept hs (by rw [hs']) (by rw [hs']))
  | wake co =>
    obtain ⟨_, _, threads, _, hs'⟩ := ServiceLua.step_spec.mp hs
    exact hnil (sessionInv_kept h hkept hs (by rw [hs']) (by rw [hs']))

theorem sessionInv_init : SessionInv (ServiceLua.init : ServiceLua τ) [] where
  uid := rfl
  keys k := iff_of_false (AList.notMem_empty k) fun ⟨i, hi, _⟩ => Nat.not_lt_zero i hi
  created _ h := nomatch h
  entries _ _ h := nomatch h

/-- In every run with fewer than `2 ^ 64` calls of `make_session` and `new_service`,
calls of `quit` included: the `n`-th returns `n` as a wrapped 64-bit integer, which is
`n` below `2 ^ 63`; no entry is ever overwritten, so "sessionid is used!" is not
printed; and the table holds, for each session, the thread that made it, or `false`,
and then that thread is a dead coroutine. -/
theorem sessions_in_every_run {es : List (ServiceLua.Event τ)} {s : ServiceLua τ}
    (hrun : run ServiceLua.step ServiceLua.init es = some s)
    (hlen : (observe ServiceLua.step ServiceLua.makers ServiceLua.init es).length + 1 < 2 ^ 64) :
    let log := observe ServiceLua.step ServiceLua.makers ServiceLua.init es
    s.make_session.uid = sessionid log.length ∧
      (log.length + 1 < 2 ^ 63 → s.make_session.uid.toInt = log.length + 1) ∧
      s.sessionid_coroutine.lookup s.make_session.uid = none ∧
      (∀ k, k ∈ s.sessionid_coroutine ↔ ∃ i < log.length, k = sessionid i) ∧
      ∀ i t, log[i]? = some t →
        s.sessionid_coroutine.lookup (sessionid i) = some (some t) ∨
          s.sessionid_coroutine.lookup (sessionid i) = some none ∧
            ∃ co, t = .co co ∧ s.Dead co := by
  intro log
  have hinv : PoolKept s ∧ (log.length < 2 ^ 64 → SessionInv s log) := by
    refine run_observes (R := fun t l => PoolKept t ∧ (l.length < 2 ^ 64 → SessionInv t l))
      (fun t l e t' ⟨hkept, h⟩ ht => ⟨poolKept_step hkept ht, fun hl => ?_⟩)
      ⟨poolKept_init, fun _ => sessionInv_init⟩ hrun
    rw [List.length_append] at hl
    exact sessionInv_step (h (Nat.lt_of_le_of_lt (Nat.le_add_right ..) hl)) hkept ht
      (List.length_append ▸ hl)
  have h := hinv.2 (Nat.lt_of_succ_lt hlen)
  have huid : s.make_session.uid = sessionid log.length := by
    rw [ServiceLua.make_session, h.uid, sessionid, Int64.ofNat_add]
    rfl
  refine ⟨huid, fun hsmall => ?_, sessionid_fresh h hlen, h.keys, h.entries⟩
  rw [huid, sessionid, Int64.toInt_ofNat_of_lt hsmall]
  rfl

theorem sessions_in_every_run_closed :
    ∃ s, run ServiceLua.step ServiceLua.init recordedRun = some s ∧
      s.sessionid_coroutine.lookup 1 = some none ∧
      s.sessionid_coroutine.lookup s.make_session.uid = none := by
  obtain ⟨s, hrun, hclosed⟩ : ∃ s, run ServiceLua.step ServiceLua.init recordedRun = some s ∧
      s.sessionid_coroutine.lookup 1 = some none := ⟨_, rfl, rfl⟩
  exact ⟨s, hrun, hclosed, (sessions_in_every_run hrun (by decide)).2.2.1⟩

end LuaRobot
