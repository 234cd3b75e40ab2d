import LuaRobot.CoroutinePool

/-!
# The pool against a coroutine for every task

`co_pool` (`lua_scripts/service.lua`) only saves coroutines. Here is the service
without it, where `server.async` creates a coroutine for its task and the coroutine
ends with the task, and both services do the same with their tasks, up to the names
of the coroutines, while nobody calls `server.quit`. A script that kept a coroutine
could tell them apart once its task has ended, as it is suspended in the pool here and
dead there; no event resumes it or asks for its status.

Results:
1. `pairs_start`, `pairs_wake`, `pairs_yield`, `pairs_end`: services that are alike
   stay alike.
2. `move_service`, `service_follows`: with the pool, the events of `service.lua` are
   the moves of its tasks.
3. `move_plain`, `plain_follows`: so they are without it.
4. `pool_unobservable`: every run of one has its like among the runs of the other.
-/

namespace LuaRobot

open Runs SparseTable Coroutines ServiceLuaLemmas CoroutinePoolLemmas

/-! ## Definitions -/

variable {τ : Type}

/-- The service without a pool. -/
structure PlainLua (τ : Type) where
  uid : Int64
  threads : World τ

def PlainLua.init : PlainLua τ where
  uid := 0
  threads := ⟨[], [], fun _ h => absurd h List.not_mem_nil, List.nodup_nil⟩

inductive PlainLua.Event (τ : Type) where
  /-- `coroutine.resume(coroutine.create(task))` -/
  | async (task : τ)
  | make_session
  | new_service
  | yield
  | wake (co : ℕ)
  | ret
  | raise

/-- A task that returns or raises ends its coroutine. -/
def PlainLua.step (p : PlainLua τ) : PlainLua.Event τ → Option (PlainLua τ)
  | .async task =>
    ((p.threads.create task).resume p.threads.bodies.length id).map fun threads =>
      { p with threads }
  | .make_session | .new_service => some { p with uid := p.uid + 1 }
  | .yield => p.threads.chain.head?.map fun _ => { p with threads := p.threads.yield id }
  | .wake co => (p.threads.resume co id).map fun threads => { p with threads }
  | .ret | .raise => p.threads.chain.head?.map fun _ => { p with threads := p.threads.die }

/-- What is seen of a service. -/
inductive TaskEvent (τ : Type) where
  | given (task : τ)
  | started (task : τ)
  | session (uid : Int64)
  | yielded (task : τ)
  | woken (task : τ)
  | returned (task : τ)
  | raised (task : τ)
deriving DecidableEq

/-- The tasks of a service: those that are active, the running one first, by their
coroutines, and the task of each coroutine. -/
@[ext] structure Tasks (τ : Type) where
  uid : Int64
  chain : List ℕ
  task : ℕ → Option τ
  nodup : chain.Nodup
  inTask : ∀ co ∈ chain, (task co).isSome = true

def Tasks.running? (v : Tasks τ) : Option τ := v.chain.head?.bind v.task

def Routine.task? : Routine τ → Option τ
  | .calling task => some task
  | .created | .storing | .looping | .waiting => none

def ServiceLua.task (s : ServiceLua τ) (co : ℕ) : Option τ :=
  (s.threads.body co).bind Routine.task?

def ServiceLua.tasks (s : ServiceLua τ) : Tasks τ where
  uid := s.uid
  chain := s.threads.chain.filter fun co => (s.task co).isSome
  task := s.task
  nodup := s.threads.nodup.filter _
  inTask _ h := (List.mem_filter.mp h).2

def PlainLua.tasks (p : PlainLua τ) : Tasks τ where
  uid := p.uid
  chain := p.threads.chain
  task := p.threads.body
  nodup := p.threads.nodup
  inTask := p.threads.alive

def ServiceLua.taskEvents (s : ServiceLua τ) : ServiceLua.Event τ → List (TaskEvent τ)
  | .async n task => .given task :: (s.async n task).2.map fun x => .started x.2
  | .make_session => [.session s.make_session.uid]
  | .new_service => [.session s.new_service.uid]
  | .yield => s.tasks.running?.toList.map .yielded
  | .wake co => (s.task co).toList.map .woken
  | .ret => s.tasks.running?.toList.map .returned
  | .raise => s.tasks.running?.toList.map .raised
  | .push _ | .idle | .collect _ | .quit _ => []

def PlainLua.taskEvents (p : PlainLua τ) : PlainLua.Event τ → List (TaskEvent τ)
  | .async task => [.given task, .started task]
  | .make_session | .new_service => [.session (p.uid + 1)]
  | .yield => p.tasks.running?.toList.map .yielded
  | .wake co => (p.threads.body co).toList.map .woken
  | .ret => p.tasks.running?.toList.map .returned
  | .raise => p.tasks.running?.toList.map .raised

/-- `co` is resumed, and its task is `t` from now on. -/
structure Tasks.Enters (v v' : Tasks τ) (co : ℕ) (t : τ) : Prop where
  uid : v'.uid = v.uid
  chain : v'.chain = co :: v.chain
  task : ∀ d, v'.task d = if d = co then some t else v.task d

/-- `co`, which runs, comes back to the thread that resumed it; its task is `t?` from
now on. -/
structure Tasks.Exits (v v' : Tasks τ) (co : ℕ) (t? : Option τ) : Prop where
  uid : v'.uid = v.uid
  chain : v.chain = co :: v'.chain
  task : ∀ d, v'.task d = if d = co then t? else v.task d

/-- What can happen to the tasks, and what is seen of it. -/
inductive Tasks.Move (v v' : Tasks τ) : List (TaskEvent τ) → Prop
  | silent : v' = v → Move v v' []
  | session : v'.uid = v.uid + 1 → v'.chain = v.chain → v'.task = v.task →
      Move v v' [.session v'.uid]
  | start {co : ℕ} {t : τ} : v.task co = none → v.Enters v' co t →
      Move v v' [.given t, .started t]
  | wake {co : ℕ} {t : τ} : v.task co = some t → co ∉ v.chain → v.Enters v' co t →
      Move v v' [.woken t]
  | yield {co : ℕ} {t : τ} : v.task co = some t → v.Exits v' co (some t) →
      Move v v' [.yielded t]
  | ret {co : ℕ} {t : τ} : v.task co = some t → v.Exits v' co none → Move v v' [.returned t]
  | raise {co : ℕ} {t : τ} : v.task co = some t → v.Exits v' co none → Move v v' [.raised t]

/-- `r` pairs the coroutines that are in a task: the same tasks, the same order of
resumption. -/
structure Tasks.Pairs (v w : Tasks τ) (r : ℕ → ℕ → Prop) : Prop where
  uid : v.uid = w.uid
  chain : List.Forall₂ r v.chain w.chain
  task : ∀ co a, r co a → ∃ t, v.task co = some t ∧ w.task a = some t
  left : ∀ co t, v.task co = some t → ∃ a, r co a
  right : ∀ a t, w.task a = some t → ∃ co, r co a
  unique : Relator.BiUnique r

/-- The same tasks, up to the names of the coroutines. -/
def SameTasks (v w : Tasks τ) : Prop := ∃ r, v.Pairs w r

/-- Some events without `quit` that show `l` and lead to the tasks `v'`. -/
def ServiceLua.Follows (s : ServiceLua τ) (v' : Tasks τ) (l : List (TaskEvent τ)) : Prop :=
  ∃ es s', (∀ e ∈ es, ¬ e.IsQuit) ∧ run ServiceLua.step s es = some s' ∧
    observe ServiceLua.step ServiceLua.taskEvents s es = l ∧ s'.InScript ∧ SameTasks v' s'.tasks

/-- Some events that show `l` and lead to the tasks `v'`. -/
def PlainLua.Follows (p : PlainLua τ) (v' : Tasks τ) (l : List (TaskEvent τ)) : Prop :=
  ∃ es p', run PlainLua.step p es = some p' ∧
    observe PlainLua.step PlainLua.taskEvents p es = l ∧ SameTasks v' p'.tasks

/-! ## 1. Services that are alike -/

namespace PoolRefinementLemmas

variable {v v' w w' : Tasks τ} {r : ℕ → ℕ → Prop} {co a : ℕ} {t : τ}

theorem pairs_task (h : v.Pairs w r) (hr : r co a) (hco : v.task co = some t) :
    w.task a = some t := by
  obtain ⟨u, hu, ha⟩ := h.task co a hr
  cases hco.symm.trans hu
  exact ha

/-- A coroutine that is in no task is paired with none. -/
theorem not_pairs (h : v.Pairs w r) (hco : v.task co = none) : ¬ r co a := by
  intro hr
  obtain ⟨u, hu, _⟩ := h.task co a hr
  cases hco.symm.trans hu

theorem not_pairs_right (h : v.Pairs w r) (ha : w.task a = none) : ¬ r co a := by
  intro hr
  obtain ⟨u, _, hu⟩ := h.task co a hr
  cases ha.symm.trans hu

theorem mem_chain_iff (h : v.Pairs w r) (hr : r co a) : co ∈ v.chain ↔ a ∈ w.chain :=
  List.rel_mem h.unique hr h.chain

/-- The coroutine of the running task is paired with that of the running task. -/
theorem exits_pairs {t? u? : Option τ} (h : v.Pairs w r) (hv : v.Exits v' co t?)
    (hw : w.Exits w' a u?) : r co a ∧ List.Forall₂ r v'.chain w'.chain := by
  have hchain := h.chain
  rw [hv.chain, hw.chain] at hchain
  exact List.forall₂_cons.mp hchain

/-- A new task, on a coroutine in no task in either service. -/
theorem pairs_start (h : v.Pairs w r) (hco : v.task co = none) (ha : w.task a = none)
    (hv : v.Enters v' co t) (hw : w.Enters w' a t) :
    v'.Pairs w' fun d b => d = co ∧ b = a ∨ r d b := by
  refine ⟨?_, ?_, ?_, ?_, ?_, ?_, ?_⟩
  · rw [hv.uid, hw.uid, h.uid]
  · rw [hv.chain, hw.chain]
    exact .cons (Or.inl ⟨rfl, rfl⟩) (h.chain.imp fun _ _ => Or.inr)
  · intro d b hr
    rw [hv.task, hw.task]
    rcases hr with ⟨rfl, rfl⟩ | hr
    · exact ⟨t, if_pos rfl, if_pos rfl⟩
    · obtain ⟨u, hd, hb⟩ := h.task d b hr
      have hdco : d ≠ co := fun heq => not_pairs h hco (heq ▸ hr)
      have hba : b ≠ a := fun heq => not_pairs_right h ha (heq ▸ hr)
      exact ⟨u, (if_neg hdco).trans hd, (if_neg hba).trans hb⟩
  · intro d u hd
    rw [hv.task] at hd
    split at hd
    · next hdco => exact ⟨a, Or.inl ⟨hdco, rfl⟩⟩
    · exact (h.left d u hd).imp fun _ => Or.inr
  · intro b u hb
    rw [hw.task] at hb
    split at hb
    · next hba => exact ⟨co, Or.inl ⟨rfl, hba⟩⟩
    · exact (h.right b u hb).imp fun _ => Or.inr
  · rintro d e b (⟨rfl, rfl⟩ | hd) (⟨rfl, hb⟩ | he)
    · rfl
    · exact absurd he (not_pairs_right h ha)
    · exact absurd (hb ▸ hd) (not_pairs_right h ha)
    · exact h.unique.1 hd he
  · rintro d b c (⟨rfl, rfl⟩ | hb) (⟨hd, rfl⟩ | hc)
    · rfl
    · exact absurd hc (not_pairs h hco)
    · exact absurd (hd ▸ hb) (not_pairs h hco)
    · exact h.unique.2 hb hc

/-- Paired coroutines keep their tasks. -/
theorem pairs_same (h : v.Pairs w r) (huid : v'.uid = w'.uid)
    (hchain : List.Forall₂ r v'.chain w'.chain) (hv : v'.task = v.task) (hw : w'.task = w.task) :
    v'.Pairs w' r where
  uid := huid
  chain := hchain
  task := hv ▸ hw ▸ h.task
  left := hv ▸ h.left
  right := hw ▸ h.right
  unique := h.unique

theorem ite_task {f : ℕ → Option τ} (hco : f co = some t) (d : ℕ) :
    (if d = co then some t else f d) = f d := by
  split
  · next hd => rw [hd, hco]
  · rfl

theorem task_same {f g : ℕ → Option τ} (h : ∀ d, g d = if d = co then some t else f d)
    (hco : f co = some t) : g = f :=
  funext fun d => (h d).trans (ite_task hco d)

theorem pairs_wake (h : v.Pairs w r) (hr : r co a) (hco : v.task co = some t)
    (hv : v.Enters v' co t) (hw : w.Enters w' a t) : v'.Pairs w' r := by
  refine pairs_same h ?_ ?_ (task_same hv.task hco) (task_same hw.task (pairs_task h hr hco))
  · rw [hv.uid, hw.uid, h.uid]
  · rw [hv.chain, hw.chain]
    exact .cons hr h.chain

theorem pairs_yield (h : v.Pairs w r) (hco : v.task co = some t) (hv : v.Exits v' co (some t))
    (hw : w.Exits w' a (some t)) : v'.Pairs w' r := by
  obtain ⟨hr, hchain⟩ := exits_pairs h hv hw
  refine pairs_same h ?_ hchain (task_same hv.task hco) (task_same hw.task (pairs_task h hr hco))
  rw [hv.uid, hw.uid, h.uid]

/-- The running tasks end: their coroutines are no pair any more. -/
theorem pairs_end (h : v.Pairs w r) (hv : v.Exits v' co none) (hw : w.Exits w' a none) :
    v'.Pairs w' fun d b => r d b ∧ d ≠ co := by
  obtain ⟨hr, hchain⟩ := exits_pairs h hv hw
  have hout : co ∉ v'.chain := by
    have hnodup := v.nodup
    rw [hv.chain] at hnodup
    exact (List.nodup_cons.mp hnodup).1
  have hne : ∀ {d b}, r d b → d ≠ co → b ≠ a := fun hd hdco hba =>
    hdco (h.unique.1 hd (hba ▸ hr))
  refine ⟨?_, ?_, ?_, ?_, ?_, ?_, ?_⟩
  · rw [hv.uid, hw.uid, h.uid]
  · have hkept : List.Forall₂ (fun d b => d ≠ co ∧ r d b) v'.chain w'.chain :=
      (List.forall₂_and_left _ _).mpr ⟨fun d hd => ne_of_mem_of_not_mem hd hout, hchain⟩
    exact hkept.imp fun _ _ => And.symm
  · rintro d b ⟨hdb, hdco⟩
    rw [hv.task, if_neg hdco, hw.task, if_neg (hne hdb hdco)]
    exact h.task d b hdb
  · intro d u hd
    rw [hv.task] at hd
    split at hd
    · cases hd
    · next hdco => exact (h.left d u hd).imp fun _ hdb => ⟨hdb, hdco⟩
  · intro b u hb
    rw [hw.task] at hb
    split at hb
    · cases hb
    · next hba =>
      refine (h.right b u hb).imp fun d hdb => ⟨hdb, ?_⟩
      rintro rfl
      exact hba (h.unique.2 hdb hr)
  · exact fun _ _ _ hd he => h.unique.1 hd.1 he.1
  · exact fun _ _ _ hb hc => h.unique.2 hb.1 hc.1

theorem running?_eq {cs : List ℕ} (hchain : v.chain = co :: cs) (hco : v.task co = some t) :
    v.running? = some t := by
  rw [Tasks.running?, hchain]
  exact hco

end PoolRefinementLemmas

open PoolRefinementLemmas

/-! ## 2. With the pool -/

namespace PoolRefinementLemmas

variable {s s' : ServiceLua τ} {e : ServiceLua.Event τ} {co : ℕ} {cs : List ℕ} {t : τ}

theorem task_calling (h : s.threads.body co = some (.calling t)) : s.task co = some t := by
  rw [ServiceLua.task, h]
  rfl

theorem task_idle (h : s.Idle co) : s.task co = none := by
  rw [ServiceLua.task, h.body]
  rfl

theorem body_of_task (h : s.task co = some t) : s.threads.body co = some (.calling t) := by
  obtain ⟨r, hr, hrt⟩ := Option.bind_eq_some_iff.mp h
  cases r with
  | calling u =>
    cases hrt
    exact hr
  | created | storing | looping | waiting => cases hrt

theorem task_of_body {b : Option (Routine τ)}
    (h : ∀ d, s'.threads.body d = if d = co then b else s.threads.body d) (d : ℕ) :
    s'.task d = if d = co then b.bind Routine.task? else s.task d := by
  rw [ServiceLua.task, h]
  split <;> rfl

theorem task_eq (h : ∀ d, s'.threads.body d = s.threads.body d) : s'.task = s.task :=
  funext fun d => congrArg (·.bind Routine.task?) (h d)

theorem inScript_of_body (hchain : s.threads.chain = co :: cs) (hco : s.task co = some t) :
    s.InScript := by
  intro d hd
  rw [hchain] at hd
  cases hd
  exact any_inTask.mpr ⟨t, body_of_task hco⟩

/-- `server.async` starts its task on a coroutine that was in none. -/
theorem tasks_async (h : PoolInv s) (hs : s.InScript) (n : ℕ) (task : τ) :
    ∃ s' co, s.async n task = (s', [(co, task)]) ∧ s.task co = none ∧
      s.tasks.Enters s'.tasks co task ∧ s'.InScript := by
  have hidle := poolIdle_inScript h hs
  obtain ⟨s', co, heq, hstart⟩ := ServiceLua.async_idle task (hidle n)
  have hnone : s.task co = none := by
    rcases hstart.chosen with hn | ⟨_, rfl⟩
    · exact task_idle (hidle n co hn)
    · cases hco : s.task s.threads.bodies.length with
      | none => rfl
      | some t => exact absurd (lt_of_body (body_of_task hco)) (Nat.lt_irrefl _)
  have htask := task_of_body hstart.body
  refine ⟨s', co, heq, hnone, ⟨hstart.uid, ?_, htask⟩, ?_⟩
  rotate_left
  · exact inScript_of_body hstart.chain ((htask co).trans (if_pos rfl))
  show s'.threads.chain.filter (fun d => (s'.task d).isSome) = _
  rw [hstart.chain, List.filter_cons_of_pos (by rw [htask, if_pos rfl]; rfl)]
  refine congrArg (co :: ·) (List.filter_congr fun d hd => ?_)
  have hdco : d ≠ co := by
    rintro rfl
    obtain ⟨u, hu⟩ := chain_inTask h hs d hd
    cases (task_calling hu).symm.trans hnone
  rw [htask, if_neg hdco]

theorem tasks_wake {threads : World (Routine τ)} (hco : s.task co = some t)
    (hres : s.threads.resume co id = some threads) :
    s.tasks.Enters ({ s with threads } : ServiceLua τ).tasks co t := by
  obtain ⟨_, hchain, hbody⟩ := Coroutines.resume_spec hres
  have htask : ({ s with threads } : ServiceLua τ).task = s.task :=
    task_eq fun d => by simp [hbody]
  refine ⟨rfl, ?_, fun d => (congrFun htask d).trans (ite_task hco d).symm⟩
  show threads.chain.filter (fun d => (({ s with threads } : ServiceLua τ).task d).isSome) = _
  rw [htask, hchain, List.filter_cons_of_pos (by rw [hco]; rfl)]
  rfl

/-- The running coroutine leaves the chain, or is in no task any more. -/
theorem chain_rest {r : Routine τ} (hr : s.Running co cs r)
    (htask : ∀ d, d ≠ co → s'.task d = s.task d)
    (hchain : s'.threads.chain = cs ∨ s'.threads.chain = co :: cs ∧ s'.task co = none) :
    s'.tasks.chain = cs.filter fun d => (s.task d).isSome := by
  have hout : co ∉ cs := by
    have hnodup := s.threads.nodup
    rw [hr.chain] at hnodup
    exact (List.nodup_cons.mp hnodup).1
  have hrest : cs.filter (fun d => (s'.task d).isSome) = cs.filter fun d => (s.task d).isSome :=
    List.filter_congr fun d hd => by rw [htask d (ne_of_mem_of_not_mem hd hout)]
  show s'.threads.chain.filter (fun d => (s'.task d).isSome) = _
  rcases hchain with hchain | ⟨hchain, hnone⟩
  · rw [hchain, hrest]
  · rw [hchain, List.filter_cons_of_neg (by rw [hnone]; exact Bool.false_ne_true), hrest]

/-- The running task yields or ends. -/
theorem tasks_exits {b : Option (Routine τ)} (hr : s.Running co cs (.calling t))
    (huid : s'.uid = s.uid)
    (hbody : ∀ d, s'.threads.body d = if d = co then b else s.threads.body d)
    (hchain : s'.threads.chain = cs ∨
      s'.threads.chain = co :: cs ∧ b.bind Routine.task? = none) :
    s.tasks.Exits s'.tasks co (b.bind Routine.task?) := by
  have htask := task_of_body hbody
  refine ⟨huid, ?_, htask⟩
  rw [chain_rest hr (fun d hd => by rw [htask, if_neg hd])
    (hchain.imp_right fun h => ⟨h.1, by rw [htask, if_pos rfl, h.2]⟩)]
  show s.threads.chain.filter (fun d => (s.task d).isSome) = _
  rw [hr.chain, List.filter_cons_of_pos (by rw [task_calling hr.body]; rfl)]

/-- `routine` goes on outside of any task. -/
theorem tasks_outside {r r' : Routine τ} (hr : s.Running co cs r) (hnone : r.task? = none)
    (hnone' : r'.task? = none) (huid : s'.uid = s.uid)
    (hbody : ∀ d, s'.threads.body d = if d = co then some r' else s.threads.body d)
    (hchain : s'.threads.chain = cs ∨ s'.threads.chain = co :: cs) : s'.tasks = s.tasks := by
  have hco : s.task co = none := by
    rw [ServiceLua.task, hr.body]
    exact hnone
  have htask : s'.task = s.task := by
    funext d
    rw [task_of_body hbody]
    split
    · next hd =>
      rw [hd, hco]
      exact hnone'
    · rfl
  refine Tasks.ext huid ?_ htask
  rw [chain_rest hr (fun d _ => congrFun htask d)
    (hchain.imp_right fun h => ⟨h, (congrFun htask co).trans hco⟩)]
  show _ = s.threads.chain.filter fun d => (s.task d).isSome
  rw [hr.chain, List.filter_cons_of_neg (by rw [hco]; exact Bool.false_ne_true)]

/-- The events that a task ends, or yields, in. -/
theorem exits_yield (hr : s.Running co cs (.calling t)) :
    s.tasks.Exits ({ s with threads := s.threads.yield id } : ServiceLua τ).tasks co (some t) := by
  obtain ⟨hchain, hbody⟩ := yield_spec id hr.chain
  exact tasks_exits (b := some (.calling t)) hr rfl
    (fun d => (hbody d).trans (body_map hr.body _ d)) (Or.inl hchain)

theorem exits_ret (hr : s.Running co cs (.calling t)) :
    s.tasks.Exits ({ s with threads := s.threads.jump fun _ => .storing } : ServiceLua τ).tasks
      co none := by
  obtain ⟨hchain, hbody⟩ := jump_spec (fun _ => Routine.storing) hr.chain
  exact tasks_exits (b := some .storing) hr rfl
    (fun d => (hbody d).trans (body_map hr.body _ d)) (Or.inr ⟨hchain, rfl⟩)

theorem exits_raise (hr : s.Running co cs (.calling t)) :
    s.tasks.Exits ({ s with threads := s.threads.die } : ServiceLua τ).tasks co none := by
  obtain ⟨hchain, hbody⟩ := die_spec hr.chain
  exact tasks_exits (b := none) hr rfl hbody (Or.inl hchain)

theorem service_running? (hr : s.Running co cs (.calling t)) : s.tasks.running? = some t :=
  running?_eq (exits_yield hr).chain (task_calling hr.body)

theorem tasks_push {n : ℕ} (hr : s.Running co cs .storing) :
    ({ s with co_pool := push s.co_pool n co, threads := s.threads.jump fun _ => .looping } :
      ServiceLua τ).tasks = s.tasks := by
  obtain ⟨hchain, hbody⟩ := jump_spec (fun _ => Routine.looping) hr.chain
  exact tasks_outside hr rfl rfl rfl (fun d => (hbody d).trans (body_map hr.body _ d))
    (Or.inr hchain)

theorem tasks_idle (hr : s.Running co cs .looping) :
    ({ s with threads := s.threads.yield fun _ => .waiting } : ServiceLua τ).tasks = s.tasks := by
  obtain ⟨hchain, hbody⟩ := yield_spec (fun _ => Routine.waiting) hr.chain
  exact tasks_outside hr rfl rfl rfl (fun d => (hbody d).trans (body_map hr.body _ d))
    (Or.inl hchain)

theorem not_mem_chain_iff (hco : s.task co = some t) :
    co ∉ s.tasks.chain ↔ co ∉ s.threads.chain := by
  refine not_congr ⟨fun h => (List.mem_filter.mp h).1, fun h => List.mem_filter.mpr ⟨h, ?_⟩⟩
  rw [hco]
  rfl

end PoolRefinementLemmas

/-- Every event without `quit` is a move of the tasks. -/
theorem move_service {s s' : ServiceLua τ} {e : ServiceLua.Event τ} (h : PoolInv s)
    (he : ¬ e.IsQuit) (hs : s.step e = some s') : s.tasks.Move s'.tasks (s.taskEvents e) := by
  cases e with
  | async n task =>
    obtain ⟨⟨hin, _⟩, rfl⟩ := ServiceLua.step_spec.mp hs
    obtain ⟨s', co, heq, hnone, henters, _⟩ := tasks_async h hin n task
    rw [ServiceLua.taskEvents, heq]
    exact .start hnone henters
  | make_session | new_service =>
    obtain ⟨_, rfl⟩ := ServiceLua.step_spec.mp hs
    exact .session rfl rfl rfl
  | yield =>
    obtain ⟨⟨co, cs, task, hr⟩, rfl⟩ := ServiceLua.step_spec.mp hs
    rw [ServiceLua.taskEvents, service_running? hr]
    exact .yield (task_calling hr.body) (exits_yield hr)
  | wake co =>
    obtain ⟨_, ⟨task, hbody⟩, threads, hres, rfl⟩ := ServiceLua.step_spec.mp hs
    have hco := task_calling hbody
    have hout := (status_eq_suspended.mp (Coroutines.resume_spec hres).1).1
    rw [ServiceLua.taskEvents, hco]
    exact .wake hco ((not_mem_chain_iff hco).mpr hout) (tasks_wake hco hres)
  | ret =>
    obtain ⟨⟨co, cs, task, hr⟩, rfl⟩ := ServiceLua.step_spec.mp hs
    rw [ServiceLua.taskEvents, service_running? hr]
    exact .ret (task_calling hr.body) (exits_ret hr)
  | push n =>
    obtain ⟨_, co, ⟨cs, hr⟩, rfl⟩ := ServiceLua.step_spec.mp hs
    exact .silent (tasks_push hr)
  | idle =>
    obtain ⟨⟨co, cs, hr⟩, rfl⟩ := ServiceLua.step_spec.mp hs
    exact .silent (tasks_idle hr)
  | raise =>
    obtain ⟨⟨co, cs, task, hr⟩, rfl⟩ := ServiceLua.step_spec.mp hs
    rw [ServiceLua.taskEvents, service_running? hr]
    exact .raise (task_calling hr.body) (exits_raise hr)
  | collect slots =>
    obtain ⟨_, rfl⟩ := ServiceLua.step_spec.mp hs
    exact .silent rfl
  | quit order => exact absurd trivial he

namespace PoolRefinementLemmas

variable {s s' : ServiceLua τ} {v v' : Tasks τ} {r : ℕ → ℕ → Prop} {co : ℕ} {cs : List ℕ} {t : τ}

/-- When the running coroutine comes back, the one that resumed it is in its task. -/
theorem inScript_rest {r : Routine τ} (h : PoolInv s) (hr : s.Running co cs r)
    (hchain : s'.threads.chain = cs)
    (hbody : ∀ d, d ≠ co → s'.threads.body d = s.threads.body d) : s'.InScript := by
  intro d hd
  rw [hchain] at hd
  have hdcs : d ∈ cs := List.mem_of_mem_head? hd
  have hnodup := s.threads.nodup
  rw [hr.chain] at hnodup
  rw [hbody d (ne_of_mem_of_not_mem hdcs (List.nodup_cons.mp hnodup).1)]
  exact any_inTask.mpr (h.resumers d (by rw [hr.chain]; exact hdcs))

/-- The running task of one service runs in the other. -/
theorem running_of_exits {t? : Option τ} (hinv : PoolInv s) (hin : s.InScript)
    (h : v.Pairs s.tasks r) (hv : v.Exits v' co t?) (hco : v.task co = some t) :
    ∃ a cs, s.Running a cs (.calling t) := by
  have hchain := h.chain
  rw [hv.chain] at hchain
  obtain ⟨a, as, hr, _, has⟩ := List.forall₂_cons_left_iff.mp hchain
  cases hc : s.threads.chain with
  | nil =>
    have hnil : s.tasks.chain = [] := congrArg (List.filter _) hc
    cases hnil.symm.trans has
  | cons d ds =>
    obtain ⟨u, hu⟩ := chain_inTask hinv hin d (by rw [hc]; exact List.mem_cons_self)
    have hd : s.tasks.chain = d :: ds.filter fun d => (s.task d).isSome := by
      show s.threads.chain.filter (fun d => (s.task d).isSome) = _
      rw [hc, List.filter_cons_of_pos (by rw [task_calling hu]; rfl)]
    cases has.symm.trans hd
    exact ⟨a, ds, hc, body_of_task (pairs_task h hr hco)⟩

/-- A task returns, and its coroutine goes back to the pool. -/
theorem run_ret (hr : s.Running co cs (.calling t)) : ∃ n s',
    run ServiceLua.step s [.ret, .push n, .idle] = some s' ∧
      observe ServiceLua.step ServiceLua.taskEvents s [.ret, .push n, .idle] =
        s.taskEvents .ret ∧
      s.tasks.Exits s'.tasks co none ∧ s'.threads.chain = cs ∧
      ∀ d, d ≠ co → s'.threads.body d = s.threads.body d := by
  obtain ⟨n, hn⟩ := exists_border s.co_pool
  let s₁ : ServiceLua τ := { s with threads := s.threads.jump fun _ => .storing }
  let s₂ : ServiceLua τ :=
    { s₁ with co_pool := push s.co_pool n co, threads := s₁.threads.jump fun _ => .looping }
  let s₃ : ServiceLua τ := { s₂ with threads := s₂.threads.yield fun _ => .waiting }
  obtain ⟨hchain₁, hbody₁⟩ := jump_spec (fun _ => Routine.storing) hr.chain
  have hr₁ : s₁.Running co cs .storing :=
    ⟨hchain₁, (hbody₁ co).trans ((body_map hr.body _ co).trans (if_pos rfl))⟩
  obtain ⟨hchain₂, hbody₂⟩ := jump_spec (fun _ => Routine.looping) hr₁.chain
  have hr₂ : s₂.Running co cs .looping :=
    ⟨hchain₂, (hbody₂ co).trans ((body_map hr₁.body _ co).trans (if_pos rfl))⟩
  obtain ⟨hchain₃, hbody₃⟩ := yield_spec (fun _ => Routine.waiting) hr₂.chain
  have h₁ : s.step .ret = some s₁ := ServiceLua.step_spec.mpr ⟨⟨co, cs, t, hr⟩, rfl⟩
  have h₂ : s₁.step (.push n) = some s₂ := ServiceLua.step_spec.mpr ⟨hn, co, ⟨cs, hr₁⟩, rfl⟩
  have h₃ : s₂.step .idle = some s₃ := ServiceLua.step_spec.mpr ⟨⟨co, cs, hr₂⟩, rfl⟩
  refine ⟨n, s₃, ?_, ?_, ?_, hchain₃, fun d hd => ?_⟩
  · rw [run_cons_eq _ h₁, run_cons_eq _ h₂, run_cons_eq _ h₃, run_nil]
  · simp only [observe, h₁, h₂, h₃, Option.elim_some]
    exact List.append_nil _
  · have htasks : s₃.tasks = s₁.tasks := (tasks_idle hr₂).trans (tasks_push hr₁)
    rw [htasks]
    exact exits_ret hr
  · exact (hbody₃ d).trans ((if_neg hd).trans ((hbody₂ d).trans ((if_neg hd).trans
      ((hbody₁ d).trans (if_neg hd)))))

end PoolRefinementLemmas

namespace PoolRefinementLemmas

variable {s s' : ServiceLua τ} {v v' : Tasks τ} {e : ServiceLua.Event τ}

theorem follows_one (he : ¬ e.IsQuit) (hs : s.step e = some s') (hin : s'.InScript)
    (hsame : SameTasks v' s'.tasks) : s.Follows v' (s.taskEvents e) :=
  ⟨[e], s', List.forall_mem_singleton.mpr he, (run_one s e).trans hs,
    observe_one s e ServiceLua.taskEvents, hin, hsame⟩

end PoolRefinementLemmas

/-- With the pool, every move of the tasks is some events. -/
theorem service_follows {s : ServiceLua τ} {v v' : Tasks τ} {l : List (TaskEvent τ)}
    (hinv : PoolInv s) (hin : s.InScript) (h : SameTasks v s.tasks) (hm : v.Move v' l) :
    s.Follows v' l := by
  obtain ⟨r, hr⟩ := h
  cases hm with
  | silent hv =>
    exact ⟨[], s, fun _ he => absurd he List.not_mem_nil, rfl, rfl, hin, r, hv ▸ hr⟩
  | session huid hchain htask =>
    have hs : s.step .make_session = some s.make_session :=
      ServiceLua.step_spec.mpr ⟨hin, rfl⟩
    have huid' : v'.uid = s.make_session.tasks.uid := by
      rw [huid, hr.uid]
      rfl
    rw [huid']
    exact follows_one id hs hin ⟨r, pairs_same hr huid' (hchain ▸ hr.chain) htask rfl⟩
  | @start co t hnone henters =>
    obtain ⟨n, hn⟩ := exists_border s.co_pool
    obtain ⟨s', a, heq, hnone', henters', hin'⟩ := tasks_async hinv hin n t
    have hs : s.step (.async n t) = some (s.async n t).1 :=
      ServiceLua.step_spec.mpr ⟨⟨hin, hn⟩, rfl⟩
    rw [heq] at hs
    have hobs : s.taskEvents (.async n t) = [.given t, .started t] := by
      rw [ServiceLua.taskEvents, heq]
      rfl
    rw [← hobs]
    exact follows_one id hs hin' ⟨_, pairs_start hr hnone hnone' henters henters'⟩
  | @wake co t hco hout henters =>
    obtain ⟨a, hra⟩ := hr.left co t hco
    have ha := pairs_task hr hra hco
    have hout' := (not_mem_chain_iff ha).mp ((not_congr (mem_chain_iff hr hra)).mp hout)
    have hbody := body_of_task ha
    cases hres : s.threads.resume a id with
    | none =>
      refine absurd (status_eq_suspended.mpr ⟨hout', ?_⟩) (resume_eq_none.mp hres)
      rw [hbody]
      rfl
    | some threads =>
      have hs : s.step (.wake a) = some { s with threads } :=
        ServiceLua.step_spec.mpr ⟨hin, ⟨t, hbody⟩, threads, hres, rfl⟩
      have hobs : s.taskEvents (.wake a) = [.woken t] := by
        rw [ServiceLua.taskEvents, show s.task a = some t from ha]
        rfl
      have henters' := tasks_wake ha hres
      rw [← hobs]
      exact follows_one id hs
        (inScript_of_body (Coroutines.resume_spec hres).2.1 ((henters'.task a).trans (if_pos rfl)))
        ⟨r, pairs_wake hr hra hco henters henters'⟩
  | @yield co t hco hexits =>
    obtain ⟨a, cs, hra⟩ := running_of_exits hinv hin hr hexits hco
    obtain ⟨hchain, hbody⟩ := yield_spec id hra.chain
    have hs : s.step .yield = some { s with threads := s.threads.yield id } :=
      ServiceLua.step_spec.mpr ⟨⟨a, cs, t, hra⟩, rfl⟩
    have hexits' := exits_yield hra
    have hobs : s.taskEvents .yield = [.yielded t] := by
      rw [ServiceLua.taskEvents, service_running? hra]
      rfl
    rw [← hobs]
    exact follows_one id hs
      (inScript_rest hinv hra hchain fun d hd => (hbody d).trans (if_neg hd))
      ⟨r, pairs_yield hr hco hexits hexits'⟩
  | @ret co t hco hexits =>
    obtain ⟨a, cs, hra⟩ := running_of_exits hinv hin hr hexits hco
    obtain ⟨n, s', hrun, hobs, hexits', hchain, hbody⟩ := run_ret hra
    refine ⟨_, s', ?_, hrun, hobs.trans ?_, inScript_rest hinv hra hchain hbody,
      _, pairs_end hr hexits hexits'⟩
    · simp [ServiceLua.Event.IsQuit]
    · rw [ServiceLua.taskEvents, service_running? hra]
      rfl
  | @raise co t hco hexits =>
    obtain ⟨a, cs, hra⟩ := running_of_exits hinv hin hr hexits hco
    obtain ⟨hchain, hbody⟩ := die_spec hra.chain
    have hs : s.step .raise = some { s with threads := s.threads.die } :=
      ServiceLua.step_spec.mpr ⟨⟨a, cs, t, hra⟩, rfl⟩
    have hexits' := exits_raise hra
    have hobs : s.taskEvents .raise = [.raised t] := by
      rw [ServiceLua.taskEvents, service_running? hra]
      rfl
    rw [← hobs]
    exact follows_one id hs
      (inScript_rest hinv hra hchain fun d hd => (hbody d).trans (if_neg hd))
      ⟨_, pairs_end hr hexits hexits'⟩

/-! ## 3. Without the pool -/

namespace PoolRefinementLemmas

variable {p p' : PlainLua τ} {v v' : Tasks τ} {r : ℕ → ℕ → Prop} {co : ℕ} {t : τ}

/-- A coroutine that runs is in its task. -/
theorem plain_running {f : ℕ → PlainLua τ} (h : p.threads.chain.head?.map f = some p') :
    ∃ co cs t, p.threads.chain = co :: cs ∧ p.threads.body co = some t ∧ p' = f co := by
  obtain ⟨co, hhead, rfl⟩ := Option.map_eq_some_iff.mp h
  obtain ⟨cs, hchain⟩ := List.head?_eq_some_iff.mp hhead
  obtain ⟨t, ht⟩ := Option.isSome_iff_exists.mp (p.threads.alive co (List.mem_of_mem_head? hhead))
  exact ⟨co, cs, t, hchain, ht, rfl⟩

theorem plain_head {cs : List ℕ} (hchain : p.threads.chain = co :: cs) (f : ℕ → PlainLua τ) :
    p.threads.chain.head?.map f = some (f co) := by
  rw [hchain]
  rfl

/-- A new coroutine is in no task, and is resumed at once. -/
theorem plain_async (p : PlainLua τ) (task : τ) : ∃ p',
    p.step (.async task) = some p' ∧ p.tasks.task p.threads.bodies.length = none ∧
      p.tasks.Enters p'.tasks p.threads.bodies.length task := by
  have hnew : p.threads.body p.threads.bodies.length = none := by
    cases hbody : p.threads.body p.threads.bodies.length with
    | none => rfl
    | some u => exact absurd (lt_of_body hbody) (Nat.lt_irrefl _)
  cases hres : (p.threads.create task).resume p.threads.bodies.length id with
  | none => exact absurd (status_create_self task) (resume_eq_none.mp hres)
  | some threads =>
    obtain ⟨_, hchain, hbody⟩ := Coroutines.resume_spec hres
    refine ⟨{ p with threads }, congrArg (Option.map _) hres, hnew, rfl, hchain, fun d => ?_⟩
    show threads.body d = _
    rw [hbody, Option.map_id, id, ite_self, body_create]
    rfl

theorem plain_wake (hco : p.threads.body co = some t) {threads : World τ}
    (hres : p.threads.resume co id = some threads) :
    p.tasks.Enters ({ p with threads } : PlainLua τ).tasks co t := by
  obtain ⟨_, hchain, hbody⟩ := Coroutines.resume_spec hres
  exact ⟨rfl, hchain, fun d => (hbody d).trans (body_map hco _ d)⟩

theorem plain_yield {cs : List ℕ} (hchain : p.threads.chain = co :: cs)
    (hco : p.threads.body co = some t) :
    p.tasks.Exits ({ p with threads := p.threads.yield id } : PlainLua τ).tasks co (some t) := by
  obtain ⟨hchain', hbody⟩ := yield_spec id hchain
  exact ⟨rfl, hchain.trans (congrArg (co :: ·) hchain'.symm),
    fun d => (hbody d).trans (body_map hco _ d)⟩

theorem plain_end {cs : List ℕ} (hchain : p.threads.chain = co :: cs) :
    p.tasks.Exits ({ p with threads := p.threads.die } : PlainLua τ).tasks co none := by
  obtain ⟨hchain', hbody⟩ := die_spec hchain
  exact ⟨rfl, hchain.trans (congrArg (co :: ·) hchain'.symm), hbody⟩

end PoolRefinementLemmas

theorem move_plain {p p' : PlainLua τ} {e : PlainLua.Event τ} (hs : p.step e = some p') :
    p.tasks.Move p'.tasks (p.taskEvents e) := by
  cases e with
  | async task =>
    obtain ⟨p', hs', hnone, henters⟩ := plain_async p task
    cases hs.symm.trans hs'
    exact .start hnone henters
  | make_session | new_service =>
    cases hs
    exact .session rfl rfl rfl
  | yield =>
    obtain ⟨co, cs, t, hchain, hco, rfl⟩ := plain_running hs
    have hexits := plain_yield hchain hco
    rw [PlainLua.taskEvents, running?_eq hexits.chain hco]
    exact .yield hco hexits
  | wake co =>
    obtain ⟨threads, hres, rfl⟩ := Option.map_eq_some_iff.mp hs
    obtain ⟨hout, hsome⟩ := status_eq_suspended.mp (Coroutines.resume_spec hres).1
    obtain ⟨t, hco⟩ := Option.isSome_iff_exists.mp hsome
    rw [PlainLua.taskEvents, hco]
    exact .wake hco hout (plain_wake hco hres)
  | ret =>
    obtain ⟨co, cs, t, hchain, hco, rfl⟩ := plain_running hs
    have hexits := plain_end hchain
    rw [PlainLua.taskEvents, running?_eq hexits.chain hco]
    exact .ret hco hexits
  | raise =>
    obtain ⟨co, cs, t, hchain, hco, rfl⟩ := plain_running hs
    have hexits := plain_end hchain
    rw [PlainLua.taskEvents, running?_eq hexits.chain hco]
    exact .raise hco hexits

namespace PoolRefinementLemmas

variable {p p' : PlainLua τ} {v v' : Tasks τ} {r : ℕ → ℕ → Prop} {co a : ℕ} {t : τ}

theorem plain_follows_one {e : PlainLua.Event τ} (hs : p.step e = some p')
    (hsame : SameTasks v' p'.tasks) : p.Follows v' (p.taskEvents e) :=
  ⟨[e], p', (run_one p e).trans hs, observe_one p e PlainLua.taskEvents, hsame⟩

/-- The running task of one service runs in the other. -/
theorem plain_running_of_exits {t? : Option τ} (h : v.Pairs p.tasks r) (hv : v.Exits v' co t?)
    (hco : v.task co = some t) :
    ∃ a cs, p.threads.chain = a :: cs ∧ p.threads.body a = some t := by
  have hchain := h.chain
  rw [hv.chain] at hchain
  obtain ⟨a, as, hr, _, has⟩ := List.forall₂_cons_left_iff.mp hchain
  exact ⟨a, as, has, pairs_task h hr hco⟩

end PoolRefinementLemmas

/-- Without the pool, every move of the tasks is an event. -/
theorem plain_follows {p : PlainLua τ} {v v' : Tasks τ} {l : List (TaskEvent τ)}
    (h : SameTasks v p.tasks) (hm : v.Move v' l) : p.Follows v' l := by
  obtain ⟨r, hr⟩ := h
  cases hm with
  | silent hv => exact ⟨[], p, rfl, rfl, r, hv ▸ hr⟩
  | session huid hchain htask =>
    have huid' : v'.uid = p.uid + 1 := huid.trans (congrArg (· + 1) hr.uid)
    rw [huid']
    exact plain_follows_one (e := .make_session) rfl
      ⟨r, pairs_same hr huid' (hchain ▸ hr.chain) htask rfl⟩
  | @start co t hnone henters =>
    obtain ⟨p', hs, hnone', henters'⟩ := plain_async p t
    exact plain_follows_one hs ⟨_, pairs_start hr hnone hnone' henters henters'⟩
  | @wake co t hco hout henters =>
    obtain ⟨a, hra⟩ := hr.left co t hco
    have ha : p.threads.body a = some t := pairs_task hr hra hco
    have hout' : a ∉ p.threads.chain := (not_congr (mem_chain_iff hr hra)).mp hout
    cases hres : p.threads.resume a id with
    | none =>
      refine absurd (status_eq_suspended.mpr ⟨hout', ?_⟩) (resume_eq_none.mp hres)
      rw [ha]
      rfl
    | some threads =>
      have hs : p.step (.wake a) = some { p with threads } := congrArg (Option.map _) hres
      have hobs : p.taskEvents (.wake a) = [.woken t] := by
        rw [PlainLua.taskEvents, ha]
        rfl
      rw [← hobs]
      exact plain_follows_one hs ⟨r, pairs_wake hr hra hco henters (plain_wake ha hres)⟩
  | @yield co t hco hexits =>
    obtain ⟨a, cs, hchain, ha⟩ := plain_running_of_exits hr hexits hco
    have hexits' := plain_yield hchain ha
    have hobs : p.taskEvents .yield = [.yielded t] := by
      rw [PlainLua.taskEvents, running?_eq hexits'.chain ha]
      rfl
    rw [← hobs]
    exact plain_follows_one (plain_head hchain _) ⟨r, pairs_yield hr hco hexits hexits'⟩
  | @ret co t hco hexits =>
    obtain ⟨a, cs, hchain, ha⟩ := plain_running_of_exits hr hexits hco
    have hexits' := plain_end hchain
    have hobs : p.taskEvents .ret = [.returned t] := by
      rw [PlainLua.taskEvents, running?_eq hexits'.chain ha]
      rfl
    rw [← hobs]
    exact plain_follows_one (plain_head hchain _) ⟨_, pairs_end hr hexits hexits'⟩
  | @raise co t hco hexits =>
    obtain ⟨a, cs, hchain, ha⟩ := plain_running_of_exits hr hexits hco
    have hexits' := plain_end hchain
    have hobs : p.taskEvents .raise = [.raised t] := by
      rw [PlainLua.taskEvents, running?_eq hexits'.chain ha]
      rfl
    rw [← hobs]
    exact plain_follows_one (plain_head hchain _) ⟨_, pairs_end hr hexits hexits'⟩

/-! ## 4. Both services -/

namespace PoolRefinementLemmas

theorem sameTasks_empty {v w : Tasks τ} (huid : v.uid = w.uid)
    (hv : v.chain = [] ∧ ∀ co, v.task co = none) (hw : w.chain = [] ∧ ∀ a, w.task a = none) :
    SameTasks v w := by
  refine ⟨fun _ _ => False, huid, ?_, fun _ _ h => h.elim, fun co t h => ?_, fun a t h => ?_, ?_⟩
  · rw [hv.1, hw.1]
    exact .nil
  · cases (hv.2 co).symm.trans h
  · cases (hw.2 a).symm.trans h
  · exact ⟨fun _ _ _ h => h.elim, fun _ _ _ h => h.elim⟩

/-- A step with the pool is matched without it. -/
theorem service_simulated (s : ServiceLua τ) (p : PlainLua τ) (e : ServiceLua.Event τ)
    (s' : ServiceLua τ) (h : PoolInv s ∧ SameTasks s.tasks p.tasks) (he : ¬ e.IsQuit)
    (hs : s.step e = some s') : ∃ es p', (∀ e' ∈ es, True) ∧ run PlainLua.step p es = some p' ∧
      observe PlainLua.step PlainLua.taskEvents p es = s.taskEvents e ∧
      PoolInv s' ∧ SameTasks s'.tasks p'.tasks := by
  obtain ⟨es, p', hrun, hobs, hsame⟩ := plain_follows h.2 (move_service h.1 he hs)
  exact ⟨es, p', fun _ _ => trivial, hrun, hobs, poolInv_step h.1 he hs, hsame⟩

/-- A step without the pool is matched with it. -/
theorem plain_simulated (p : PlainLua τ) (s : ServiceLua τ) (e : PlainLua.Event τ)
    (p' : PlainLua τ) (h : PoolInv s ∧ s.InScript ∧ SameTasks p.tasks s.tasks) (_ : True)
    (hp : p.step e = some p') : ∃ es s', (∀ e' ∈ es, ¬ e'.IsQuit) ∧
      run ServiceLua.step s es = some s' ∧
      observe ServiceLua.step ServiceLua.taskEvents s es = p.taskEvents e ∧
      PoolInv s' ∧ s'.InScript ∧ SameTasks p'.tasks s'.tasks := by
  obtain ⟨es, s', hes, hrun, hobs, hin, hsame⟩ :=
    service_follows h.1 h.2.1 h.2.2 (move_plain hp)
  have hinv : PoolInv s' := run_invariant (G := fun _ e => ¬ e.IsQuit)
    (fun _ _ _ h he hs => poolInv_step h he hs) h.1 (meets_of_mem hes _) hrun
  exact ⟨es, s', hes, hrun, hobs, hinv, hin, hsame⟩

end PoolRefinementLemmas

/-- The pool cannot be seen in what the tasks do, by scripts that do not touch a
coroutine after its task has ended. Whatever a run of the service without `quit`
shows, its tasks given, started, yielding, woken, returning and raising, and the
sessions, in this order, a run of the service that creates a coroutine for every task
shows too, and conversely; and in the end the same tasks are under way in both. -/
theorem pool_unobservable :
    (∀ es (s : ServiceLua τ), (∀ e ∈ es, ¬ e.IsQuit) →
      run ServiceLua.step ServiceLua.init es = some s →
      ∃ es' p, run PlainLua.step PlainLua.init es' = some p ∧
        observe PlainLua.step PlainLua.taskEvents PlainLua.init es' =
          observe ServiceLua.step ServiceLua.taskEvents ServiceLua.init es ∧
        SameTasks s.tasks p.tasks) ∧
    ∀ es' (p : PlainLua τ), run PlainLua.step PlainLua.init es' = some p →
      ∃ es s, (∀ e ∈ es, ¬ e.IsQuit) ∧ run ServiceLua.step ServiceLua.init es = some s ∧
        observe ServiceLua.step ServiceLua.taskEvents ServiceLua.init es =
          observe PlainLua.step PlainLua.taskEvents PlainLua.init es' ∧
        SameTasks p.tasks s.tasks := by
  constructor
  · intro es s hes hrun
    have hinit : SameTasks (ServiceLua.init : ServiceLua τ).tasks PlainLua.init.tasks :=
      sameTasks_empty rfl ⟨rfl, fun _ => rfl⟩ ⟨rfl, fun _ => rfl⟩
    obtain ⟨es', p, _, hrun', hobs, _, hsame⟩ :=
      run_simulates service_simulated ⟨poolInv_init, hinit⟩ hes hrun
    exact ⟨es', p, hrun', hobs, hsame⟩
  · intro es' p hrun
    have hin : (ServiceLua.init : ServiceLua τ).InScript := fun _ h => by cases h
    have hinit : SameTasks (PlainLua.init : PlainLua τ).tasks ServiceLua.init.tasks :=
      sameTasks_empty rfl ⟨rfl, fun _ => rfl⟩ ⟨rfl, fun _ => rfl⟩
    obtain ⟨es, s, hes, hrun', hobs, _, _, hsame⟩ :=
      run_simulates plain_simulated ⟨poolInv_init, hin, hinit⟩ (fun _ _ => trivial) hrun
    exact ⟨es, s, hes, hrun', hobs, hsame⟩

/-- What the run with one coroutine for two tasks shows. -/
theorem pool_unobservable_run : ∃ (es : List (PlainLua.Event ℕ)) (p : PlainLua ℕ),
    run PlainLua.step PlainLua.init es = some p ∧
      observe PlainLua.step PlainLua.taskEvents PlainLua.init es =
        [.given 1, .started 1, .session 1, .yielded 1, .given 2, .started 2, .returned 2, .given 3,
          .started 3, .woken 1, .raised 1, .returned 3] := by
  have hrun : (run ServiceLua.step ServiceLua.init pooledRun).isSome = true := by decide
  obtain ⟨s, hs⟩ := Option.isSome_iff_exists.mp hrun
  obtain ⟨es, p, hp, hobs, _⟩ := pool_unobservable.1 pooledRun s (by decide) hs
  exact ⟨es, p, hp, hobs.trans (by decide)⟩

end LuaRobot
