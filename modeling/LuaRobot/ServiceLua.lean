import LuaRobot.Coroutines
import LuaRobot.Runs
import LuaRobot.SparseTable

/-!
# `lua_scripts/service.lua`

The coroutine pool and the session table of one service, with the functions that
`server.async` is given as opaque tasks of a type `τ` (a function with its
arguments). One event is one call into the script's functions, or what a task
does next: it yields, returns or raises, or resumes a coroutine that is suspended
inside its own task. A coroutine whose task has ended is not resumed, nor is its
status asked for, by a script that has kept it. The entries of the weak `co_pool` may disappear between any
two events, and its length is any border. Memory and the depth of the C stack are
not bounded.

Results:
1. `step_spec`: what one event does, with its guard.
2. `async_idle`, `async_dead`: what `server.async` does, by the coroutine it takes
   from the pool.
3. `async_enabled`: it can always be called.
-/

namespace LuaRobot

open Runs SparseTable Coroutines

/-! ## Definitions -/

/-- Where `routine` is, in one coroutine. -/
inductive Routine (τ : Type) where
  /-- not resumed yet -/
  | created
  /-- in `fn(...)` of `invoke` -/
  | calling (task : τ)
  /-- in `invoke`, `fn` has returned -/
  | storing
  /-- back from `invoke`, before the `coroutine.yield()` of the loop -/
  | looping
  /-- suspended in that `coroutine.yield()` -/
  | waiting
deriving DecidableEq

variable {τ : Type}

/-- `routine` is resumed with a task: from its start and from the yield of its
loop it goes on to call the task; a yield inside of a task returns it as values. -/
def Routine.receive (task : τ) : Routine τ → Routine τ
  | .created | .waiting => .calling task
  | r => r

/-- Resumed there, `routine` starts the task it receives. -/
def Routine.starts : Routine τ → Bool
  | .created | .waiting => true
  | _ => false

def Routine.inTask : Routine τ → Bool
  | .calling _ => true
  | _ => false

def Routine.isStoring : Routine τ → Bool
  | .storing => true
  | _ => false

def Routine.isLooping : Routine τ → Bool
  | .looping => true
  | _ => false

/-- The upvalues of `service.lua` and the threads of its Lua state. An entry
`none` of the session table is the value `false`. -/
structure ServiceLua (τ : Type) where
  uid : Int64
  sessionid_coroutine : AList fun _ : Int64 => Option Thread
  co_pool : Table ℕ
  threads : World (Routine τ)

/-- The script was just loaded. -/
def ServiceLua.init : ServiceLua τ where
  uid := 0
  sessionid_coroutine := ∅
  co_pool := ∅
  threads := ⟨[], [], fun _ h => (nomatch h), List.nodup_nil⟩

/-- `coroutine.resume(co, fn, ...)`, and the task that it starts; it returns
`false` when `co` is not suspended. -/
def ServiceLua.resume (s : ServiceLua τ) (co : ℕ) (task : τ) : ServiceLua τ × List (ℕ × τ) :=
  match s.threads.resume co (Routine.receive task) with
  | some threads =>
    ({ s with threads }, if (s.threads.body co).any Routine.starts then [(co, task)] else [])
  | none => (s, [])

/-- `server.async(fn, ...)`, when `#co_pool` is `n`. -/
def ServiceLua.async (s : ServiceLua τ) (n : ℕ) (task : τ) : ServiceLua τ × List (ℕ × τ) :=
  match remove s.co_pool n with
  | (some co, co_pool) => { s with co_pool }.resume co task
  | (none, co_pool) =>
    { s with co_pool, threads := s.threads.create .created }.resume s.threads.bodies.length task

/-- `server.make_session()`. -/
def ServiceLua.make_session (s : ServiceLua τ) : ServiceLua τ :=
  let uid := s.uid + 1
  { s with
    uid
    sessionid_coroutine := s.sessionid_coroutine.insert uid (some s.threads.current) }

/-- `server.new_service(option)`: `core_new_service` calls nothing back and
touches none of this. -/
def ServiceLua.new_service (s : ServiceLua τ) : ServiceLua τ := s.make_session

/-- The loop of `server.quit`, over the keys in the order of `pairs`, and whether
it ends without an error. -/
def ServiceLua.quitLoop (cur_co : Thread) : List Int64 → ServiceLua τ → ServiceLua τ × Bool
  | [], s => (s, true)
  | k :: ks, s =>
    match s.sessionid_coroutine.lookup k with
    | some (some co) =>
      if co ≠ cur_co then
        match s.threads.close co with
        | some threads =>
          quitLoop cur_co ks
            { s with threads, sessionid_coroutine := s.sessionid_coroutine.insert k none }
        | none => (s, false)
      else quitLoop cur_co ks s
    | _ => quitLoop cur_co ks s

/-- `server.quit()`. -/
def ServiceLua.quit (s : ServiceLua τ) (order : List Int64) : ServiceLua τ × Bool :=
  s.quitLoop s.threads.current order

/-- A task is running, or the main thread: it may call the script's functions. -/
def ServiceLua.InScript (s : ServiceLua τ) : Prop :=
  ∀ co ∈ s.threads.chain.head?, (s.threads.body co).any Routine.inTask = true

instance (s : ServiceLua τ) : Decidable s.InScript :=
  inferInstanceAs (Decidable (∀ co ∈ s.threads.chain.head?, _))

/-- The running coroutine, when it is at a point that meets `r`. -/
def ServiceLua.runner (s : ServiceLua τ) (r : Routine τ → Bool) : Option ℕ :=
  s.threads.chain.head?.filter fun co => (s.threads.body co).any r

/-- The thread is recorded under some session. -/
def ServiceLua.Recorded (s : ServiceLua τ) (t : Thread) : Prop :=
  ∃ k ∈ s.sessionid_coroutine.keys, s.sessionid_coroutine.lookup k = some (some t)

-- not by `inferInstance`, which may run through all of `Int64`
instance (s : ServiceLua τ) (t : Thread) : Decidable (s.Recorded t) :=
  List.decidableBEx (fun k => s.sessionid_coroutine.lookup k = some (some t)) _

/-- Nothing but these slots of the weak pool refers to their coroutines. -/
def ServiceLua.Unreferenced (s : ServiceLua τ) (slots : List ℕ) : Prop :=
  ∀ n ∈ slots, ∀ co ∈ s.co_pool.lookup n, co ∉ s.threads.chain ∧ ¬ s.Recorded (.co co)

instance (s : ServiceLua τ) (slots : List ℕ) : Decidable (s.Unreferenced slots) :=
  inferInstanceAs (Decidable (∀ n ∈ slots, ∀ co ∈ s.co_pool.lookup n, _))

inductive ServiceLua.Event (τ : Type) where
  /-- the running task or the main thread calls `server.async`; `#co_pool` is `n` -/
  | async (n : ℕ) (task : τ)
  | make_session
  | new_service
  /-- the running task yields -/
  | yield
  /-- the running task or the main thread resumes a coroutine that is suspended
  inside its task -/
  | wake (co : ℕ)
  /-- the running task returns to `invoke` -/
  | ret
  /-- `co_pool[#co_pool + 1] = co` in `invoke`; `#co_pool` is `n` -/
  | push (n : ℕ)
  /-- `coroutine.yield()` in the loop of `routine` -/
  | idle
  /-- the running task raises an error -/
  | raise
  /-- the collector clears these slots of `co_pool` -/
  | collect (slots : List ℕ)
  /-- the running task or the main thread calls `server.quit`, and `pairs` visits
  the keys in this order; when it raises, the caller may catch the error -/
  | quit (order : List Int64)

/-- One event. -/
def ServiceLua.step (s : ServiceLua τ) : ServiceLua.Event τ → Option (ServiceLua τ)
  | .async n task =>
    if s.InScript ∧ IsBorder s.co_pool n then some (s.async n task).1 else none
  | .make_session => if s.InScript then some s.make_session else none
  | .new_service => if s.InScript then some s.new_service else none
  | .yield => (s.runner Routine.inTask).map fun _ => { s with threads := s.threads.yield id }
  | .wake co =>
    if s.InScript ∧ (s.threads.body co).any Routine.inTask = true then
      (s.threads.resume co id).map fun threads => { s with threads }
    else none
  | .ret =>
    (s.runner Routine.inTask).map fun _ =>
      { s with threads := s.threads.jump fun _ => .storing }
  | .push n =>
    if IsBorder s.co_pool n then
      (s.runner Routine.isStoring).map fun co =>
        { s with co_pool := push s.co_pool n co, threads := s.threads.jump fun _ => .looping }
    else none
  | .idle =>
    (s.runner Routine.isLooping).map fun _ =>
      { s with threads := s.threads.yield fun _ => .waiting }
  | .raise => (s.runner Routine.inTask).map fun _ => { s with threads := s.threads.die }
  | .collect slots =>
    if s.Unreferenced slots then some { s with co_pool := collect s.co_pool slots } else none
  | .quit order =>
    if s.InScript ∧ order.Perm s.sessionid_coroutine.keys then some (s.quit order).1 else none

/-- The tasks that an event starts, with the coroutine each runs on. -/
def ServiceLua.starts (s : ServiceLua τ) : ServiceLua.Event τ → List (ℕ × τ)
  | .async n task => (s.async n task).2
  | _ => []

/-- The task that an event gives to `server.async`. -/
def ServiceLua.Event.tasks : ServiceLua.Event τ → List τ
  | .async _ task => [task]
  | _ => []

/-! ## 1. One event -/

/-- The running coroutine `co` is at `r`, and was resumed by the thread before
`cs`. -/
structure ServiceLua.Running (s : ServiceLua τ) (co : ℕ) (cs : List ℕ) (r : Routine τ) :
    Prop where
  chain : s.threads.chain = co :: cs
  body : s.threads.body co = some r

/-- The guard and the effect of an event. -/
def ServiceLua.StepSpec (s s' : ServiceLua τ) : ServiceLua.Event τ → Prop
  | .async n task => (s.InScript ∧ IsBorder s.co_pool n) ∧ s' = (s.async n task).1
  | .make_session => s.InScript ∧ s' = s.make_session
  | .new_service => s.InScript ∧ s' = s.new_service
  | .yield => (∃ co cs task, s.Running co cs (.calling task)) ∧
      s' = { s with threads := s.threads.yield id }
  | .wake co => s.InScript ∧ (∃ task, s.threads.body co = some (.calling task)) ∧
      ∃ threads, s.threads.resume co id = some threads ∧ s' = { s with threads }
  | .ret => (∃ co cs task, s.Running co cs (.calling task)) ∧
      s' = { s with threads := s.threads.jump fun _ => .storing }
  | .push n => IsBorder s.co_pool n ∧ ∃ co, (∃ cs, s.Running co cs .storing) ∧
      s' = { s with co_pool := push s.co_pool n co, threads := s.threads.jump fun _ => .looping }
  | .idle => (∃ co cs, s.Running co cs .looping) ∧
      s' = { s with threads := s.threads.yield fun _ => .waiting }
  | .raise => (∃ co cs task, s.Running co cs (.calling task)) ∧
      s' = { s with threads := s.threads.die }
  | .collect slots => s.Unreferenced slots ∧
      s' = { s with co_pool := collect s.co_pool slots }
  | .quit order => (s.InScript ∧ order.Perm s.sessionid_coroutine.keys) ∧ s' = (s.quit order).1

namespace ServiceLuaLemmas

theorem runner_eq_some {s : ServiceLua τ} {r : Routine τ → Bool} {co : ℕ} :
    s.runner r = some co ↔ ∃ cs b, s.Running co cs b ∧ r b = true := by
  unfold ServiceLua.runner
  rw [Option.filter_eq_some_iff]
  constructor
  · rintro ⟨hco, hb⟩
    obtain ⟨cs, hcs⟩ := List.head?_eq_some_iff.mp hco
    cases hbody : s.threads.body co with
    | none =>
      rw [hbody] at hb
      cases hb
    | some b =>
      rw [hbody] at hb
      exact ⟨cs, b, ⟨hcs, hbody⟩, hb⟩
  · rintro ⟨cs, b, ⟨hchain, hbody⟩, hr⟩
    simp [hchain, hbody, hr]

theorem runner_inTask {s : ServiceLua τ} {co : ℕ} :
    s.runner Routine.inTask = some co ↔ ∃ cs task, s.Running co cs (.calling task) := by
  rw [runner_eq_some]
  constructor
  · rintro ⟨cs, b, h, hr⟩
    cases b with
    | calling task => exact ⟨cs, task, h⟩
    | created | storing | looping | waiting => cases hr
  · rintro ⟨cs, task, h⟩
    exact ⟨cs, _, h, rfl⟩

theorem runner_isStoring {s : ServiceLua τ} {co : ℕ} :
    s.runner Routine.isStoring = some co ↔ ∃ cs, s.Running co cs .storing := by
  rw [runner_eq_some]
  constructor
  · rintro ⟨cs, b, h, hr⟩
    cases b with
    | storing => exact ⟨cs, h⟩
    | created | calling | looping | waiting => cases hr
  · rintro ⟨cs, h⟩
    exact ⟨cs, _, h, rfl⟩

theorem runner_isLooping {s : ServiceLua τ} {co : ℕ} :
    s.runner Routine.isLooping = some co ↔ ∃ cs, s.Running co cs .looping := by
  rw [runner_eq_some]
  constructor
  · rintro ⟨cs, b, h, hr⟩
    cases b with
    | looping => exact ⟨cs, h⟩
    | created | calling | storing | waiting => cases hr
  · rintro ⟨cs, h⟩
    exact ⟨cs, _, h, rfl⟩

theorem any_inTask {b : Option (Routine τ)} :
    b.any Routine.inTask = true ↔ ∃ task, b = some (.calling task) := by
  cases b with
  | none => simp
  | some r => cases r <;> simp [Routine.inTask]

end ServiceLuaLemmas

open ServiceLuaLemmas

theorem ServiceLua.step_spec {s s' : ServiceLua τ} {e : ServiceLua.Event τ} :
    s.step e = some s' ↔ s.StepSpec s' e := by
  cases e with
  | async n task | make_session | new_service | collect slots | quit order =>
    simp only [step, StepSpec, Option.ite_none_right_eq_some, Option.some.injEq]
    exact and_congr_right fun _ => eq_comm
  | yield | ret | raise =>
    simp only [step, StepSpec, Option.map_eq_some_iff, runner_inTask, exists_and_right]
    exact and_congr_right fun _ => eq_comm
  | idle =>
    simp only [step, StepSpec, Option.map_eq_some_iff, runner_isLooping, exists_and_right]
    exact and_congr_right fun _ => eq_comm
  | push n =>
    simp only [step, StepSpec, Option.ite_none_right_eq_some, Option.map_eq_some_iff,
      runner_isStoring]
    exact and_congr_right fun _ => exists_congr fun _ => and_congr_right fun _ => eq_comm
  | wake co =>
    simp only [step, StepSpec, Option.ite_none_right_eq_some, Option.map_eq_some_iff, any_inTask,
      and_assoc]
    exact and_congr_right fun _ => and_congr_right fun _ => exists_congr fun _ =>
      and_congr_right fun _ => eq_comm

/-! ## 2. `server.async` -/

/-- The coroutine is suspended at the yield of the loop of `routine`. -/
structure ServiceLua.Idle (s : ServiceLua τ) (co : ℕ) : Prop where
  status : s.threads.status (.co co) = .suspended
  body : s.threads.body co = some .waiting

instance (s : ServiceLua τ) [DecidableEq τ] (co : ℕ) : Decidable (s.Idle co) :=
  decidable_of_iff
    (s.threads.status (.co co) = .suspended ∧ s.threads.body co = some .waiting)
    ⟨fun h => ⟨h.1, h.2⟩, fun h => ⟨h.status, h.body⟩⟩

/-- `server.async` took `co` from the pool, or created it, and it runs the task. -/
structure ServiceLua.Started (s s' : ServiceLua τ) (n co : ℕ) (task : τ) : Prop where
  chosen : s.co_pool.lookup n = some co ∨
    (s.co_pool.lookup n = none ∧ co = s.threads.bodies.length)
  uid : s'.uid = s.uid
  sessions : s'.sessionid_coroutine = s.sessionid_coroutine
  pool : s'.co_pool = s.co_pool.erase n
  chain : s'.threads.chain = co :: s.threads.chain
  body : ∀ d, s'.threads.body d = if d = co then some (.calling task) else s.threads.body d

namespace ServiceLuaLemmas

/-- A suspended coroutine that is at its start or at the yield of its loop starts
the task it receives. -/
theorem resume_starts {s : ServiceLua τ} {co : ℕ} {r : Routine τ} (task : τ)
    (hs : s.threads.status (.co co) = .suspended) (hbody : s.threads.body co = some r)
    (hr : r.starts = true) :
    ∃ threads, s.resume co task = ({ s with threads }, [(co, task)]) ∧
      threads.chain = co :: s.threads.chain ∧
      ∀ d, threads.body d = if d = co then some (.calling task) else s.threads.body d := by
  cases hres : s.threads.resume co (Routine.receive task) with
  | none => exact absurd hs (resume_eq_none.mp hres)
  | some threads =>
    obtain ⟨_, hchain, hb⟩ := Coroutines.resume_spec hres
    refine ⟨threads, ?_, hchain, fun d => ?_⟩
    · simp [ServiceLua.resume, hres, hbody, hr]
    · rw [hb d]
      split
      · next hd =>
        rw [hd, hbody]
        cases r with
        | created | waiting => rfl
        | calling | storing | looping => cases hr
      · rfl

end ServiceLuaLemmas

/-- When the entry at the border, if there is one, is idle, the task starts at
once and on no other coroutine. -/
theorem ServiceLua.async_idle {s : ServiceLua τ} {n : ℕ} (task : τ)
    (h : ∀ co, s.co_pool.lookup n = some co → s.Idle co) :
    ∃ s' co, s.async n task = (s', [(co, task)]) ∧ s.Started s' n co task := by
  unfold ServiceLua.async SparseTable.remove
  cases hn : s.co_pool.lookup n with
  | some co =>
    obtain ⟨threads, heq, hchain, hbody⟩ :=
      resume_starts (s := { s with co_pool := s.co_pool.erase n }) task (h co hn).status
        (h co hn).body rfl
    exact ⟨_, co, heq, ⟨Or.inl hn, rfl, rfl, rfl, hchain, hbody⟩⟩
  | none =>
    obtain ⟨threads, heq, hchain, hbody⟩ :=
      resume_starts (s := { s with
          co_pool := s.co_pool.erase n, threads := s.threads.create .created }) task
        (status_create_self _) (by rw [body_create, if_pos rfl]) rfl
    refine ⟨_, _, heq, ⟨Or.inr ⟨hn, rfl⟩, rfl, rfl, rfl, hchain, fun d => ?_⟩⟩
    rw [hbody d, body_create]
    split <;> rfl

/-- When the entry at the border is not suspended, `coroutine.resume` returns
`false` and the task is lost. -/
theorem ServiceLua.async_dead {s : ServiceLua τ} {n co : ℕ} (task : τ)
    (hn : s.co_pool.lookup n = some co) (h : s.threads.status (.co co) ≠ .suspended) :
    s.async n task = ({ s with co_pool := s.co_pool.erase n }, []) := by
  unfold ServiceLua.async SparseTable.remove
  rw [hn]
  simp only [ServiceLua.resume, resume_eq_none.mpr h]

/-! ## 3. It can be called -/

theorem ServiceLua.async_enabled {s : ServiceLua τ} (h : s.InScript) (task : τ) :
    ∃ n s', s.step (.async n task) = some s' := by
  obtain ⟨n, hn⟩ := exists_border s.co_pool
  exact ⟨n, _, step_spec.mpr ⟨⟨h, hn⟩, rfl⟩⟩

end LuaRobot
