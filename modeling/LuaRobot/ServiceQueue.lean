import LuaRobot.Fifo

/-!
# The message queue of a service

`ServiceQueue` (`src_cpp/common.h`). Its mutex makes each call atomic, so a run
is a sequence of calls. `pop` returns the front and leaves it where it is.

Results:
1. `run_serviceQueue`: the queue keeps all that was pushed, and every pop returns
   the first of it.
2. `service_queue`: it is a FIFO queue in the runs whose popped messages are
   equal, and in no others.
-/

namespace LuaRobot

open Runs Fifo FifoLemmas

variable {ι T : Type*}

/-! ## Definitions -/

/-- `msgQueue` is a `std::queue<T>`, front first. -/
structure ServiceQueue (T : Type*) where
  msgQueue : List T := []
deriving DecidableEq

def ServiceQueue.push (q : ServiceQueue T) (msg : T) : ServiceQueue T :=
  { q with msgQueue := q.msgQueue ++ [msg] }

/-- `front()` of an empty queue is not defined. -/
def ServiceQueue.pop (q : ServiceQueue T) : Option (T × ServiceQueue T) :=
  match q.msgQueue with
  | [] => none
  | msg :: _ => some (msg, q)

/-- One call. -/
def ServiceQueue.step (q : ServiceQueue T) : Fifo.Event ι T → Option (ServiceQueue T)
  | .push _ msg => some (q.push msg)
  | .pop _ => q.pop.map Prod.snd

/-- What a call returns. -/
def ServiceQueue.popped (q : ServiceQueue T) : Fifo.Event ι T → List T
  | .push .. => []
  | .pop _ => (q.pop.map Prod.fst).toList

/-! ## 1. What the queue does -/

/-- On a fed run every call is defined, all that was pushed stays in the queue,
and each pop returns the front. -/
theorem run_serviceQueue {es : List (Fifo.Event ι T)} (h : Fed es) :
    run ServiceQueue.step {} es = some ⟨pushed es⟩ ∧
      (observe ServiceQueue.step ServiceQueue.popped {} es).length = pops es ∧
      ∀ msg ∈ observe ServiceQueue.step ServiceQueue.popped {} es,
        (pushed es).head? = some msg := by
  induction es using List.reverseRecOn with
  | nil => exact ⟨rfl, rfl, fun _ hmsg => absurd hmsg List.not_mem_nil⟩
  | append_singleton es e ih =>
    obtain ⟨hrun, hlen, hout⟩ := ih (fed_init h)
    rw [run_append_eq _ hrun, observe_snoc _ _ hrun]
    cases e with
    | push p msg =>
      rw [pushed_push, pops_push, show ServiceQueue.popped _ (.push p msg) = [] from rfl,
        List.append_nil]
      refine ⟨rfl, hlen, fun m hm => ?_⟩
      rw [List.head?_append, hout m hm, Option.some_or]
    | pop p =>
      rw [pushed_pop, pops_pop]
      cases hpushed : pushed es with
      | nil =>
        have hlt := fed_last h
        rw [hpushed] at hlt
        exact absurd hlt (Nat.not_lt_zero _)
      | cons msg rest =>
        rw [show ServiceQueue.popped ⟨msg :: rest⟩ (.pop p : Fifo.Event ι T) = [msg] from rfl,
          List.length_append, hlen]
        refine ⟨rfl, rfl, fun m hm => ?_⟩
        rcases List.mem_append.mp hm with hm | hm
        · exact hpushed ▸ hout m hm
        · rw [List.mem_singleton.mp hm, List.head?_cons]

/-! ## 2. Where it is a FIFO queue -/

namespace ServiceQueueLemmas

variable {out p : List T} {k : ℕ}

/-- Two lists of one length whose elements are all the head of the second. -/
theorem eq_take_iff (hlen : out.length = k) (hk : k ≤ p.length)
    (hout : ∀ msg ∈ out, p.head? = some msg) :
    out = p.take k ↔ ∀ msg ∈ p.take k, p.head? = some msg := by
  constructor
  · rintro rfl
    exact hout
  · intro hp
    refine List.ext_getElem (by rw [hlen, List.length_take, Nat.min_eq_left hk]) fun n hn hn' => ?_
    exact Option.some.inj ((hout _ (List.getElem_mem hn)).symm.trans (hp _ (List.getElem_mem hn')))

theorem nth_iff_eq_take (hlen : out.length = k) :
    (∀ (n : ℕ) msg, out[n]? = some msg → p[n]? = some msg) ↔ out = p.take k := by
  rw [← hlen, ← List.prefix_iff_eq_take, List.prefix_iff_getElem?]
  constructor
  · exact fun h n hn => h n _ (List.getElem?_eq_getElem hn)
  · intro h n msg hmsg
    obtain ⟨hn, rfl⟩ := List.getElem?_eq_some_iff.mp hmsg
    exact h n hn

end ServiceQueueLemmas

open ServiceQueueLemmas

/-- Over a run in which each pop comes after more pushes than pops: the pops
return what a FIFO queue returns, the `n`-th the message of the `n`-th push,
exactly when the messages that such a queue hands out are all the same as the
first. -/
theorem service_queue {es : List (Fifo.Event ι T)} (h : Fed es) :
    ((∀ (n : ℕ) msg, (observe ServiceQueue.step ServiceQueue.popped {} es)[n]? = some msg →
        (pushed es)[n]? = some msg) ↔
      ∀ msg ∈ (pushed es).take (pops es), (pushed es).head? = some msg) ∧
    (observe ServiceQueue.step ServiceQueue.popped {} es = observe Fifo.step Fifo.popped [] es ↔
      ∀ msg ∈ (pushed es).take (pops es), (pushed es).head? = some msg) := by
  obtain ⟨_, hlen, hout⟩ := run_serviceQueue h
  have htake := eq_take_iff hlen (pops_le h) hout
  constructor
  · rw [nth_iff_eq_take hlen, htake]
  · rw [(run_fifo h).2, htake]

/-- The first two messages are the same, and so two pops return what they should;
the third pop would not. -/
theorem service_queue_twice :
    ∃ es : List (Fifo.Event ℕ ℕ),
      es = [.push 0 7, .push 1 7, .push 0 9, .pop 2, .pop 2] ∧
      observe ServiceQueue.step ServiceQueue.popped {} es = observe Fifo.step Fifo.popped [] es :=
  ⟨_, rfl, (service_queue (by decide)).2.mpr (by decide)⟩

/-- The second of two pops returns the first message again, and the second
message stays. -/
theorem secondPop_repeats :
    ∃ es : List (Fifo.Event ℕ ℕ), es = [.push 0 7, .push 0 8, .pop 1, .pop 1] ∧ Fed es ∧
      run ServiceQueue.step {} es = some ⟨[7, 8]⟩ ∧
      observe ServiceQueue.step ServiceQueue.popped {} es = [7, 7] ∧
      ¬ ∀ (n : ℕ) msg, (observe ServiceQueue.step ServiceQueue.popped {} es)[n]? = some msg →
        (pushed es)[n]? = some msg := by
  refine ⟨_, rfl, by decide, rfl, rfl, fun h => ?_⟩
  exact absurd (h 1 7 rfl) (by decide)

end LuaRobot
