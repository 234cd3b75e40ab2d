import Mathlib.Data.List.Induction
import LuaRobot.Runs

/-!
# First in, first out

A queue that several threads push to and pop from, one call at a time. A history
is fed when every pop comes after more pushes than pops.

Results:
1. `run_fifo`: on a fed history a FIFO queue pops what was pushed, in order, and
   holds the rest.
-/

namespace Fifo

open Runs

variable {ι T : Type*}

/-! ## Definitions -/

/-- A call of thread `p`. -/
inductive Event (ι T : Type*) where
  | push (p : ι) (msg : T)
  | pop (p : ι)

def Event.msg : Event ι T → Option T
  | .push _ msg => some msg
  | .pop _ => none

def Event.isPop : Event ι T → Bool
  | .push .. => false
  | .pop _ => true

/-- What a history pushes, oldest first. -/
def pushed (es : List (Event ι T)) : List T := es.filterMap Event.msg

/-- How often a history pops. -/
def pops (es : List (Event ι T)) : ℕ := es.countP Event.isPop

/-- Whenever the history pops, it has pushed more than it has popped. -/
def Fed (es : List (Event ι T)) : Prop :=
  ∀ k < es.length, es[k]?.any Event.isPop = true → pops (es.take k) < (pushed (es.take k)).length

instance (es : List (Event ι T)) : Decidable (Fed es) :=
  inferInstanceAs (Decidable (∀ k < es.length, _ → _))

/-- A FIFO queue, front first. -/
def step : List T → Event ι T → Option (List T)
  | q, .push _ msg => some (q ++ [msg])
  | [], .pop _ => none
  | _ :: q, .pop _ => some q

/-- What a call returns. -/
def popped (q : List T) : Event ι T → List T
  | .push .. => []
  | .pop _ => q.head?.toList

namespace FifoLemmas

theorem pushed_push (es : List (Event ι T)) (p : ι) (msg : T) :
    pushed (es ++ [.push p msg]) = pushed es ++ [msg] := by
  simp [pushed, Event.msg]

theorem pushed_pop (es : List (Event ι T)) (p : ι) : pushed (es ++ [.pop p]) = pushed es := by
  simp [pushed, Event.msg]

theorem pops_push (es : List (Event ι T)) (p : ι) (msg : T) :
    pops (es ++ [.push p msg]) = pops es := by
  simp [pops, Event.isPop]

theorem pops_pop (es : List (Event ι T)) (p : ι) : pops (es ++ [.pop p]) = pops es + 1 := by
  simp [pops, Event.isPop]

theorem fed_init {es : List (Event ι T)} {e : Event ι T} (h : Fed (es ++ [e])) : Fed es := by
  intro k hk hpop
  have hlast := h k (by rw [List.length_append]; omega)
  rw [List.getElem?_append_left hk, List.take_append_of_le_length (Nat.le_of_lt hk)] at hlast
  exact hlast hpop

theorem fed_last {es : List (Event ι T)} {p : ι} (h : Fed (es ++ [.pop p])) :
    pops es < (pushed es).length := by
  simpa [Event.isPop] using h es.length (by simp)

theorem pops_le {es : List (Event ι T)} (h : Fed es) : pops es ≤ (pushed es).length := by
  induction es using List.reverseRecOn with
  | nil => exact Nat.le_refl _
  | append_singleton es e ih =>
    cases e with
    | push p msg =>
      rw [pops_push, pushed_push, List.length_append]
      exact Nat.le_trans (ih (fed_init h)) (Nat.le_add_right ..)
    | pop p =>
      rw [pops_pop, pushed_pop]
      exact fed_last h

end FifoLemmas

open FifoLemmas

/-! ## 1. A FIFO queue -/

theorem run_fifo {es : List (Event ι T)} (h : Fed es) :
    run step [] es = some ((pushed es).drop (pops es)) ∧
      observe step popped [] es = (pushed es).take (pops es) := by
  induction es using List.reverseRecOn with
  | nil => exact ⟨rfl, rfl⟩
  | append_singleton es e ih =>
    obtain ⟨hrun, hout⟩ := ih (fed_init h)
    rw [run_append_eq _ hrun, observe_snoc _ _ hrun, hout]
    cases e with
    | push p msg =>
      have hle := pops_le (fed_init h)
      rw [pushed_push, pops_push, List.drop_append_of_le_length hle,
        List.take_append_of_le_length hle]
      exact ⟨rfl, List.append_nil _⟩
    | pop p =>
      -- the front is the first element that was not popped yet
      have hlt := fed_last h
      rw [pushed_pop, pops_pop, List.drop_eq_getElem_cons hlt, List.take_succ_eq_append_getElem hlt]
      exact ⟨rfl, rfl⟩

end Fifo
