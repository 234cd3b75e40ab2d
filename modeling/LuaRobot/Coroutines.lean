import Mathlib.Data.List.Nodup

/-!
# Asymmetric coroutines

The main thread and the coroutines it has created, numbered in the order of
their creation. A coroutine is at some point of its body, or dead. `chain` lists
the coroutines that were resumed and have not come back, the running one first;
the main thread is below the last. A coroutine in the chain is alive and is
there once.

Results:
1. `status_eq_suspended`, `status_eq_dead`, `status_eq_normal`: the four
   statuses, by the chain and the body.
2. `body_create`, `body_resume`, `body_jump`, `body_yield`, `body_die`: what each
   operation does to the bodies.
3. `close_spec`, `close_eq_none`, `status_close`: closing a thread kills it or
   raises.
-/

namespace Coroutines

/-! ## Definitions -/

inductive Thread where
  | main
  | co (c : ℕ)
deriving DecidableEq

inductive Status where
  | running
  | suspended
  | normal
  | dead
deriving DecidableEq

/-- `bodies[c]` is where coroutine `c` is in its body, `none` when it is dead. -/
structure World (β : Type*) where
  bodies : List (Option β)
  chain : List ℕ
  alive : ∀ c ∈ chain, (bodies[c]?).join.isSome = true
  nodup : chain.Nodup

variable {β : Type*}

def World.body (w : World β) (c : ℕ) : Option β := (w.bodies[c]?).join

/-- `coroutine.running()`. -/
def World.current (w : World β) : Thread :=
  match w.chain with
  | [] => .main
  | c :: _ => .co c

/-- `coroutine.status`. -/
def World.status (w : World β) : Thread → Status
  | .main => if w.chain = [] then .running else .normal
  | .co c =>
    if c ∈ w.chain then if w.chain.head? = some c then .running else .normal
    else if (w.body c).isSome then .suspended else .dead

theorem alive_modify {bodies : List (Option β)} {c d : ℕ} {f : β → β}
    (h : (bodies[d]?).join.isSome = true) :
    ((bodies.modify c (Option.map f))[d]?).join.isSome = true := by
  rw [List.getElem?_modify]
  cases hd : bodies[d]? with
  | none => simp [hd] at h
  | some b =>
    rw [hd] at h
    by_cases hcd : c = d <;> simp_all

theorem alive_set_none {bodies : List (Option β)} {c d : ℕ} (hcd : d ≠ c)
    (h : (bodies[d]?).join.isSome = true) :
    (((bodies.set c none))[d]?).join.isSome = true := by
  rwa [List.getElem?_set_ne (Ne.symm hcd)]

/-- `coroutine.create`: a new coroutine at `b`, numbered `bodies.length`. -/
def World.create (w : World β) (b : β) : World β where
  bodies := w.bodies ++ [some b]
  chain := w.chain
  alive := by
    intro c hc
    have h := w.alive c hc
    by_cases hlt : c < w.bodies.length
    · rwa [List.getElem?_append_left hlt]
    · simp [List.getElem?_eq_none (Nat.le_of_not_lt hlt)] at h
  nodup := w.nodup

/-- `coroutine.resume` of coroutine `c`, whose body takes what is passed to it
with `f`; `none` when `c` is not suspended. -/
def World.resume (w : World β) (c : ℕ) (f : β → β) : Option (World β) :=
  if h : w.status (.co c) = .suspended then
    some {
      bodies := w.bodies.modify c (Option.map f)
      chain := c :: w.chain
      alive := by
        simp only [World.status] at h
        intro d hd
        refine alive_modify ?_
        rcases List.mem_cons.mp hd with rfl | hd
        · split at h
          · split at h <;> cases h
          · split at h
            · assumption
            · cases h
        · exact w.alive d hd
      nodup := by
        refine List.nodup_cons.mpr ⟨fun hc => ?_, w.nodup⟩
        simp only [World.status, hc, if_true] at h
        split at h <;> cases h }
  else none

/-- The running coroutine goes on to `f` of its body. -/
def World.jump (w : World β) (f : β → β) : World β :=
  match h : w.chain with
  | [] => w
  | c :: cs =>
    { bodies := w.bodies.modify c (Option.map f)
      chain := c :: cs
      alive := fun d hd => alive_modify (w.alive d (h ▸ hd))
      nodup := h ▸ w.nodup }

/-- `coroutine.yield` in the running coroutine, at `f` of its body. -/
def World.yield (w : World β) (f : β → β) : World β :=
  match h : w.chain with
  | [] => w
  | c :: cs =>
    { bodies := w.bodies.modify c (Option.map f)
      chain := cs
      alive := fun d hd => alive_modify (w.alive d (h ▸ List.mem_cons_of_mem c hd))
      nodup := (List.nodup_cons.mp (h ▸ w.nodup)).2 }

/-- The running coroutine ends. -/
def World.die (w : World β) : World β :=
  match h : w.chain with
  | [] => w
  | c :: cs =>
    { bodies := w.bodies.set c none
      chain := cs
      alive := fun d hd => alive_set_none
        (fun hdc => (List.nodup_cons.mp (h ▸ w.nodup)).1 (hdc ▸ hd))
        (w.alive d (h ▸ List.mem_cons_of_mem c hd))
      nodup := (List.nodup_cons.mp (h ▸ w.nodup)).2 }

/-- `coroutine.close`, `none` when it raises. -/
def World.close (w : World β) (t : Thread) : Option (World β) :=
  match t with
  | .main => none
  | .co c =>
    if h : c ∈ w.chain then none
    else some {
      bodies := w.bodies.set c none
      chain := w.chain
      alive := fun d hd => alive_set_none (fun hdc => h (hdc ▸ hd)) (w.alive d hd)
      nodup := w.nodup }

variable {w w' : World β} {c d : ℕ} {t u : Thread}

/-! ## 1. Statuses -/

theorem status_eq_running : w.status t = .running ↔ t = w.current := by
  unfold World.status World.current
  cases t with
  | main => cases w.chain <;> simp
  | co c =>
    cases hw : w.chain with
    | nil =>
      simp only [List.not_mem_nil, if_false, reduceCtorEq, iff_false]
      split <;> simp
    | cons c' cs =>
      by_cases hc : c = c'
      · subst hc
        simp
      · simp only [List.head?_cons, Option.some.injEq, Thread.co.injEq, hc, Ne.symm hc]
        split
        · simp
        · split <;> simp

theorem status_eq_suspended :
    w.status (.co c) = .suspended ↔ c ∉ w.chain ∧ (w.body c).isSome = true := by
  unfold World.status
  by_cases hc : c ∈ w.chain
  · simp only [hc, if_true, not_true_eq_false, false_and, iff_false]
    split <;> simp
  · simp only [hc, if_false, not_false_eq_true, true_and]
    split <;> simp_all

theorem status_eq_dead : w.status (.co c) = .dead ↔ c ∉ w.chain ∧ w.body c = none := by
  unfold World.status
  by_cases hc : c ∈ w.chain
  · simp only [hc, if_true, not_true_eq_false, false_and, iff_false]
    split <;> simp
  · simp only [hc, if_false, not_false_eq_true, true_and]
    cases w.body c <;> simp

/-- The main thread is in no third state. -/
theorem status_main : w.status .main = .running ∨ w.status .main = .normal := by
  simp only [World.status]
  split
  · exact Or.inl rfl
  · exact Or.inr rfl

/-- A thread in the chain is running or normal. -/
theorem status_of_mem (h : c ∈ w.chain) :
    w.status (.co c) = .running ∨ w.status (.co c) = .normal := by
  simp only [World.status, h, if_true]
  split
  · exact Or.inl rfl
  · exact Or.inr rfl

theorem status_of_not_mem (h : c ∉ w.chain) :
    w.status (.co c) = .suspended ∨ w.status (.co c) = .dead := by
  simp only [World.status, h, if_false]
  split
  · exact Or.inl rfl
  · exact Or.inr rfl

theorem status_eq_normal : w.status t = .normal ↔
    (t = .main ∨ ∃ c ∈ w.chain, t = .co c) ∧ t ≠ w.current := by
  constructor
  · intro h
    refine ⟨?_, fun hcur => ?_⟩
    · cases t with
      | main => exact Or.inl rfl
      | co c =>
        by_cases hc : c ∈ w.chain
        · exact Or.inr ⟨c, hc, rfl⟩
        · rcases status_of_not_mem hc with hs | hs <;> cases hs.symm.trans h
    · cases (status_eq_running.mpr hcur).symm.trans h
  · rintro ⟨rfl | ⟨c, hc, rfl⟩, hcur⟩
    · exact status_main.resolve_left fun h => hcur (status_eq_running.mp h)
    · exact (status_of_mem hc).resolve_left fun h => hcur (status_eq_running.mp h)

/-- The statuses follow from the chain and the bodies. -/
theorem status_congr (hchain : w'.chain = w.chain) (hbody : ∀ c, t = .co c → w'.body c = w.body c) :
    w'.status t = w.status t := by
  cases t with
  | main => simp [World.status, hchain]
  | co c => simp [World.status, hchain, hbody c rfl]

theorem current_congr (hchain : w'.chain = w.chain) : w'.current = w.current := by
  simp [World.current, hchain]

/-! ## 2. The operations -/

theorem body_create (b : β) :
    (w.create b).body d = if d = w.bodies.length then some b else w.body d := by
  unfold World.body World.create
  rcases Nat.lt_trichotomy d w.bodies.length with h | h | h
  · rw [List.getElem?_append_left h, if_neg (Nat.ne_of_lt h)]
  · subst h
    simp
  · rw [if_neg (Nat.ne_of_gt h), List.getElem?_eq_none (by simp; omega),
      List.getElem?_eq_none (Nat.le_of_lt h)]

theorem lt_of_body {b : β} (h : w.body c = some b) : c < w.bodies.length := by
  by_contra hc
  simp [World.body, List.getElem?_eq_none (Nat.le_of_not_lt hc)] at h

theorem status_create_self (b : β) :
    (w.create b).status (.co w.bodies.length) = .suspended := by
  refine status_eq_suspended.mpr ⟨fun hmem => ?_, by simp [body_create]⟩
  have h := w.alive _ hmem
  simp at h

theorem body_modify (bodies : List (Option β)) (f : β → β) :
    ((bodies.modify c (Option.map f))[d]?).join =
      if d = c then ((bodies[d]?).join).map f else (bodies[d]?).join := by
  rw [List.getElem?_modify]
  by_cases hcd : c = d
  · subst hcd
    cases bodies[c]? <;> simp
  · simp [hcd, Ne.symm hcd]

theorem body_set_none (bodies : List (Option β)) :
    ((bodies.set c none)[d]?).join = if d = c then none else (bodies[d]?).join := by
  rw [List.getElem?_set]
  by_cases hcd : c = d
  · subst hcd
    simp only [if_true]
    split <;> rfl
  · simp [hcd, Ne.symm hcd]

theorem resume_eq_none {f : β → β} : w.resume c f = none ↔ w.status (.co c) ≠ .suspended := by
  unfold World.resume
  split <;> simp_all

theorem resume_spec {f : β → β} (h : w.resume c f = some w') :
    w.status (.co c) = .suspended ∧ w'.chain = c :: w.chain ∧
      ∀ d, w'.body d = if d = c then (w.body d).map f else w.body d := by
  unfold World.resume at h
  split at h
  · next hs =>
    cases h
    exact ⟨hs, rfl, fun d => body_modify w.bodies f⟩
  · cases h

theorem jump_spec {cs : List ℕ} (f : β → β) (h : w.chain = c :: cs) :
    (w.jump f).chain = c :: cs ∧
      ∀ d, (w.jump f).body d = if d = c then (w.body d).map f else w.body d := by
  unfold World.jump
  split
  · next hn => cases hn.symm.trans h
  · next hc =>
    cases hc.symm.trans h
    exact ⟨rfl, fun d => body_modify w.bodies f⟩

theorem yield_spec {cs : List ℕ} (f : β → β) (h : w.chain = c :: cs) :
    (w.yield f).chain = cs ∧
      ∀ d, (w.yield f).body d = if d = c then (w.body d).map f else w.body d := by
  unfold World.yield
  split
  · next hn => cases hn.symm.trans h
  · next hc =>
    cases hc.symm.trans h
    exact ⟨rfl, fun d => body_modify w.bodies f⟩

theorem die_spec {cs : List ℕ} (h : w.chain = c :: cs) :
    w.die.chain = cs ∧ ∀ d, w.die.body d = if d = c then none else w.body d := by
  unfold World.die
  split
  · next hn => cases hn.symm.trans h
  · next hc =>
    cases hc.symm.trans h
    exact ⟨rfl, fun d => body_set_none w.bodies⟩

/-- The body of `c` goes on from `b`. -/
theorem body_map {b : β} (h : w.body c = some b) (f : β → β) (d : ℕ) :
    (if d = c then (w.body d).map f else w.body d) = if d = c then some (f b) else w.body d := by
  split
  · next hd => rw [hd, h, Option.map_some]
  · rfl

theorem length_create (b : β) : (w.create b).bodies.length = w.bodies.length + 1 :=
  List.length_append

theorem length_resume {f : β → β} (h : w.resume c f = some w') :
    w'.bodies.length = w.bodies.length := by
  unfold World.resume at h
  split at h
  · cases h
    exact List.length_modify ..
  · cases h

theorem length_jump (f : β → β) : (w.jump f).bodies.length = w.bodies.length := by
  unfold World.jump
  split
  · rfl
  · exact List.length_modify ..

theorem length_yield (f : β → β) : (w.yield f).bodies.length = w.bodies.length := by
  unfold World.yield
  split
  · rfl
  · exact List.length_modify ..

theorem length_die : w.die.bodies.length = w.bodies.length := by
  unfold World.die
  split
  · rfl
  · exact List.length_set ..

/-! ## 3. Closing -/

theorem close_eq_none : w.close t = none ↔ w.status t = .running ∨ w.status t = .normal := by
  cases t with
  | main => simpa [World.close] using status_main (w := w)
  | co c =>
    by_cases hc : c ∈ w.chain
    · simpa [World.close, hc] using status_of_mem hc
    · rcases status_of_not_mem hc with h | h <;> simp [World.close, hc, h]

theorem close_spec (h : w.close t = some w') :
    w'.chain = w.chain ∧ ∃ c, t = .co c ∧ c ∉ w.chain ∧
      ∀ d, w'.body d = if d = c then none else w.body d := by
  cases t with
  | main => cases h
  | co c =>
    simp only [World.close] at h
    split at h
    · cases h
    · next hc =>
      cases h
      exact ⟨rfl, c, rfl, hc, fun d => body_set_none w.bodies⟩

theorem length_close (h : w.close t = some w') : w'.bodies.length = w.bodies.length := by
  cases t with
  | main => cases h
  | co c =>
    simp only [World.close] at h
    split at h
    · cases h
    · cases h
      exact List.length_set ..

/-- Closing kills the thread and leaves the others as they are. -/
theorem status_close (h : w.close t = some w') (u : Thread) :
    w'.status u = if u = t then .dead else w.status u := by
  obtain ⟨hchain, c, rfl, hc, hbody⟩ := close_spec h
  cases u with
  | main => simp [World.status, hchain]
  | co d =>
    by_cases hd : d = c
    · subst hd
      rw [if_pos rfl]
      exact status_eq_dead.mpr ⟨hchain ▸ hc, by rw [hbody, if_pos rfl]⟩
    · simp [World.status, hchain, hbody, hd]

end Coroutines
