import Mathlib.Data.List.Basic

/-!
# Runs of a partial step function

A system is a state type `σ`, an event type `ε` and a partial step
`step : σ → ε → Option σ`: `none` means that the event is not enabled. An event
carries every choice the environment makes, so a run is determined by its
events.

Results:
1. `run_append`, `run_snoc`: runs compose.
2. `run_rule`: the induction rule. A relation between the state and what was
   observed so far, kept by every step that meets a condition, holds at the end
   of every run whose steps all meet it. `run_invariant` and `run_observes` are
   its two common cases; `exists_moment` finds the moment that a quantity comes from.
3. `meets_iff`: "every step of the run meets `G`", said by prefixes.
4. `run_project`: a run of a system is a run of the system it refines.
5. `countP_le_of_rank`, `length_le_of_rank`, `exists_run_to`: steps that lower a rank
   come to an end, and where one is always possible they come to the goal.
6. `run_simulates`: a system that matches every step of another matches its runs.
-/

namespace Runs

variable {σ ε ο : Type*} {step : σ → ε → Option σ}

/-! ## Definitions -/

/-- The state after the events, `none` if one of them is not enabled. -/
def run (step : σ → ε → Option σ) : σ → List ε → Option σ
  | s, [] => some s
  | s, e :: es => (step s e).bind fun s' => run step s' es

/-- What is observed along a run, oldest first. -/
def observe (step : σ → ε → Option σ) (o : σ → ε → List ο) : σ → List ε → List ο
  | _, [] => []
  | s, e :: es => o s e ++ (step s e).elim [] fun s' => observe step o s' es

/-- Every step of the run meets the condition `G` in the state it is taken in. -/
def Meets (step : σ → ε → Option σ) (G : σ → ε → Prop) : σ → List ε → Prop
  | _, [] => True
  | s, e :: es => G s e ∧ ∀ s', step s e = some s' → Meets step G s' es

instance decidableMeets (step : σ → ε → Option σ) (G : σ → ε → Prop) [∀ s e, Decidable (G s e)] :
    (s : σ) → (es : List ε) → Decidable (Meets step G s es)
  | _, [] => isTrue trivial
  | s, e :: es =>
    match h : step s e with
    | none => decidable_of_iff (G s e) (by simp [Meets, h])
    | some s' =>
      have := decidableMeets step G s' es
      decidable_of_iff (G s e ∧ Meets step G s' es) (by simp [Meets, h])

/-! ## 1. Composition -/

@[simp] theorem run_nil (s : σ) : run step s [] = some s := rfl

theorem run_cons (s : σ) (e : ε) (es : List ε) :
    run step s (e :: es) = (step s e).bind fun s' => run step s' es := rfl

theorem run_cons_eq {s s' : σ} {e : ε} (es : List ε) (h : step s e = some s') :
    run step s (e :: es) = run step s' es := by
  rw [run_cons, h, Option.bind_some]

theorem run_append (s : σ) (es fs : List ε) :
    run step s (es ++ fs) = (run step s es).bind fun s' => run step s' fs := by
  induction es generalizing s with
  | nil => rfl
  | cons e es ih =>
    rw [List.cons_append, run_cons, run_cons, Option.bind_assoc]
    exact congrArg _ (funext ih)

theorem run_append_eq {s s' : σ} {es : List ε} (fs : List ε) (h : run step s es = some s') :
    run step s (es ++ fs) = run step s' fs := by
  rw [run_append, h, Option.bind_some]

theorem run_snoc {s s' : σ} {es : List ε} {e : ε} :
    run step s (es ++ [e]) = some s' ↔ ∃ t, run step s es = some t ∧ step t e = some s' := by
  simp [run_append, run_cons, Option.bind_eq_some_iff]

theorem run_prefix {s s' : σ} {es fs : List ε} (h : run step s (es ++ fs) = some s') :
    ∃ t, run step s es = some t ∧ run step t fs = some s' := by
  rwa [run_append, Option.bind_eq_some_iff] at h

theorem observe_append {s s' : σ} {es : List ε} (fs : List ε) (o : σ → ε → List ο)
    (h : run step s es = some s') :
    observe step o s (es ++ fs) = observe step o s es ++ observe step o s' fs := by
  induction es generalizing s with
  | nil =>
    cases h
    rfl
  | cons e es ih =>
    obtain ⟨t, ht, hrest⟩ := Option.bind_eq_some_iff.mp h
    simp only [List.cons_append, observe, ht, Option.elim_some, ih hrest, List.append_assoc]

theorem observe_snoc {s t : σ} {es : List ε} (e : ε) (o : σ → ε → List ο)
    (h : run step s es = some t) :
    observe step o s (es ++ [e]) = observe step o s es ++ o t e := by
  rw [observe_append _ _ h, observe]
  cases step t e <;> simp [observe]

theorem run_one (s : σ) (e : ε) : run step s [e] = step s e := Option.bind_fun_some _

theorem observe_one (s : σ) (e : ε) (o : σ → ε → List ο) : observe step o s [e] = o s e :=
  observe_snoc e o (run_nil s)

theorem observe_eq_nil {o : σ → ε → List ο} {es : List ε} (h : ∀ e ∈ es, ∀ s, o s e = []) (s : σ) :
    observe step o s es = [] := by
  induction es generalizing s with
  | nil => rfl
  | cons e es ih =>
    rw [observe, h e List.mem_cons_self]
    cases step s e with
    | none => rfl
    | some s' => exact ih (fun f hf => h f (List.mem_cons_of_mem e hf)) s'

/-! ## 2. The induction rule -/

/-- A relation `R` between the state and the log of observations that every
step meeting `G` keeps is kept by every run whose steps all meet `G`. -/
theorem run_rule {R : σ → List ο → Prop} {G : σ → ε → Prop} {o : σ → ε → List ο}
    (hstep : ∀ s l e s', R s l → G s e → step s e = some s' → R s' (l ++ o s e))
    {s s' : σ} {l : List ο} {es : List ε} (hR : R s l) (hG : Meets step G s es)
    (hrun : run step s es = some s') : R s' (l ++ observe step o s es) := by
  induction es generalizing s l with
  | nil =>
    cases hrun
    simpa [observe] using hR
  | cons e es ih =>
    obtain ⟨t, ht, hrest⟩ := Option.bind_eq_some_iff.mp hrun
    have h := ih (hstep s l e t hR hG.1 ht) (hG.2 t ht) hrest
    simpa [observe, ht] using h

theorem meets_of_forall {G : σ → ε → Prop} (h : ∀ s e, G s e) (s : σ) (es : List ε) :
    Meets step G s es := by
  induction es generalizing s with
  | nil => trivial
  | cons e es ih => exact ⟨h s e, fun s' _ => ih s'⟩

theorem meets_of_mem {G : ε → Prop} {es : List ε} (h : ∀ e ∈ es, G e) (s : σ) :
    Meets step (fun _ e => G e) s es := by
  induction es generalizing s with
  | nil => trivial
  | cons e es ih =>
    exact ⟨h e List.mem_cons_self, fun s' _ => ih (fun f hf => h f (List.mem_cons_of_mem e hf)) s'⟩

/-- An invariant of the steps that meet `G` is an invariant of the runs that
do. -/
theorem run_invariant {I : σ → Prop} {G : σ → ε → Prop}
    (hstep : ∀ s e s', I s → G s e → step s e = some s' → I s')
    {s s' : σ} {es : List ε} (hI : I s) (hG : Meets step G s es)
    (hrun : run step s es = some s') : I s' :=
  run_rule (ο := Unit) (R := fun t _ => I t) (o := fun _ _ => []) (l := [])
    (fun t _ e t' ht hg hs => hstep t e t' ht hg hs) hI hG hrun

/-- The rule for a relation that every step keeps. -/
theorem run_observes {R : σ → List ο → Prop} {o : σ → ε → List ο}
    (hstep : ∀ s l e s', R s l → step s e = some s' → R s' (l ++ o s e))
    {s s' : σ} {es : List ε} (hR : R s []) (hrun : run step s es = some s') :
    R s' (observe step o s es) :=
  run_rule (G := fun _ _ => True) (l := []) (fun t l e t' ht _ hs => hstep t l e t' ht hs) hR
    (meets_of_forall (fun _ _ => trivial) s es) hrun

/-- Where an invariant fixes what each event shows, the events fix the whole
log. -/
theorem observe_filterMap {I : σ → Prop} {G : σ → ε → Prop} {o : σ → ε → List ο} {α : Type*}
    {f : ο → Option α} {g : ε → List α}
    (hstep : ∀ s e s', I s → G s e → step s e = some s' → I s')
    (ho : ∀ s e s', I s → G s e → step s e = some s' → (o s e).filterMap f = g e)
    {s s' : σ} {es : List ε} (hI : I s) (hG : Meets step G s es)
    (hrun : run step s es = some s') : (observe step o s es).filterMap f = es.flatMap g := by
  induction es generalizing s with
  | nil => rfl
  | cons e es ih =>
    obtain ⟨t, ht, hrest⟩ := Option.bind_eq_some_iff.mp hrun
    have h := ih (hstep s e t hI hG.1 ht) (hG.2 t ht) hrest
    rw [observe, ht, Option.elim_some, List.filterMap_append, h, ho s e t hI hG.1 ht,
      List.flatMap_cons]

theorem observe_map {I : σ → Prop} {G : σ → ε → Prop} {o : σ → ε → List ο} {α : Type*}
    {f : ο → α} {g : ε → List α} (hstep : ∀ s e s', I s → G s e → step s e = some s' → I s')
    (ho : ∀ s e s', I s → G s e → step s e = some s' → (o s e).map f = g e)
    {s s' : σ} {es : List ε} (hI : I s) (hG : Meets step G s es)
    (hrun : run step s es = some s') : (observe step o s es).map f = es.flatMap g := by
  rw [← List.filterMap_eq_map]
  refine observe_filterMap hstep (fun s e s' hI he hs => ?_) hI hG hrun
  rw [List.filterMap_eq_map]
  exact ho s e s' hI he hs

/-- A quantity that only ever changes to what `g` is at that moment is, at the end,
what `g` was at some moment of the run. -/
theorem exists_moment {I : σ → Prop} {G : ε → Prop} {α : Type*} {f g : σ → α}
    (hstep : ∀ s e s', I s → G e → step s e = some s' → I s' ∧ (f s' = f s ∨ f s' = g s'))
    {s s' : σ} {es : List ε} (hI : I s) (hfg : f s = g s) (hG : ∀ e ∈ es, G e)
    (hrun : run step s es = some s') :
    ∃ es₁ t, es₁ <+: es ∧ run step s es₁ = some t ∧ f s' = g t := by
  have hrule : f s' = f s ∨ ∃ es₁ t, es₁ <+: es ∧ run step s es₁ = some t ∧ f s' = g t := by
    clear hfg
    induction es generalizing s with
    | nil =>
      cases hrun
      exact Or.inl rfl
    | cons e es ih =>
      obtain ⟨t, ht, hrest⟩ := Option.bind_eq_some_iff.mp hrun
      obtain ⟨hIt, hchange⟩ := hstep s e t hI (hG e List.mem_cons_self) ht
      rcases ih hIt (fun a ha => hG a (List.mem_cons_of_mem e ha)) hrest with heq | hlater
      · rcases hchange with hkept | hset
        · exact Or.inl (heq.trans hkept)
        · exact Or.inr ⟨[e], t, List.prefix_append [e] es, run_cons_eq [] ht, heq.trans hset⟩
      · obtain ⟨es₁, u, hpre, hu, heq⟩ := hlater
        exact Or.inr ⟨e :: es₁, u, List.cons_prefix_cons.mpr ⟨rfl, hpre⟩,
          (run_cons_eq es₁ ht).trans hu, heq⟩
  rcases hrule with heq | hlater
  · exact ⟨[], s, List.nil_prefix, rfl, heq.trans hfg⟩
  · exact hlater

/-! ## 3. Conditions on the steps of a run -/

theorem meets_append {G : σ → ε → Prop} {s s' : σ} {es fs : List ε}
    (h : run step s es = some s') :
    Meets step G s (es ++ fs) ↔ Meets step G s es ∧ Meets step G s' fs := by
  induction es generalizing s with
  | nil =>
    cases h
    simp [Meets]
  | cons e es ih =>
    obtain ⟨t, ht, hrest⟩ := Option.bind_eq_some_iff.mp h
    simp only [List.cons_append, Meets, ht, Option.some.injEq, forall_eq', ih hrest, and_assoc]

/-- Every step of the run meets `G` exactly when, after every prefix, the next
event does. -/
theorem meets_iff {G : σ → ε → Prop} {s : σ} {es : List ε} :
    Meets step G s es ↔
      ∀ es₁ e es₂ t, es = es₁ ++ e :: es₂ → run step s es₁ = some t → G t e := by
  constructor
  · rintro h es₁ e es₂ t rfl ht
    exact ((meets_append ht).mp h).2.1
  · intro h
    induction es generalizing s with
    | nil => trivial
    | cons e es ih =>
      refine ⟨h [] e es s rfl rfl, fun s' hs => ih fun es₁ e' es₂ t he ht => ?_⟩
      exact h (e :: es₁) e' es₂ t (by rw [he, List.cons_append]) (by rw [run_cons_eq _ hs, ht])

/-! ## 4. Refinement -/

/-- `f e` is what the abstract system sees of the event `e`; where it sees
nothing, its state stays. -/
theorem run_project {σ₂ ε₂ : Type*} {step₂ : σ₂ → ε₂ → Option σ₂} {A : σ → σ₂}
    {f : ε → Option ε₂}
    (hstep : ∀ s e s', step s e = some s' →
      match f e with
      | some e₂ => step₂ (A s) e₂ = some (A s')
      | none => A s' = A s)
    {s s' : σ} {es : List ε} (hrun : run step s es = some s') :
    run step₂ (A s) (es.filterMap f) = some (A s') := by
  induction es generalizing s with
  | nil =>
    cases hrun
    rfl
  | cons e es ih =>
    obtain ⟨t, ht, hrest⟩ := Option.bind_eq_some_iff.mp hrun
    have h := hstep s e t ht
    rw [List.filterMap_cons]
    cases hf : f e with
    | none =>
      rw [hf] at h
      exact h ▸ ih hrest
    | some e₂ =>
      rw [hf] at h
      exact (run_cons_eq _ h).trans (ih hrest)

/-! ## 5. Termination -/

/-- Where no step raises the rank, the steps `P` that lower it are at most as many. -/
theorem countP_le_of_rank {I : σ → Prop} {G : ε → Prop} {P : ε → Bool} {rank : σ → ℕ}
    (hstep : ∀ s e s', I s → G e → step s e = some s' →
      I s' ∧ rank s' ≤ rank s ∧ (P e = true → rank s' < rank s))
    {s s' : σ} {es : List ε} (hI : I s) (hG : ∀ e ∈ es, G e) (hrun : run step s es = some s') :
    es.countP P + rank s' ≤ rank s := by
  induction es generalizing s with
  | nil =>
    cases hrun
    exact Nat.le_of_eq (Nat.zero_add _)
  | cons e es ih =>
    obtain ⟨t, ht, hrest⟩ := Option.bind_eq_some_iff.mp hrun
    obtain ⟨hIt, hle, hlt⟩ := hstep s e t hI (hG e List.mem_cons_self) ht
    have hrestle := ih hIt (fun f hf => hG f (List.mem_cons_of_mem e hf)) hrest
    rw [List.countP_cons]
    split
    · next hP =>
      calc es.countP P + 1 + rank s' = es.countP P + rank s' + 1 := Nat.add_right_comm ..
        _ ≤ rank t + 1 := Nat.succ_le_succ hrestle
        _ ≤ rank s := hlt hP
    · exact Nat.le_trans hrestle hle

theorem length_le_of_rank {I : σ → Prop} {G : ε → Prop} {rank : σ → ℕ}
    (hstep : ∀ s e s', I s → G e → step s e = some s' → I s' ∧ rank s' < rank s)
    {s s' : σ} {es : List ε} (hI : I s) (hG : ∀ e ∈ es, G e) (hrun : run step s es = some s') :
    es.length + rank s' ≤ rank s := by
  have hcount : es.countP (fun _ => true) = es.length := congrFun List.countP_true es
  rw [← hcount]
  refine countP_le_of_rank (fun s e s' hI he hs => ?_) hI hG hrun
  obtain ⟨hI', hlt⟩ := hstep s e s' hI he hs
  exact ⟨hI', Nat.le_of_lt hlt, fun _ => hlt⟩

/-- Where a step that lowers the rank is possible short of the goal, some run of
such steps reaches it. -/
theorem exists_run_to {I T : σ → Prop} {G : ε → Prop} {rank : σ → ℕ}
    (hstep : ∀ s, I s → ¬ T s → ∃ e s', G e ∧ step s e = some s' ∧ I s' ∧ rank s' < rank s)
    {s : σ} (hI : I s) : ∃ es s', (∀ e ∈ es, G e) ∧ run step s es = some s' ∧ T s' := by
  induction hn : rank s using Nat.strongRecOn generalizing s with
  | ind n ih =>
    by_cases hT : T s
    · exact ⟨[], s, fun _ he => absurd he List.not_mem_nil, rfl, hT⟩
    · obtain ⟨e, t, hG, ht, hIt, hlt⟩ := hstep s hI hT
      obtain ⟨es, s', hGes, hrun, hT'⟩ := ih (rank t) (hn ▸ hlt) hIt rfl
      exact ⟨e :: es, s', List.forall_mem_cons.mpr ⟨hG, hGes⟩,
        (run_cons_eq es ht).trans hrun, hT'⟩

/-! ## 6. Simulation -/

/-- Where every step of one system is matched by a run of another in which the same
is observed, so is every run. -/
theorem run_simulates {σ₂ ε₂ : Type*} {step₂ : σ₂ → ε₂ → Option σ₂} {R : σ → σ₂ → Prop}
    {G : ε → Prop} {G₂ : ε₂ → Prop} {o : σ → ε → List ο} {o₂ : σ₂ → ε₂ → List ο}
    (hstep : ∀ s t e s', R s t → G e → step s e = some s' → ∃ es₂ t',
      (∀ e₂ ∈ es₂, G₂ e₂) ∧ run step₂ t es₂ = some t' ∧ observe step₂ o₂ t es₂ = o s e ∧ R s' t')
    {s s' : σ} {t : σ₂} {es : List ε} (hR : R s t) (hG : ∀ e ∈ es, G e)
    (hrun : run step s es = some s') : ∃ es₂ t',
      (∀ e₂ ∈ es₂, G₂ e₂) ∧ run step₂ t es₂ = some t' ∧
        observe step₂ o₂ t es₂ = observe step o s es ∧ R s' t' := by
  induction es generalizing s t with
  | nil =>
    cases hrun
    exact ⟨[], t, fun _ he => absurd he List.not_mem_nil, rfl, rfl, hR⟩
  | cons e es ih =>
    obtain ⟨u, hu, hrest⟩ := Option.bind_eq_some_iff.mp hrun
    obtain ⟨es₁, t₁, hG₁, hrun₁, hobs₁, hR₁⟩ := hstep s t e u hR (hG e List.mem_cons_self) hu
    obtain ⟨es₂, t₂, hG₂, hrun₂, hobs₂, hR₂⟩ :=
      ih hR₁ (fun f hf => hG f (List.mem_cons_of_mem e hf)) hrest
    refine ⟨es₁ ++ es₂, t₂, List.forall_mem_append.mpr ⟨hG₁, hG₂⟩, ?_, ?_, hR₂⟩
    · rw [run_append_eq _ hrun₁, hrun₂]
    · rw [observe_append _ _ hrun₁, hobs₁, hobs₂, observe, hu, Option.elim_some]

end Runs
