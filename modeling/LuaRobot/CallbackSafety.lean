import LuaRobot.CallbackInvariant

/-!
# The registered callback is never dangling

Results:
1. `idle_step`: the script does not touch the callback.
2. `callback_never_dangling`: what holds of it after every run.
-/

namespace LuaRobot

open LuaStack TracedHeap Runs ServiceState CallbackLemmas

/-! ## Definitions -/

/-- What a successful call was given. -/
def ServiceState.given (s : ServiceState) : Event → List Value
  | .callback n c =>
    match s.call n c with
    | .ok _ _ => (s.stack.take n).getLast?.toList
    | .error _ _ => []
  | _ => []

/-- `LuaService::callback` and all that it leads to: the registry has the userdata,
`callbackL` is its user value, and on the stack of that is `x` alone. -/
structure Registered (s : ServiceState) (r : Registration) : Prop where
  callback : s.callback = some r.cb
  entry : s.registry.lookup CALLBACK_CONTEXT = some (.userdata r.cb)
  userdata : s.heap r.cb = some { kind := .userdata, refs := [.thread r.th], raw := r.th }
  thread : s.heap r.th = some { kind := .thread, refs := [r.x], raw := s.this }
  function : typeOf (some r.x) = LUA_TFUNCTION
  reachable : ∀ a, a = r.cb ∨ a = r.th ∨ address r.x = some a →
    (∃ o, s.heap a = some o) ∧ Reachable Object.addresses s.roots s.heap a

/-- The state from one event to the next, with the callback `r`. -/
def Idle (t : ℕ) (r : Option Registration) (s : ServiceState) : Prop :=
  ∃ V, Inv s V r [] ∧ s.frame = [] ∧ s.this = t

/-- Between the events the callback is that of the last successful call. -/
def Latest (t : ℕ) (s : ServiceState) (log : List Value) : Prop :=
  ∃ r, Idle t r s ∧ r.map Registration.x = log.getLast? ∧
    ∀ x ∈ log, typeOf (some x) = LUA_TFUNCTION

/-! ## 1. The script -/

namespace CallbackLemmas

variable {s : ServiceState} {V : ℕ → Prop} {r : Option Registration} {new : List (ℕ × Object)}

/-- The script writes to its own objects, and its own values. -/
theorem inv_modify (h : Inv s V r new) {a : ℕ} {o : Object} (hV : V a) (ho : s.heap a = some o)
    (f : Object → Object) (hkind : (f o).kind = o.kind) (hraw : (f o).raw = o.raw)
    (hrefs : ∀ v ∈ (f o).refs, Within V v) : Inv (s.modify a f) V r new := by
  have hself := modify_self ho f
  refine { toRegion := ⟨?_, ?_, ?_, ?_, h.registry⟩, entry := h.entry, callback := h.callback
           cells := ?_, nodup := h.nodup, held := h.held, frame := h.frame
           anchored := h.anchored }
  · intro b hb
    rcases eq_or_ne b a with rfl | hne
    · exact ⟨_, hself⟩
    · rw [modify_of_ne hne]
      exact h.live b hb
  · intro b o' hb ho'
    rcases eq_or_ne b a with rfl | hne
    · rw [hself] at ho'
      cases ho'
      exact hrefs
    · rw [modify_of_ne hne] at ho'
      exact h.closed b o' hb ho'
  · intro b o' hb ho' hk
    rcases eq_or_ne b a with rfl | hne
    · rw [hself] at ho'
      cases ho'
      exact hraw.trans (h.space b o hV ho (hkind ▸ hk))
    · rw [modify_of_ne hne] at ho'
      exact h.space b o' hb ho' hk
  · intro b hb
    obtain ⟨hVb, o', ho', hk⟩ := h.threads b hb
    refine ⟨hVb, ?_⟩
    rcases eq_or_ne b a with rfl | hne
    · rw [ho] at ho'
      cases ho'
      exact ⟨_, hself, hkind.trans hk⟩
    · exact ⟨o', (modify_of_ne hne f).trans ho', hk⟩
  · intro p hp
    obtain ⟨hheap, hVp⟩ := h.cells p hp
    have hne : p.1 ≠ a := by
      rintro rfl
      exact hVp hV
    exact ⟨(modify_of_ne hne f).trans hheap, hVp⟩

theorem within_stack (h : Region s V) : ∀ v ∈ s.stack, Within V v := by
  obtain ⟨hV, o, ho, _⟩ := h.threads s.L (List.mem_cons_of_mem _ List.mem_cons_self)
  intro v hv
  rw [ServiceState.stack, ho] at hv
  exact h.closed _ o hV ho v hv

theorem within_getElem (h : Region s V) {i : ℕ} {v : Value} (hv : s.stack[i]? = some v) :
    Within V v := within_stack h v (List.mem_of_getElem? hv)

theorem inv_setStack (h : Inv s V r new) {vs : List Value} (hvs : ∀ v ∈ vs, Within V v) :
    Inv (s.setStack vs) V r new := by
  obtain ⟨hV, o, ho, _⟩ := h.threads s.L (List.mem_cons_of_mem _ List.mem_cons_self)
  exact inv_modify h hV ho _ rfl rfl hvs

theorem inv_push (h : Inv s V r new) {v : Value} (hv : Within V v) :
    Inv (s.setStack (v :: s.stack)) V r new :=
  inv_setStack h (List.forall_mem_cons.mpr ⟨hv, within_stack h.toRegion⟩)

/-- A new object of the script. -/
theorem inv_fresh (h : Inv s V r new) {a : ℕ} (ha : s.heap a = none) {o : Object}
    (hrefs : o.refs = []) (hraw : o.kind = .thread → o.raw = s.this) :
    Inv (s.place a o) (fun b => V b ∨ b = a) r new := by
  have hkept : ∀ b, V b → (s.place a o).heap b = s.heap b :=
    fun b hb => (place_of_live h.toRegion ha hb).2
  have hself := place_self s a o
  have hwithin : ∀ v, Within V v → Within (fun b => V b ∨ b = a) v :=
    fun v hv b hb => Or.inl (hv b hb)
  refine { toRegion := ⟨?_, ?_, ?_, ?_, fun k v hk hv => hwithin v (h.registry k v hk hv)⟩
           entry := h.entry, callback := h.callback, cells := ?_, nodup := h.nodup
           held := fun r' hr => hwithin _ (h.held r' hr)
           frame := fun v hv => (h.frame v hv).imp_left (hwithin v), anchored := h.anchored }
  · rintro b (hb | rfl)
    · obtain ⟨o', ho'⟩ := h.live b hb
      exact ⟨o', (hkept b hb).trans ho'⟩
    · exact ⟨o, hself⟩
  · rintro b o' (hb | rfl) ho' v hv
    · exact hwithin v (h.closed b o' hb ((hkept b hb).symm.trans ho') v hv)
    · rw [hself] at ho'
      cases ho'
      rw [hrefs] at hv
      cases hv
  · rintro b o' (hb | rfl) ho' hk
    · exact h.space b o' hb ((hkept b hb).symm.trans ho') hk
    · rw [hself] at ho'
      cases ho'
      exact hraw hk
  · intro b hb
    obtain ⟨hVb, o', ho', hk⟩ := h.threads b hb
    exact ⟨Or.inl hVb, o', (hkept b hVb).trans ho', hk⟩
  · intro p hp
    obtain ⟨hheap, hVp⟩ := h.cells p hp
    obtain ⟨hne, hp'⟩ := place_of_used (o := o) ha hheap
    exact ⟨hp'.trans hheap, fun hor => hor.elim hVp hne⟩

theorem inv_store (h : Inv s V r new) {k v : Value} (hk : k ≠ CALLBACK_CONTEXT)
    (hv : Within V v) : Inv { s with registry := s.registry.insert k v } V r new := by
  refine { toRegion := ⟨h.live, h.closed, h.space, h.threads, ?_⟩
           entry := (AList.lookup_insert_ne (Ne.symm hk)).trans h.entry, callback := h.callback
           cells := h.cells, nodup := h.nodup, held := h.held, frame := h.frame
           anchored := h.anchored }
  intro k' v' hk' hv'
  rcases eq_or_ne k' k with rfl | hne
  · rw [AList.lookup_insert] at hv'
    cases hv'
    exact hv
  · exact h.registry k' v' hk' ((AList.lookup_insert_ne hne).symm.trans hv')

variable {t : ℕ} {s' : ServiceState}

theorem idle_outside (h : Outside t r s) : Idle t r { s with frame := [] } := by
  obtain ⟨V, hinv, ht⟩ := h
  exact ⟨V, hinv, rfl, ht⟩

theorem idle_collect (h : Idle t r s) (c : Collection) : Idle t r (s.collect c) := by
  obtain ⟨V, hinv, hframe, ht⟩ := h
  obtain ⟨V', hinv', _⟩ := inv_collect hinv c
  exact ⟨V', hinv', hframe, ht⟩

theorem idle_push (h : Idle t r s) {v : Value} (hv : ∀ V, Region s V → Within V v) :
    Idle t r (s.setStack (v :: s.stack)) := by
  obtain ⟨V, hinv, hframe, ht⟩ := h
  exact ⟨V, inv_push hinv (hv V hinv.toRegion), hframe, ht⟩

theorem idle_new (h : Idle t r s) {kind : Kind} {c : Allocation} {a : ℕ}
    (hs : s.new kind c a = some s') : Idle t r s' := by
  obtain ⟨V, hinv, hframe, ht⟩ := idle_collect h c.gc
  simp only [ServiceState.new] at hs
  cases hok : c.ok with
  | false =>
    rw [hok] at hs
    cases hs
    exact ⟨V, hinv, hframe, ht⟩
  | true =>
    rw [hok] at hs
    cases ha : (s.collect c.gc).heap a with
    | some o =>
      rw [ha] at hs
      cases hs
    | none =>
      rw [ha] at hs
      cases hs
      obtain ⟨hV, o, ho, hk⟩ := hinv.threads _ List.mem_cons_self
      have hraw : ((s.collect c.gc).heap (s.collect c.gc).mainthread).map Object.raw =
          some (s.collect c.gc).this := by
        rw [ho]
        exact congrArg some (hinv.space _ o hV ho hk)
      refine ⟨fun b => V b ∨ b = a, inv_push (inv_fresh hinv ha rfl ?_) ?_, hframe, ht⟩
      · rintro (rfl : kind = .thread)
        rw [if_pos rfl, hraw]
        rfl
      · intro b hb
        rw [address_value] at hb
        exact Or.inr (Option.some.inj hb).symm

theorem idle_set (h : Idle t r s) {i k j a : ℕ} {v u : Value} (hv : s.stack[i]? = some v)
    (ha : address v = some a) (hu : s.stack[j]? = some u) :
    Idle t r (s.modify a fun o => { o with refs := write o.refs k u }) := by
  obtain ⟨V, hinv, hframe, ht⟩ := h
  have hV : V a := within_getElem hinv.toRegion hv a ha
  obtain ⟨o, ho⟩ := hinv.live a hV
  refine ⟨V, inv_modify hinv hV ho _ rfl rfl ?_, hframe, ht⟩
  intro w hw
  have hw' : w ∈ o.refs ∨ w = u := by
    simp only [write] at hw
    split at hw
    · exact List.mem_or_eq_of_mem_set hw
    · exact (List.mem_append.mp hw).imp_right List.mem_singleton.mp
  rcases hw' with hw' | rfl
  · exact hinv.closed a o hV ho w hw'
  · exact within_getElem hinv.toRegion hu

theorem idle_threads (h : Idle t r s) {L : ℕ} {resumers : List ℕ}
    (hthreads : ∀ V, Region s V → ∀ a ∈ s.mainthread :: L :: resumers, V a ∧ s.IsThread a) :
    Idle t r { s with L := L, resumers := resumers } := by
  obtain ⟨V, hinv, hframe, ht⟩ := h
  exact ⟨V, { hinv with threads := hthreads V hinv.toRegion }, hframe, ht⟩

/-- A call, from any thread. -/
theorem idle_call (h : Idle t r s) (n : ℕ) (c : Allocations) :
    match s.call n c with
    | .ok _ s' => ∃ cb th x, (s.stack.take n).getLast? = some x ∧
        typeOf (some x) = LUA_TFUNCTION ∧ Idle t (some ⟨cb, th, x⟩) s'
    | .error e s' => Fails (s.stack.take n) c e ∧ Idle t r s' := by
  obtain ⟨V, hinv, _, ht⟩ := h
  have hwithin := within_stack hinv.toRegion
  have hargs : ∀ v ∈ s.stack.take n, Within V v := fun v hv => hwithin v (List.mem_of_mem_take hv)
  have henter := inv_enter
    (inv_setStack hinv fun v hv => hwithin v (List.mem_of_mem_drop (i := n) hv)) hargs
  have hspec := setCallback_spec c _ ⟨V, henter, rfl, hargs, ht⟩
  unfold ServiceState.call
  cases hcall : setCallback c { s.setStack (s.stack.drop n) with frame := s.stack.take n } with
  | ok _ s' =>
    rw [hcall] at hspec
    obtain ⟨cb, th, x, hx, hfunction, hphase⟩ := hspec
    exact ⟨cb, th, x, hx, hfunction, idle_outside (phase_outside hphase)⟩
  | error e s' =>
    rw [hcall] at hspec
    exact ⟨hspec.1, idle_outside hspec.2⟩

end CallbackLemmas

/-- No event other than a call changes the callback. -/
theorem idle_step {t : ℕ} {r : Option Registration} {s s' : ServiceState} (h : Idle t r s)
    {e : Event} (hs : s.step e = some s') (hcall : ∀ n c, e ≠ .callback n c) : Idle t r s' := by
  cases e with
  | push v =>
    simp only [step] at hs
    split at hs
    · cases hs
      rename_i hv
      refine idle_push h fun V _ a ha => ?_
      rw [ha] at hv
      cases hv
    · cases hs
  | pop n =>
    cases hs
    obtain ⟨V, hinv, hframe, ht⟩ := h
    exact ⟨V, inv_setStack hinv fun v hv => within_stack hinv.toRegion v (List.mem_of_mem_drop hv),
      hframe, ht⟩
  | load k =>
    simp only [step] at hs
    split at hs
    · cases hs
    · rename_i hk
      cases hs
      refine idle_push h fun V hV => ?_
      cases hv : s.registry.lookup k with
      | none => exact fun a ha => nomatch ha
      | some v => exact hV.registry k v hk hv
  | store k i =>
    simp only [step] at hs
    split at hs
    · cases hs
    · rename_i hk
      obtain ⟨v, hv, rfl⟩ := Option.map_eq_some_iff.mp hs
      obtain ⟨V, hinv, hframe, ht⟩ := h
      exact ⟨V, inv_store hinv hk (within_getElem hinv.toRegion hv), hframe, ht⟩
  | get i k =>
    obtain ⟨v, hv, hs⟩ := Option.bind_eq_some_iff.mp hs
    obtain ⟨a, ha, hs⟩ := Option.bind_eq_some_iff.mp hs
    obtain ⟨o, ho, hs⟩ := Option.bind_eq_some_iff.mp hs
    obtain ⟨w, hw, hs⟩ := Option.bind_eq_some_iff.mp hs
    cases hs
    exact idle_push h fun V hV =>
      hV.closed a o (within_getElem hV hv a ha) ho w (List.mem_of_getElem? hw)
  | set i k j =>
    obtain ⟨v, hv, hs⟩ := Option.bind_eq_some_iff.mp hs
    obtain ⟨a, ha, hs⟩ := Option.bind_eq_some_iff.mp hs
    obtain ⟨u, hu, hs⟩ := Option.bind_eq_some_iff.mp hs
    cases hs
    exact idle_set h hv ha hu
  | new kind c a => exact idle_new h hs
  | resume i =>
    obtain ⟨v, hv, hs⟩ := Option.bind_eq_some_iff.mp hs
    obtain ⟨a, ha, hs⟩ := Option.bind_eq_some_iff.mp hs
    obtain ⟨o, ho, hs⟩ := Option.bind_eq_some_iff.mp hs
    cases hs
    obtain ⟨ho, hk⟩ := Option.filter_eq_some_iff.mp ho
    refine idle_threads h fun V hV => ?_
    have hnew : V a ∧ s.IsThread a := ⟨within_getElem hV hv a ha, o, ho, of_decide_eq_true hk⟩
    obtain ⟨hmain, hrest⟩ := List.forall_mem_cons.mp hV.threads
    exact List.forall_mem_cons.mpr ⟨hmain, List.forall_mem_cons.mpr ⟨hnew, hrest⟩⟩
  | yield =>
    simp only [step] at hs
    split at hs
    · cases hs
    · rename_i L resumers heq
      cases hs
      refine idle_threads h fun V hV => ?_
      obtain ⟨hmain, hrest⟩ := List.forall_mem_cons.mp hV.threads
      rw [heq] at hrest
      exact List.forall_mem_cons.mpr ⟨hmain, (List.forall_mem_cons.mp hrest).2⟩
  | collect c =>
    cases hs
    exact idle_collect h c
  | callback n c => exact absurd rfl (hcall n c)

/-! ## 2. Runs -/

namespace CallbackLemmas

variable {s s' : ServiceState} {t : ℕ} {r : Option Registration}

theorem idle_init (this : ℕ) : Idle this none (init this) := by
  refine ⟨fun a => a = 0 ∨ a = 1, ⟨⟨?_, ?_, ?_, ?_, ?_⟩, rfl, rfl, ?_, List.nodup_nil, ?_, ?_, ?_⟩,
    rfl, rfl⟩
  · rintro a (rfl | rfl)
    · exact ⟨_, rfl⟩
    · exact ⟨_, rfl⟩
  · rintro a o (rfl | rfl) ho v hv
    · cases ho
      cases hv
    · cases ho
      cases hv
  · rintro a o (rfl | rfl) ho hk
    · cases ho
      rfl
    · cases ho
      cases hk
  · intro a ha
    rw [show a = 0 by simpa [init] using ha]
    exact ⟨Or.inl rfl, _, rfl, rfl⟩
  · -- the globals and the main thread
    intro k v _ hv a ha
    simp only [init] at hv
    rcases eq_or_ne k (.integer 2) with rfl | h2
    · rw [AList.lookup_insert] at hv
      cases hv
      cases ha
      exact Or.inr rfl
    · rw [AList.lookup_insert_ne h2] at hv
      rcases eq_or_ne k (.integer 1) with rfl | h1
      · rw [AList.lookup_insert] at hv
        cases hv
        cases ha
        exact Or.inl rfl
      · rw [AList.lookup_insert_ne h1, AList.lookup_empty] at hv
        cases hv
  · exact fun p hp => absurd hp List.not_mem_nil
  · exact fun r' hr' => nomatch hr'
  · exact fun v hv => absurd hv List.not_mem_nil
  · exact fun p hp => absurd hp List.not_mem_nil

theorem registered_of_idle {r : Registration} (h : Idle t (some r) s)
    (hfunction : typeOf (some r.x) = LUA_TFUNCTION) : Registered s r := by
  obtain ⟨V, hinv, _, _⟩ := h
  have hcb := (hinv.cells (r.cb, _) List.mem_cons_self).1
  have hth := (hinv.cells (r.th, _) (List.mem_cons_of_mem _ List.mem_cons_self)).1
  obtain ⟨hcells, hx⟩ := reachable_callback hinv
  refine ⟨hinv.callback, hinv.entry, hcb, hth, hfunction, ?_⟩
  rintro a (rfl | rfl | ha)
  · exact ⟨⟨_, hcb⟩, hcells _ List.mem_cons_self⟩
  · exact ⟨⟨_, hth⟩, hcells _ (List.mem_cons_of_mem _ List.mem_cons_self)⟩
  · exact ⟨hinv.live a (hinv.held r rfl a ha), hx a ha⟩

theorem registered_unique {r r' : Registration} (h : Registered s r) (h' : Registered s r') :
    r' = r := by
  obtain ⟨cb, th, x⟩ := r
  obtain ⟨cb', th', x'⟩ := r'
  obtain rfl : cb = cb' := Option.some.inj (h.callback.symm.trans h'.callback)
  have huserdata := Option.some.inj (h.userdata.symm.trans h'.userdata)
  obtain rfl : th = th' := congrArg Object.raw huserdata
  have hthread := Option.some.inj (h.thread.symm.trans h'.thread)
  obtain rfl : x = x' := List.head_eq_of_cons_eq (congrArg Object.refs hthread)
  rfl

theorem latest_step {log : List Value} {e : Event} (h : Latest t s log) (hs : s.step e = some s') :
    Latest t s' (log ++ s.given e) := by
  obtain ⟨r, hidle, hlast, hfunctions⟩ := h
  by_cases hcall : ∃ n c, e = .callback n c
  · obtain ⟨n, c, rfl⟩ := hcall
    have hspec := idle_call hidle n c
    simp only [step] at hs
    simp only [ServiceState.given]
    cases hres : s.call n c with
    | ok _ s'' =>
      rw [hres] at hs hspec
      cases hs
      obtain ⟨cb, th, x, hx, hfunction, hidle'⟩ := hspec
      rw [hx]
      refine ⟨_, hidle', by simp, fun y hy => ?_⟩
      rcases List.mem_append.mp hy with hy | hy
      · exact hfunctions y hy
      · rw [List.mem_singleton.mp hy]
        exact hfunction
    | error e s'' =>
      rw [hres] at hs hspec
      obtain ⟨-, hidle'⟩ := hspec
      simp only at hs
      split at hs
      · cases hs
      · cases hs
        rw [List.append_nil]
        exact ⟨r, hidle', hlast, hfunctions⟩
  · have hquiet : ∀ n c, e ≠ .callback n c := fun n c he => hcall ⟨n, c, he⟩
    have hgiven : s.given e = [] := by
      cases e with
      | callback n c => exact absurd rfl (hquiet n c)
      | _ => rfl
    rw [hgiven, List.append_nil]
    exact ⟨r, idle_step hidle hs hquiet, hlast, hfunctions⟩

end CallbackLemmas

/-- After every run, with collections and failed allocations anywhere: there is no
callback before the first successful call. Afterwards it is the userdata in the
registry, its thread is the user value of that and has on its stack the function of
the last successful call, and no collection frees any of these. A call that raises
was not given a function, or an allocation failed; it changes none of them. -/
theorem callback_never_dangling (this : ℕ) (es : List Event) (s : ServiceState)
    (hrun : run step (init this) es = some s) :
    (match (observe step given (init this) es).getLast? with
      | none => s.callback = none ∧ s.registry.lookup CALLBACK_CONTEXT = none
      | some x => ∃ r, r.x = x ∧ Registered s r ∧ ∀ c, Registered (s.collect c) r) ∧
    ∀ n c e s', s.call n c = .error e s' →
      Fails (s.stack.take n) c e ∧ s'.callback = s.callback ∧
      s'.registry.lookup CALLBACK_CONTEXT = s.registry.lookup CALLBACK_CONTEXT ∧
      ∀ r, Registered s r → Registered s' r := by
  have hinit : Latest this (init this) [] :=
    ⟨none, idle_init this, rfl, fun x hx => absurd hx List.not_mem_nil⟩
  obtain ⟨r, hidle, hlast, hfunctions⟩ :=
    run_observes (fun _ _ _ _ h hs => latest_step h hs) hinit hrun
  refine ⟨?_, fun n c e s' hcall => ?_⟩
  · rw [← hlast]
    cases r with
    | none =>
      obtain ⟨V, hinv, -, -⟩ := hidle
      exact ⟨hinv.callback, hinv.entry⟩
    | some r =>
      have hfunction := hfunctions r.x (List.mem_of_getLast? hlast.symm)
      exact ⟨r, rfl, registered_of_idle hidle hfunction,
        fun c => registered_of_idle (idle_collect hidle c) hfunction⟩
  · have hspec := idle_call hidle n c
    rw [hcall] at hspec
    obtain ⟨hfails, hidle'⟩ := hspec
    obtain ⟨V, hinv, hframe, ht⟩ := hidle
    obtain ⟨V', hinv', hframe', ht'⟩ := hidle'
    refine ⟨hfails, hinv'.callback.trans hinv.callback.symm, hinv'.entry.trans hinv.entry.symm,
      fun r' hr' => ?_⟩
    cases r with
    | none => exact absurd (hr'.callback.symm.trans hinv.callback) nofun
    | some r =>
      have hfunction := hfunctions r.x (List.mem_of_getLast? hlast.symm)
      have hregistered := registered_of_idle ⟨V, hinv, hframe, ht⟩ hfunction
      rw [registered_unique hregistered hr']
      exact registered_of_idle ⟨V', hinv', hframe', ht'⟩ hfunction


/-- `print` is registered from the main thread; then a coroutine fails to register
`type`, and the userdata of that call is freed. -/
theorem callback_never_dangling_print :
    ∃ s, run step (init 7)
      [.push (.cfunction "print"), .callback 1 { cb := 2, th := 3 }, .new .thread {} 4, .resume 0,
        .push (.cfunction "type"), .callback 1 { cb := 5, th := 6, thread := { ok := false } },
        .collect { marked := [0, 1, 2, 3, 4], swept := [5] }] = some s ∧ s.heap 5 = none ∧
      ∃ r, r.x = .cfunction "print" ∧ Registered s r ∧ ∀ c, Registered (s.collect c) r := by
  obtain ⟨s, hs, hfree⟩ : ∃ s, run step (init 7)
      [.push (.cfunction "print"), .callback 1 { cb := 2, th := 3 }, .new .thread {} 4, .resume 0,
        .push (.cfunction "type"), .callback 1 { cb := 5, th := 6, thread := { ok := false } },
        .collect { marked := [0, 1, 2, 3, 4], swept := [5] }] = some s ∧ s.heap 5 = none :=
    ⟨_, rfl, by decide⟩
  exact ⟨s, hs, hfree, (callback_never_dangling 7 _ s hs).1⟩

end LuaRobot
