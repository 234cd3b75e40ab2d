import LuaRobot.Callback
import LuaRobot.Triples

/-!
# The script and its callback live apart

No object that the script can get at refers to the userdata or the thread of the
callback. So the collector finds these only from the registry, and nothing but
`setCallback` changes them.

Results:
1. `inv_collect`: a collection keeps the invariant.
2. `setCallback_spec`: so does a call, at every place where it may raise.
-/

namespace LuaRobot

open LuaStack LuaStack.StackLemmas TracedHeap Triples ServiceState

/-! ## Definitions -/

/-- The userdata and the thread of a callback, and the function on its stack. -/
structure Registration where
  cb : ℕ
  th : ℕ
  x : Value

def Registration.cells (r : Registration) (this : ℕ) : List (ℕ × Object) :=
  [(r.cb, { kind := .userdata, refs := [.thread r.th], raw := r.th }),
    (r.th, { kind := .thread, refs := [r.x], raw := this })]

/-- The value is no object, or one of `V`. -/
def Within (V : ℕ → Prop) (v : Value) : Prop := ∀ a, address v = some a → V a

def ServiceState.IsThread (s : ServiceState) (a : ℕ) : Prop :=
  ∃ o, s.heap a = some o ∧ o.kind = .thread

/-- The frame holds `a`, or a new object that it holds refers to `a`. -/
def Anchored (s : ServiceState) (new : List (ℕ × Object)) (a : ℕ) : Prop :=
  (∃ v ∈ s.frame, address v = some a) ∨
  ∃ q ∈ new, (∃ v ∈ s.frame, address v = some q.1) ∧ a ∈ q.2.addresses

/-- `V` has what the script can get at, and refers to nothing else. -/
structure Region (s : ServiceState) (V : ℕ → Prop) : Prop where
  live : ∀ a, V a → ∃ o, s.heap a = some o
  closed : ∀ a o, V a → s.heap a = some o → ∀ v ∈ o.refs, Within V v
  space : ∀ a o, V a → s.heap a = some o → o.kind = .thread → o.raw = s.this
  threads : ∀ a ∈ s.mainthread :: s.L :: s.resumers, V a ∧ s.IsThread a
  registry : ∀ k v, k ≠ CALLBACK_CONTEXT → s.registry.lookup k = some v → Within V v

/-- `r` is the callback, and `new` are the objects that a call under way has made;
`V` has none of them. -/
structure Inv (s : ServiceState) (V : ℕ → Prop) (r : Option Registration)
    (new : List (ℕ × Object)) : Prop extends Region s V where
  entry : s.registry.lookup CALLBACK_CONTEXT = r.map fun r => .userdata r.cb
  callback : s.callback = r.map Registration.cb
  cells : ∀ p ∈ new ++ r.elim [] (·.cells s.this), s.heap p.1 = some p.2 ∧ ¬ V p.1
  nodup : ((new ++ r.elim [] (·.cells s.this)).map Prod.fst).Nodup
  held : ∀ r' ∈ r, Within V r'.x
  frame : ∀ v ∈ s.frame, Within V v ∨ ∃ p ∈ new, address v = some p.1
  anchored : ∀ p ∈ new, Anchored s new p.1

/-- Inside a call on the service at `t`, with the first argument `x`. -/
def Phase (t : ℕ) (r : Option Registration) (x : Value) (F : List Value)
    (new : List (ℕ × Object)) (s : ServiceState) : Prop :=
  ∃ V, Inv s V r new ∧ s.frame = F ∧ Within V x ∧ s.this = t

/-- Outside of a call. -/
def Outside (t : ℕ) (r : Option Registration) (s : ServiceState) : Prop :=
  ∃ V, Inv { s with frame := [] } V r [] ∧ s.this = t

def ServiceState.Allocations.all (c : Allocations) : List Allocation :=
  [c.message, c.userdata, c.thread, c.stack, c.key, c.entry]

/-- Why a call with these arguments may raise: the first is no function, or an
allocation fails. -/
def Fails (args : List Value) (c : Allocations) : ApiError → Prop
  | .typeerror .. => typeOf args.getLast? ≠ LUA_TFUNCTION
  | .memory => ∃ a ∈ c.all, a.ok = false
  | .undefined => False
  | .stuck => True

/-! ## 1. Collections -/

namespace CallbackLemmas

theorem mem_addresses {o : Object} {a : ℕ} :
    a ∈ o.addresses ↔ ∃ v ∈ o.refs, address v = some a := List.mem_filterMap

theorem mem_roots_thread {s : ServiceState} {a : ℕ} (h : a ∈ s.mainthread :: s.L :: s.resumers) :
    a ∈ s.roots := List.mem_append_left _ h

theorem mem_roots_frame {s : ServiceState} {v : Value} {a : ℕ} (hv : v ∈ s.frame)
    (ha : address v = some a) : a ∈ s.roots :=
  List.mem_append_right _ (List.mem_filterMap.mpr ⟨v, List.mem_append_right _ hv, ha⟩)

theorem mem_roots_registry {s : ServiceState} {k v : Value} {a : ℕ}
    (hv : s.registry.lookup k = some v) (ha : address v = some a) : a ∈ s.roots := by
  have hmem : (⟨k, v⟩ : Sigma fun _ : Value => Value) ∈ s.registry.entries :=
    AList.mem_lookup_iff.mp hv
  exact List.mem_append_right _ (List.mem_filterMap.mpr
    ⟨v, List.mem_append_left _ (List.mem_map.mpr ⟨_, hmem, rfl⟩), ha⟩)

end CallbackLemmas

open CallbackLemmas

namespace CallbackLemmas

/-- Of the callback everything is reachable: the registry has the userdata, that
has the thread, and that the function. -/
theorem reachable_callback {s : ServiceState} {V : ℕ → Prop} {r : Registration}
    {new : List (ℕ × Object)} (h : Inv s V (some r) new) :
    (∀ p ∈ r.cells s.this, Reachable Object.addresses s.roots s.heap p.1) ∧
      ∀ a, address r.x = some a → Reachable Object.addresses s.roots s.heap a := by
  have hcells : ∀ p ∈ r.cells s.this, s.heap p.1 = some p.2 :=
    fun p hp => (h.cells p (List.mem_append_right _ hp)).1
  have hcb : Reachable Object.addresses s.roots s.heap r.cb :=
    .root (mem_roots_registry h.entry rfl)
  have hth : Reachable Object.addresses s.roots s.heap r.th :=
    .ref hcb (hcells _ List.mem_cons_self) (mem_addresses.mpr ⟨_, List.mem_cons_self, rfl⟩)
  refine ⟨?_, fun a ha => ?_⟩
  · intro p hp
    rcases List.mem_cons.mp hp with rfl | hp
    · exact hcb
    · rw [List.mem_singleton.mp hp]
      exact hth
  · exact .ref hth (hcells _ (List.mem_cons_of_mem _ List.mem_cons_self))
      (mem_addresses.mpr ⟨_, List.mem_cons_self, ha⟩)

/-- So is what is under construction. -/
theorem reachable_new {s : ServiceState} {V : ℕ → Prop} {r : Option Registration}
    {new : List (ℕ × Object)} (h : Inv s V r new) :
    ∀ p ∈ new, Reachable Object.addresses s.roots s.heap p.1 := by
  intro p hp
  rcases h.anchored p hp with ⟨v, hv, ha⟩ | ⟨q, hq, ⟨v, hv, ha⟩, href⟩
  · exact .root (mem_roots_frame hv ha)
  · exact .ref (.root (mem_roots_frame hv ha)) (h.cells q (List.mem_append_left _ hq)).1 href

theorem reachable_cells {s : ServiceState} {V : ℕ → Prop} {r : Option Registration}
    {new : List (ℕ × Object)} (h : Inv s V r new) :
    ∀ p ∈ new ++ r.elim [] (·.cells s.this), Reachable Object.addresses s.roots s.heap p.1 := by
  intro p hp
  rcases List.mem_append.mp hp with hp | hp
  · exact reachable_new h p hp
  · cases r with
    | none => cases hp
    | some r => exact (reachable_callback h).1 p hp

end CallbackLemmas

/-- What the collector may free is neither the script's nor the callback's, nor an
object under construction. -/
theorem inv_collect {s : ServiceState} {V : ℕ → Prop} {r : Option Registration}
    {new : List (ℕ × Object)} (h : Inv s V r new) (c : Collection) :
    ∃ V', Inv (s.collect c) V' r new ∧ ∀ v ∈ s.frame, Within V v → Within V' v := by
  by_cases hc : c.Valid Object.addresses s.roots s.heap
  · have hkept : ∀ a, a ∈ c.marked → (s.collect c).heap a = s.heap a :=
      fun a ha => collect_of_marked hc ha
    have hold : ∀ {a o}, (s.collect c).heap a = some o → s.heap a = some o := of_collect
    -- the script keeps what is marked
    refine ⟨fun a => V a ∧ a ∈ c.marked, ⟨⟨?_, ?_, ?_, ?_, ?_⟩, h.entry, h.callback, ?_, h.nodup,
      ?_, ?_, h.anchored⟩, fun v hv hw a ha => ⟨hw a ha, hc.roots a (mem_roots_frame hv ha)⟩⟩
    · rintro a ⟨hV, ha⟩
      rw [hkept a ha]
      exact h.live a hV
    · rintro a o ⟨hV, ha⟩ ho v hv b hb
      exact ⟨h.closed a o hV (hold ho) v hv b hb,
        hc.closed a ha o (hold ho) b (mem_addresses.mpr ⟨v, hv, hb⟩)⟩
    · rintro a o ⟨hV, _⟩ ho hk
      exact h.space a o hV (hold ho) hk
    · intro a ha
      obtain ⟨hV, o, ho, hk⟩ := h.threads a ha
      have hm := hc.roots a (mem_roots_thread ha)
      exact ⟨⟨hV, hm⟩, o, (hkept a hm).trans ho, hk⟩
    · intro k v hk hv a ha
      exact ⟨h.registry k v hk hv a ha, hc.roots a (mem_roots_registry hv ha)⟩
    · intro p hp
      obtain ⟨hheap, hV⟩ := h.cells p hp
      exact ⟨(collect_of_reachable (reachable_cells h p hp)).trans hheap, fun hV' => hV hV'.1⟩
    · rintro r' rfl a ha
      exact ⟨h.held r' rfl a ha, marked_of_reachable hc ((reachable_callback h).2 a ha)⟩
    · intro v hv
      rcases h.frame v hv with hw | hnew
      · exact Or.inl fun a ha => ⟨hw a ha, hc.roots a (mem_roots_frame hv ha)⟩
      · exact Or.inr hnew
  · have hsame : s.collect c = s := by
      rw [ServiceState.collect, collect_of_not_valid hc]
    exact ⟨V, by rwa [hsame], fun _ _ hw => hw⟩

/-! ## 2. The call -/

namespace CallbackLemmas

variable {s : ServiceState} {V : ℕ → Prop} {r : Option Registration} {new : List (ℕ × Object)}

theorem address_value (kind : Kind) (a : ℕ) : address (kind.value a) = some a := by
  cases kind <;> rfl

theorem inv_frame (h : Inv s V r new) {F : List Value} (hF : ∀ v ∈ F, v ∈ s.frame)
    (hnew : ∀ p ∈ new, Anchored { s with frame := F } new p.1) :
    Inv { s with frame := F } V r new :=
  { h with frame := fun v hv => h.frame v (hF v hv), anchored := hnew }

theorem inv_enter (h : Inv s V r []) {F : List Value} (hF : ∀ v ∈ F, Within V v) :
    Inv { s with frame := F } V r [] :=
  { h with
    frame := fun v hv => Or.inl (hF v hv)
    anchored := fun _ hp => absurd hp List.not_mem_nil }

/-- Without the frame the objects under construction are garbage. -/
theorem inv_unwind (h : Inv s V r new) : Inv { s with frame := [] } V r [] :=
  { h with
    cells := fun p hp => h.cells p (List.mem_append_right _ hp)
    nodup := h.nodup.sublist (List.Sublist.map _ (List.sublist_append_right _ _))
    frame := fun _ hv => absurd hv List.not_mem_nil
    anchored := fun _ hp => absurd hp List.not_mem_nil }

/-- The region does not see a change outside of it. -/
theorem region_congr {s' : ServiceState} (h : Region s V) (hheap : ∀ a, V a → s'.heap a = s.heap a)
    (hthis : s'.this = s.this)
    (hthreads : s'.mainthread :: s'.L :: s'.resumers = s.mainthread :: s.L :: s.resumers)
    (hregistry : ∀ k, k ≠ CALLBACK_CONTEXT → s'.registry.lookup k = s.registry.lookup k) :
    Region s' V := by
  refine ⟨?_, ?_, ?_, ?_, ?_⟩
  · intro a ha
    rw [hheap a ha]
    exact h.live a ha
  · intro a o ha
    rw [hheap a ha]
    exact h.closed a o ha
  · intro a o ha
    rw [hheap a ha, hthis]
    exact h.space a o ha
  · rw [hthreads]
    intro a ha
    obtain ⟨hV, o, ho, hk⟩ := h.threads a ha
    exact ⟨hV, o, (hheap a hV).trans ho, hk⟩
  · intro k v hk
    rw [hregistry k hk]
    exact h.registry k v hk

theorem place_self (s : ServiceState) (a : ℕ) (o : Object) : (s.place a o).heap a = some o :=
  Function.update_self ..

theorem place_of_used {a b : ℕ} {o o' : Object} (ha : s.heap a = none) (hb : s.heap b = some o') :
    b ≠ a ∧ (s.place a o).heap b = s.heap b := by
  have hne : b ≠ a := by
    rintro rfl
    rw [ha] at hb
    cases hb
  exact ⟨hne, Function.update_of_ne hne _ _⟩

theorem place_of_live (h : Region s V) {a b : ℕ} {o : Object} (ha : s.heap a = none) (hb : V b) :
    b ≠ a ∧ (s.place a o).heap b = s.heap b :=
  (h.live b hb).elim fun _ ho => place_of_used ha ho

/-- A new object is nobody's but the frame's. -/
theorem inv_create (h : Inv s V r new) {a : ℕ} (ha : s.heap a = none) (o : Object) :
    Inv { s.place a o with frame := o.kind.value a :: s.frame } V r (new ++ [(a, o)]) := by
  have hcells : ∀ p ∈ new ++ r.elim [] (·.cells s.this),
      (s.place a o).heap p.1 = some p.2 ∧ ¬ V p.1 := fun p hp =>
    ⟨(place_of_used ha (h.cells p hp).1).2.trans (h.cells p hp).1, (h.cells p hp).2⟩
  refine { toRegion := region_congr h.toRegion
             (fun b hb => (place_of_live h.toRegion ha hb).2) rfl rfl fun _ _ => rfl
           entry := h.entry, callback := h.callback, cells := ?_, nodup := ?_, held := h.held
           frame := ?_, anchored := ?_ }
  · intro p hp
    rw [List.append_assoc, List.mem_append, List.mem_append, List.mem_singleton] at hp
    rcases hp with hp | rfl | hp
    · exact hcells p (List.mem_append_left _ hp)
    · exact ⟨place_self .., fun hVa => (place_of_live (o := o) h.toRegion ha hVa).1 rfl⟩
    · exact hcells p (List.mem_append_right _ hp)
  · have hperm : (((a, o) :: (new ++ r.elim [] (·.cells s.this))).map Prod.fst).Nodup := by
      refine List.nodup_cons.mpr ⟨fun hmem => ?_, h.nodup⟩
      obtain ⟨p, hp, hpa⟩ := List.mem_map.mp hmem
      exact (place_of_used (o := o) ha (h.cells p hp).1).1 hpa
    refine (List.Perm.nodup_iff (List.Perm.map _ ?_)).mp hperm
    rw [List.append_assoc]
    exact List.perm_middle.symm
  · intro v hv
    rcases List.mem_cons.mp hv with rfl | hv
    · exact Or.inr ⟨(a, o), List.mem_append_right _ (List.mem_singleton.mpr rfl),
        address_value o.kind a⟩
    · exact (h.frame v hv).imp_right fun ⟨p, hp, hpa⟩ => ⟨p, List.mem_append_left _ hp, hpa⟩
  · intro p hp
    rcases List.mem_append.mp hp with hp | hp
    · rcases h.anchored p hp with ⟨v, hv, hva⟩ | ⟨q, hq, ⟨v, hv, hva⟩, href⟩
      · exact Or.inl ⟨v, List.mem_cons_of_mem _ hv, hva⟩
      · exact Or.inr ⟨q, List.mem_append_left _ hq, ⟨v, List.mem_cons_of_mem _ hv, hva⟩, href⟩
    · rw [List.mem_singleton.mp hp]
      exact Or.inl ⟨_, List.mem_cons_self, address_value o.kind a⟩

theorem modify_self {a : ℕ} {o : Object} (h : s.heap a = some o) (f : Object → Object) :
    (s.modify a f).heap a = some (f o) := by
  rw [ServiceState.modify, h]
  exact Function.update_self ..

theorem modify_of_ne {a b : ℕ} (h : b ≠ a) (f : Object → Object) :
    (s.modify a f).heap b = s.heap b := Function.update_of_ne h _ _

/-- A change of the first new object that keeps its references. -/
theorem inv_modify_new {a : ℕ} {o : Object} (h : Inv s V r ((a, o) :: new)) (f : Object → Object)
    (hf : ∀ b ∈ o.addresses, b ∈ (f o).addresses) :
    Inv (s.modify a f) V r ((a, f o) :: new) := by
  obtain ⟨hheap, hVa⟩ := h.cells (a, o) List.mem_cons_self
  have hV : ∀ b, V b → b ≠ a := fun b hb hba => hVa (hba ▸ hb)
  refine { toRegion := region_congr h.toRegion (fun b hb => modify_of_ne (hV b hb) f) rfl rfl
             fun _ _ => rfl
           entry := h.entry, callback := h.callback, cells := ?_, nodup := h.nodup, held := h.held
           frame := ?_, anchored := ?_ }
  · intro p hp
    rcases List.mem_cons.mp hp with rfl | hp
    · exact ⟨modify_self hheap f, hVa⟩
    · obtain ⟨hp', hVp⟩ := h.cells p (List.mem_cons_of_mem _ hp)
      have hne : p.1 ≠ a := fun hpa =>
        (List.nodup_cons.mp h.nodup).1 (List.mem_map.mpr ⟨p, hp, hpa⟩)
      exact ⟨(modify_of_ne hne f).trans hp', hVp⟩
  · intro v hv
    refine (h.frame v hv).imp_right ?_
    rintro ⟨p, hp, hpa⟩
    rcases List.mem_cons.mp hp with rfl | hp
    · exact ⟨(a, f o), List.mem_cons_self, hpa⟩
    · exact ⟨p, List.mem_cons_of_mem _ hp, hpa⟩
  · have hanchored : ∀ p ∈ (a, o) :: new, Anchored (s.modify a f) ((a, f o) :: new) p.1 := by
      intro p hp
      rcases h.anchored p hp with hheld | ⟨q, hq, hheld, href⟩
      · exact Or.inl hheld
      · rcases List.mem_cons.mp hq with rfl | hq
        · exact Or.inr ⟨(a, f o), List.mem_cons_self, hheld, hf _ href⟩
        · exact Or.inr ⟨q, List.mem_cons_of_mem _ hq, hheld, href⟩
    intro p hp
    rcases List.mem_cons.mp hp with rfl | hp
    · exact hanchored (a, o) List.mem_cons_self
    · exact hanchored p (List.mem_cons_of_mem _ hp)

/-- The registry has the new userdata, and that the thread with the function. -/
theorem inv_commit {cb th : ℕ} {x : Value} (h : Inv s V r
      [(cb, { kind := .userdata, refs := [.thread th], raw := th }),
        (th, { kind := .thread, raw := s.this })]) (hx : Within V x) :
    Inv { s.modify th fun o => { o with refs := x :: o.refs } with
      registry := s.registry.insert CALLBACK_CONTEXT (.userdata cb)
      frame := []
      callback := some cb } V (some ⟨cb, th, x⟩) [] := by
  obtain ⟨hcb, hVcb⟩ := h.cells _ List.mem_cons_self
  obtain ⟨hth, hVth⟩ := h.cells _ (List.mem_cons_of_mem _ List.mem_cons_self)
  have hV : ∀ b, V b → b ≠ th := by
    rintro b hb rfl
    exact hVth hb
  have hne : cb ≠ th := fun hcbth => (List.nodup_cons.mp h.nodup).1 (by simp [hcbth])
  refine { toRegion := region_congr h.toRegion
             (fun b hb => modify_of_ne (hV b hb) _) rfl rfl
             fun k hk => AList.lookup_insert_ne hk
           entry := AList.lookup_insert _, callback := rfl, cells := ?_, nodup := ?_, held := ?_
           frame := fun _ hv => absurd hv List.not_mem_nil
           anchored := fun _ hp => absurd hp List.not_mem_nil }
  · intro p hp
    rcases List.mem_cons.mp hp with rfl | hp
    · exact ⟨(modify_of_ne hne _).trans hcb, hVcb⟩
    · rw [List.mem_singleton.mp hp]
      exact ⟨modify_self hth _, hVth⟩
  · exact List.nodup_cons.mpr ⟨by simpa using hne, List.nodup_singleton _⟩
  · rintro r' hr'
    cases hr'
    exact hx

/-! One function of the API after the other. -/

variable {t : ℕ} {x : Value} {F : List Value} {args : List Value} {c : Allocations}

theorem phase_collect (h : Phase t r x F new s) (hx : x ∈ F) (gc : Collection) :
    Phase t r x F new (s.collect gc) := by
  obtain ⟨V, hinv, rfl, hV, ht⟩ := h
  obtain ⟨V', hinv', hV'⟩ := inv_collect hinv gc
  exact ⟨V', hinv', rfl, hV' x hx hV, ht⟩

theorem phase_outside (h : Phase t r x F new s) : Outside t r s := by
  obtain ⟨V, hinv, _, _, ht⟩ := h
  exact ⟨V, inv_unwind hinv, ht⟩

theorem alloc_ok {a : Allocation} (h : a.ok = true) : alloc a s = .ok () (s.collect a.gc) :=
  if_pos h

theorem alloc_failed {a : Allocation} (h : a.ok = false) :
    alloc a s = .error .memory (s.collect a.gc) := by
  unfold alloc
  rw [h]
  rfl

theorem alloc_spec (hx : x ∈ F) {a : Allocation} (ha : a ∈ c.all) :
    Triple (Phase t r x F new) (alloc a) (fun _ => Phase t r x F new)
      (fun e s => Fails args c e ∧ Outside t r s) := by
  intro s hs
  have hgc := phase_collect hs hx a.gc
  cases hok : a.ok with
  | true =>
    rw [alloc_ok hok]
    exact hgc
  | false =>
    rw [alloc_failed hok]
    exact ⟨⟨a, ha, hok⟩, phase_outside hgc⟩

theorem create_spec (a : ℕ) (o : Object) :
    Triple (Phase t r x F new) (create a o)
      (fun _ => Phase t r x (o.kind.value a :: F) (new ++ [(a, o)]))
      (fun e s => Fails args c e ∧ Outside t r s) := by
  intro s hs
  unfold create
  cases ha : s.heap a with
  | some o' => exact ⟨trivial, phase_outside hs⟩
  | none =>
    obtain ⟨V, hinv, rfl, hV, ht⟩ := hs
    exact ⟨V, inv_create hinv ha o, rfl, hV, ht⟩

theorem newuserdata_spec :
    Triple (Phase t r x [x] []) (lua_newuserdata c.userdata c.cb c.gc)
      (fun cb => Phase t r x [.userdata cb, x] [(cb, { kind := .userdata, refs := [.nil] })])
      (fun e s => Fails args c e ∧ Outside t r s) := by
  refine triple_bind (alloc_spec List.mem_cons_self (by simp [Allocations.all])) fun _ => ?_
  refine triple_bind (create_spec c.cb _) fun _ => ?_
  refine triple_bind (Q := fun _ => Phase t r x [.userdata c.cb, x]
    [(c.cb, { kind := .userdata, refs := [.nil] })]) ?_ fun _ => ?_
  · exact fun s hs => phase_collect hs (List.mem_cons_of_mem _ List.mem_cons_self) c.gc
  · exact fun s hs => hs

theorem object_eq {kind : Kind} {a : ℕ} {o : Object} (h : s.heap a = some o)
    (hk : o.kind = kind) : s.object kind a = some o := by
  rw [ServiceState.object, h]
  exact Option.filter_eq_some_iff.mpr ⟨rfl, decide_eq_true hk⟩

/-- The main thread, from which a new thread has its extra space. -/
theorem createThread_spec (a : ℕ) :
    Triple (Phase t r x F new) (createThread a)
      (fun _ => Phase t r x (.thread a :: F) (new ++ [(a, { kind := .thread, raw := t })]))
      (fun e s => Fails args c e ∧ Outside t r s) := by
  intro s hs
  have hmain : ∃ o, s.object .thread s.mainthread = some o ∧ o.raw = t := by
    obtain ⟨V, hinv, _, _, rfl⟩ := hs
    obtain ⟨hV, o, ho, hk⟩ := hinv.threads s.mainthread List.mem_cons_self
    exact ⟨o, object_eq ho hk, hinv.space _ o hV ho hk⟩
  obtain ⟨o, ho, rfl⟩ := hmain
  unfold createThread
  rw [ho]
  exact create_spec a { kind := .thread, raw := o.raw } s hs

theorem newthread_spec {cb : ℕ} {o : Object} :
    Triple (Phase t r x [.userdata cb, x] [(cb, o)]) (lua_newthread c.thread c.th c.stack)
      (fun th => Phase t r x [.thread th, .userdata cb, x]
        [(cb, o), (th, { kind := .thread, raw := t })])
      (fun e s => Fails args c e ∧ Outside t r s) := by
  have hx : x ∈ [.userdata cb, x] := List.mem_cons_of_mem _ List.mem_cons_self
  refine triple_bind (alloc_spec hx (by simp [Allocations.all])) fun _ => ?_
  refine triple_bind (createThread_spec c.th) fun _ => ?_
  refine triple_bind (alloc_spec (List.mem_cons_of_mem _ hx) (by simp [Allocations.all]))
    fun _ => ?_
  exact fun s hs => hs

theorem storeCallbackL_spec {cb th : ℕ} {o : Object} (hk : o.kind = .userdata) :
    Triple (Phase t r x F ((cb, o) :: new)) (storeCallbackL cb th)
      (fun _ => Phase t r x F ((cb, { o with raw := th }) :: new))
      (fun e s => Fails args c e ∧ Outside t r s) := by
  refine triple_of_eq fun s hs => ?_
  obtain ⟨V, hinv, rfl, hV, ht⟩ := hs
  refine ⟨(), s.modify cb fun o => { o with raw := th }, ?_, V,
    inv_modify_new hinv (fun o => { o with raw := th }) fun _ h => h, rfl, hV, ht⟩
  unfold storeCallbackL
  rw [object_eq (hinv.cells _ List.mem_cons_self).1 hk]

theorem setuservalue_spec {cb th : ℕ} {o : Object} (hrefs : o.refs = [.nil]) {ot : Object} :
    Triple (Phase t r x [.thread th, .userdata cb, x] [(cb, o), (th, ot)]) lua_setuservalue
      (fun _ => Phase t r x [.userdata cb, x]
        [(cb, { o with refs := [.thread th] }), (th, ot)])
      (fun e s => Fails args c e ∧ Outside t r s) := by
  refine triple_of_eq fun s hs => ?_
  obtain ⟨V, hinv, hframe, hV, ht⟩ := hs
  have hset := inv_modify_new hinv (fun o => { o with refs := [.thread th] }) fun b hb => by
    rw [Object.addresses, hrefs] at hb
    cases hb
  refine ⟨(), { s.modify cb fun o => { o with refs := [.thread th] } with
    frame := [.userdata cb, x] }, ?_, V, inv_frame hset ?_ ?_, rfl, hV, ht⟩
  · unfold lua_setuservalue
    rw [hframe]
  · intro v hv
    have hv' : v ∈ s.frame := by
      rw [hframe]
      exact List.mem_cons_of_mem _ hv
    exact hv'
  · -- the userdata is in the frame, the thread is its user value
    intro p hp
    have hheld : ∃ v ∈ [Value.userdata cb, x], address v = some cb := ⟨_, List.mem_cons_self, rfl⟩
    rcases List.mem_cons.mp hp with rfl | hp
    · exact Or.inl hheld
    · rw [List.mem_singleton.mp hp]
      exact Or.inr ⟨_, List.mem_cons_self, hheld, mem_addresses.mpr ⟨_, List.mem_cons_self, rfl⟩⟩

theorem allocEntry_spec (hx : x ∈ F) (k : Value) :
    Triple (Phase t r x F new) (allocEntry k c.entry) (fun _ => Phase t r x F new)
      (fun e s => Fails args c e ∧ Outside t r s) := by
  intro s hs
  have hentry : c.entry ∈ c.all := by simp [Allocations.all]
  unfold allocEntry
  cases (s.registry.lookup k).isNone with
  | true => exact alloc_spec hx hentry s hs
  | false => exact hs

/-- The registry has the userdata now, and `LuaService::callback` is still the old
one: nothing is allocated from here on. -/
def Committing (t : ℕ) (r : Option Registration) (x : Value) (cb th : ℕ) (s' : ServiceState) :
    Prop :=
  ∃ s, Phase t r x [.userdata cb, x]
    [(cb, { kind := .userdata, refs := [.thread th], raw := th }),
      (th, { kind := .thread, raw := t })] s ∧
    s' = { s with registry := s.registry.insert CALLBACK_CONTEXT (.userdata cb), frame := [x] }

theorem setfield_spec {cb th : ℕ} :
    Triple (Phase t r x [.userdata cb, x]
        [(cb, { kind := .userdata, refs := [.thread th], raw := th }),
          (th, { kind := .thread, raw := t })])
      (lua_setfield_registry CALLBACK_CONTEXT c.key c.entry)
      (fun _ => Committing t r x cb th)
      (fun e s => Fails args c e ∧ Outside t r s) := by
  have hx : x ∈ [.userdata cb, x] := List.mem_cons_of_mem _ List.mem_cons_self
  refine triple_bind (alloc_spec hx (by simp [Allocations.all])) fun _ => ?_
  refine triple_bind (allocEntry_spec hx _) fun _ => ?_
  refine triple_of_eq fun s hs => ⟨(), _, ?_, s, hs, rfl⟩
  obtain ⟨V, _, hframe, _, _⟩ := hs
  unfold setRegistry
  rw [hframe]

theorem commit_spec {cb th : ℕ} :
    Triple (Committing t r x cb th)
      (do
        lua_xmove (← loadCallbackL cb)
        setCB t cb)
      (fun _ => Phase t (some ⟨cb, th, x⟩) x [] [])
      (fun e s => Fails args c e ∧ Outside t r s) := by
  refine triple_of_eq fun s' hs => ?_
  obtain ⟨s, ⟨V, hinv, hframe, hV, rfl⟩, rfl⟩ := hs
  let s₁ : ServiceState :=
    { s with registry := s.registry.insert CALLBACK_CONTEXT (.userdata cb), frame := [x] }
  have hcb : s₁.object .userdata cb = some { kind := .userdata, refs := [.thread th], raw := th } :=
    object_eq (hinv.cells _ List.mem_cons_self).1 rfl
  have hth : s₁.object .thread th = some { kind := .thread, raw := s.this } :=
    object_eq (hinv.cells _ (List.mem_cons_of_mem _ List.mem_cons_self)).1 rfl
  have hload : loadCallbackL cb s₁ = .ok th s₁ := by
    unfold loadCallbackL
    rw [hcb]
  have hmove : lua_xmove th s₁ =
      .ok () { s₁.modify th fun o => { o with refs := x :: o.refs } with frame := [] } := by
    unfold lua_xmove
    rw [hth]
  refine ⟨(), _, ?_, V, inv_commit hinv hV, rfl, hV, rfl⟩
  refine (bind_ok hload).trans ((bind_ok hmove).trans ?_)
  exact if_pos rfl

/-- The extra space of the running thread. -/
theorem getServiceFromL_eq (h : Region s V) : getServiceFromL s = .ok s.this s := by
  obtain ⟨hV, o, ho, hk⟩ := h.threads s.L (List.mem_cons_of_mem _ List.mem_cons_self)
  unfold getServiceFromL
  rw [object_eq ho hk]
  exact congrArg (EStateM.Result.ok · s) (h.space _ o hV ho hk)

theorem settop_one (h : s.frame.getLast? = some x) :
    lua_settop 1 s = .ok () { s with frame := [x] } := by
  obtain ⟨F, hF⟩ := List.getLast?_eq_some_iff.mp h
  unfold lua_settop
  rw [hF]
  simp

theorem checktype_raises (h : Inv s V r new) (hno : typeOf s.frame.getLast? ≠ LUA_TFUNCTION) :
    ∃ e s', luaL_checktype1 LUA_TFUNCTION c.message s = .error e s' ∧ Fails s.frame c e ∧
      Outside s.this r s' := by
  obtain ⟨V', hinv', _⟩ := inv_collect h c.message.gc
  have houtside : Outside s.this r (s.collect c.message.gc) := ⟨V', inv_unwind hinv', rfl⟩
  unfold luaL_checktype1
  rw [if_neg hno]
  cases hok : c.message.ok with
  | false =>
    exact ⟨_, _, bind_error (alloc_failed hok), ⟨c.message, List.mem_cons_self, hok⟩, houtside⟩
  | true => exact ⟨_, _, bind_ok (alloc_ok hok), hno, houtside⟩

end CallbackLemmas

/-- A call either registers its first argument, which is a function, or raises and
leaves the registration as it was. It never goes through a dangling pointer. -/
theorem setCallback_spec {t : ℕ} {r : Option Registration} {args : List Value} (c : Allocations) :
    Triple
      (fun s => ∃ V, Inv s V r [] ∧ s.frame = args ∧ (∀ v ∈ args, Within V v) ∧ s.this = t)
      (setCallback c)
      (fun _ s => ∃ cb th x, args.getLast? = some x ∧ typeOf (some x) = LUA_TFUNCTION ∧
        Phase t (some ⟨cb, th, x⟩) x [] [] s)
      (fun e s => Fails args c e ∧ Outside t r s) := by
  intro s hs
  obtain ⟨V, hinv, rfl, hargs, rfl⟩ := hs
  rw [setCallback, bind_ok (getServiceFromL_eq hinv.toRegion)]
  by_cases hfunction : typeOf s.frame.getLast? = LUA_TFUNCTION
  · have hcheck : luaL_checktype1 LUA_TFUNCTION c.message s = .ok () s := if_pos hfunction
    obtain ⟨x, hx⟩ : ∃ x, s.frame.getLast? = some x := by
      cases h : s.frame.getLast? with
      | some x => exact ⟨x, rfl⟩
      | none =>
        rw [h] at hfunction
        exact absurd hfunction (by decide)
    rw [bind_ok hcheck, bind_ok (settop_one hx)]
    have hmem : x ∈ s.frame := List.mem_of_getLast? hx
    have hphase : Phase s.this r x [x] [] { s with frame := [x] } :=
      ⟨V, inv_enter hinv (by simpa using hargs x hmem), rfl, hargs x hmem, rfl⟩
    refine (triple_bind newuserdata_spec fun cb => ?_ : Triple (Phase s.this r x [x] []) _ _ _) _
      hphase
    refine triple_bind newthread_spec fun th => ?_
    refine triple_bind (storeCallbackL_spec rfl) fun _ => ?_
    refine triple_bind (setuservalue_spec rfl) fun _ => ?_
    refine triple_bind setfield_spec fun _ => ?_
    refine triple_post commit_spec fun _ s' hs' => ?_
    exact ⟨cb, th, x, hx, hx ▸ hfunction, hs'⟩
  · obtain ⟨e, s', heq, hfails, houtside⟩ := checktype_raises (c := c) hinv hfunction
    rw [bind_error heq]
    exact ⟨hfails, houtside⟩

end LuaRobot
