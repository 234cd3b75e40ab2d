import LuaRobot.CallbackSafety

/-!
# What the callback keeps alive

The userdata and the thread of `setCallback` (`lua_cpp/lua_register_libs.cpp`) are
objects of the Lua state like those of the script, and only the entry
`callback_context` of the registry leads to them. A script could read it with
`debug.getregistry`, and the thread with `debug.getuservalue`; the scripts here do
not. Then they can reach neither of the two objects; and of all that is reachable,
these and what the registered function reaches are all that is there on account of
the callback.

Results:
1. `reachable_iff`: what is reachable, with the callback and without.
2. `callback_isolated`: this after every run, and `getServiceFromL` of every thread.
-/

namespace LuaRobot

open LuaStack TracedHeap Runs ServiceState CallbackLemmas

/-! ## Definitions -/

/-- Where a script starts from that does not read the entry of the callback: the
threads, and the rest of the registry. -/
def ServiceState.scriptRoots (s : ServiceState) : List ℕ :=
  s.mainthread :: s.L :: s.resumers ++
    ((s.registry.erase CALLBACK_CONTEXT).entries.map Sigma.snd).filterMap address

def Registration.function? (r : Registration) : Option ℕ := address r.x

/-! ## 1. What is reachable -/

namespace CallbackIsolationLemmas

variable {s : ServiceState} {V : ℕ → Prop} {r : Option Registration} {a : ℕ}

theorem mem_values {m : AList fun _ : Value => Value} :
    a ∈ (m.entries.map Sigma.snd).filterMap address ↔
      ∃ k v, m.lookup k = some v ∧ address v = some a := by
  rw [List.mem_filterMap]
  constructor
  · rintro ⟨v, hv, ha⟩
    obtain ⟨⟨k, v'⟩, hmem, rfl⟩ := List.mem_map.mp hv
    exact ⟨k, v', AList.mem_lookup_iff.mpr hmem, ha⟩
  · rintro ⟨k, v, hv, ha⟩
    exact ⟨v, List.mem_map.mpr ⟨⟨k, v⟩, AList.mem_lookup_iff.mp hv, rfl⟩, ha⟩

theorem mem_scriptRoots : a ∈ s.scriptRoots ↔ a ∈ s.mainthread :: s.L :: s.resumers ∨
    ∃ k v, k ≠ CALLBACK_CONTEXT ∧ s.registry.lookup k = some v ∧ address v = some a := by
  rw [ServiceState.scriptRoots, List.mem_append, mem_values]
  refine or_congr_right (exists_congr fun k => exists_congr fun v => ?_)
  rcases eq_or_ne k CALLBACK_CONTEXT with rfl | hk
  · rw [AList.lookup_erase]
    exact iff_of_false (fun h => nomatch h.1) fun h => h.1 rfl
  · rw [AList.lookup_erase_ne hk]
    exact (and_iff_right hk).symm

/-- Between two events the roots are those of the script, and the entry of the
callback. -/
theorem mem_roots (hframe : s.frame = []) : a ∈ s.roots ↔ a ∈ s.scriptRoots ∨
    ∃ v, s.registry.lookup CALLBACK_CONTEXT = some v ∧ address v = some a := by
  rw [ServiceState.roots, hframe, List.append_nil, List.mem_append, mem_values, mem_scriptRoots,
    or_assoc]
  refine or_congr_right ⟨?_, ?_⟩
  · rintro ⟨k, v, hv, ha⟩
    rcases eq_or_ne k CALLBACK_CONTEXT with rfl | hk
    · exact Or.inr ⟨v, hv, ha⟩
    · exact Or.inl ⟨k, v, hk, hv, ha⟩
  · rintro (⟨k, v, _, hv, ha⟩ | ⟨v, hv, ha⟩)
    · exact ⟨k, v, hv, ha⟩
    · exact ⟨_, v, hv, ha⟩

/-- The region of the script has all that it can reach. -/
theorem region_of_reachable (h : Region s V) {roots : List ℕ} (hroots : ∀ a ∈ roots, V a)
    (ha : Reachable Object.addresses roots s.heap a) : V a := by
  refine of_reachable hroots (fun a o ha ho b hb => ?_) ha
  obtain ⟨v, hv, hb⟩ := mem_addresses.mp hb
  exact h.closed a o ha ho v hv b hb

theorem scriptRoots_region (h : Region s V) : ∀ a ∈ s.scriptRoots, V a := by
  intro a ha
  rcases mem_scriptRoots.mp ha with ha | ⟨k, v, hk, hv, ha⟩
  · exact (h.threads a ha).1
  · exact h.registry k v hk hv a ha

end CallbackIsolationLemmas

open CallbackIsolationLemmas

/-- Between two events: what is reachable is the userdata and the thread of the
callback, and what the script can reach or the function of the callback. -/
theorem reachable_iff {s : ServiceState} {V : ℕ → Prop} {r : Option Registration}
    (h : Inv s V r []) (hframe : s.frame = []) (a : ℕ) :
    Reachable Object.addresses s.roots s.heap a ↔
      (∃ r' ∈ r, a = r'.cb ∨ a = r'.th) ∨
      Reachable Object.addresses (s.scriptRoots ++ (r.bind Registration.function?).toList) s.heap a := by
  constructor
  · intro ha
    refine of_reachable (P := fun a => (∃ r' ∈ r, a = r'.cb ∨ a = r'.th) ∨
      Reachable Object.addresses (s.scriptRoots ++ (r.bind Registration.function?).toList) s.heap a)
      (fun b hb => ?_) (fun b o hb ho d hd => ?_) ha
    · rcases (mem_roots hframe).mp hb with hb | ⟨v, hv, hb⟩
      · exact Or.inr (.root (List.mem_append_left _ hb))
      · obtain ⟨r', hr', rfl⟩ := Option.map_eq_some_iff.mp (h.entry.symm.trans hv)
        exact Or.inl ⟨r', hr', Or.inl (Option.some.inj hb).symm⟩
    · rcases hb with ⟨r', hr', rfl | rfl⟩ | hb
      · cases hr'
        -- the userdata has its user value alone
        cases ho.symm.trans (h.cells (r'.cb, _) List.mem_cons_self).1
        obtain ⟨v, hv, hd⟩ := mem_addresses.mp hd
        cases List.mem_singleton.mp hv
        exact Or.inl ⟨r', rfl, Or.inr (Option.some.inj hd).symm⟩
      · cases hr'
        cases ho.symm.trans (h.cells (r'.th, _) (List.mem_cons_of_mem _ List.mem_cons_self)).1
        obtain ⟨v, hv, hd⟩ := mem_addresses.mp hd
        cases List.mem_singleton.mp hv
        have hfunction : d ∈ ((some r').bind Registration.function?).toList := by
          rw [Option.bind_some, Registration.function?, hd]
          exact List.mem_singleton_self d
        exact Or.inr (.root (List.mem_append_right _ hfunction))
      · exact Or.inr (.ref hb ho hd)
  · rintro (⟨r', hr', ha⟩ | ha)
    · cases hr'
      have hcells := (reachable_callback h).1
      rcases ha with rfl | rfl
      · exact hcells _ List.mem_cons_self
      · exact hcells _ (List.mem_cons_of_mem _ List.mem_cons_self)
    · refine reachable_mono (fun b hb => ?_) ha
      rcases List.mem_append.mp hb with hb | hb
      · exact .root ((mem_roots hframe).mpr (Or.inl hb))
      · obtain ⟨r', hr', hfunction⟩ := Option.bind_eq_some_iff.mp (Option.mem_toList.mp hb)
        cases hr'
        exact (reachable_callback h).2 b hfunction

/-! ## 2. Runs -/

/-- In every run of scripts that do not read the entry `callback_context`, with
collections and failed allocations anywhere: from the rest of what the script has
neither the userdata of the callback nor its thread can be reached; these two, and
what the registered function reaches, are all that is kept alive beyond that, however
often the script has registered one; and `getServiceFromL` finds the service from
every thread there is. -/
theorem callback_isolated (this : ℕ) (es : List Event) (s : ServiceState)
    (hrun : run step (init this) es = some s) :
    ∃ r : Option Registration, s.callback = r.map Registration.cb ∧
      (∀ r' ∈ r, Registered s r' ∧ ∀ a, Reachable Object.addresses s.scriptRoots s.heap a →
        a ≠ r'.cb ∧ a ≠ r'.th) ∧
      (∀ a, Reachable Object.addresses s.roots s.heap a ↔ (∃ r' ∈ r, a = r'.cb ∨ a = r'.th) ∨
        Reachable Object.addresses (s.scriptRoots ++ (r.bind Registration.function?).toList)
          s.heap a) ∧
      ∀ a o, Reachable Object.addresses s.roots s.heap a → s.heap a = some o → o.kind = .thread →
        getServiceFromL { s with L := a } = .ok this { s with L := a } := by
  have hinit : Latest this (init this) [] :=
    ⟨none, idle_init this, rfl, fun x hx => absurd hx List.not_mem_nil⟩
  obtain ⟨r, hidle, hlast, hfunctions⟩ :=
    run_observes (fun _ _ _ _ h hs => latest_step h hs) hinit hrun
  obtain ⟨V, hinv, hframe, ht⟩ := id hidle
  have hcells : ∀ r' ∈ r, ∀ p ∈ r'.cells s.this, s.heap p.1 = some p.2 ∧ ¬ V p.1 := by
    intro r' hr' p hp
    cases hr'
    exact hinv.cells p hp
  refine ⟨r, hinv.callback, fun r' hr' => ⟨?_, fun a ha => ?_⟩, reachable_iff hinv hframe,
    fun a o ha ho hkind => ?_⟩
  · cases hr'
    exact registered_of_idle hidle (hfunctions r'.x (List.mem_of_getLast? hlast.symm))
  · have hV := region_of_reachable hinv.toRegion (scriptRoots_region hinv.toRegion) ha
    constructor
    · rintro rfl
      exact (hcells r' hr' _ List.mem_cons_self).2 hV
    · rintro rfl
      exact (hcells r' hr' _ (List.mem_cons_of_mem _ List.mem_cons_self)).2 hV
  · have hraw : o.raw = this := by
      rcases (reachable_iff hinv hframe a).mp ha with ⟨r', hr', rfl | rfl⟩ | ha
      · cases ho.symm.trans (hcells r' hr' (r'.cb, _) List.mem_cons_self).1
        cases hkind
      · cases ho.symm.trans
          (hcells r' hr' (r'.th, _) (List.mem_cons_of_mem _ List.mem_cons_self)).1
        exact ht
      · refine (hinv.space a o (region_of_reachable hinv.toRegion (fun b hb => ?_) ha) ho
          hkind).trans ht
        rcases List.mem_append.mp hb with hb | hb
        · exact scriptRoots_region hinv.toRegion b hb
        · obtain ⟨r', hr', hfunction⟩ := Option.bind_eq_some_iff.mp (Option.mem_toList.mp hb)
          exact hinv.held r' hr' b hfunction
    have hobject : ServiceState.object { s with L := a } .thread a = some o := by
      simp [ServiceState.object, ho, hkind]
    simp only [getServiceFromL, hobject, hraw]

/-- `print` is registered, and then `type`: the first userdata and its thread can be
freed. -/
theorem callback_isolated_twice :
    ∃ s, run step (init 7) [.push (.cfunction "print"), .callback 1 { cb := 2, th := 3 },
        .push (.cfunction "type"), .callback 1 { cb := 4, th := 5 },
        .collect { marked := [0, 1, 4, 5], swept := [2, 3] }] = some s ∧
      s.heap 2 = none ∧ s.heap 3 = none ∧ ∃ r : Option Registration,
        s.callback = r.map Registration.cb ∧ ∀ r' ∈ r, Registered s r' ∧
          ∀ a, Reachable Object.addresses s.scriptRoots s.heap a → a ≠ r'.cb ∧ a ≠ r'.th := by
  obtain ⟨s, hs, h2, h3⟩ : ∃ s, run step (init 7)
      [.push (.cfunction "print"), .callback 1 { cb := 2, th := 3 },
        .push (.cfunction "type"), .callback 1 { cb := 4, th := 5 },
        .collect { marked := [0, 1, 4, 5], swept := [2, 3] }] = some s ∧
      s.heap 2 = none ∧ s.heap 3 = none := ⟨_, rfl, by decide, by decide⟩
  obtain ⟨r, hr, hisolated, _⟩ := callback_isolated 7 _ s hs
  exact ⟨s, hs, h2, h3, r, hr, hisolated⟩

end LuaRobot
