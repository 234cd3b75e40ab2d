import LuaRobot.ServiceId

/-!
# What a service says its id is

The handler keys a service in `serviceMap` by the id it computed, and
`LuaService::getID` reads `serviceID`, which is where `fowardToActor`
(`lua_cpp/lua_register_libs.cpp`) takes the sender from. Nothing writes
`serviceID`, so every service reports 0. The script of a service runs in `init`,
before the handler puts the service into the map, so what is said of the services
in the maps is also said of the one that is being created.

Results:
1. `unset_run`: in every state of every run every service reports 0.
2. `service_identity`: the services report their keys in every state of a run
   exactly when no creation handler has started in it.
3. `oneCreation_not_identified`: one creation breaks it, from its start on.
-/

namespace LuaRobot

open Runs PlacementLemmas ThreadsLemmas ServiceIdLemmas

/-! ## Definitions -/

/-- The arguments of `Server::forwardToActor(uint32_t receiver, int type)`. -/
structure ForwardToActor where
  receiver : UInt32
  type : Int32
deriving DecidableEq, Repr

/-- `fowardToActor` on the integer of its argument 1: the call it makes, or the
argument and the text of the `luaL_argcheck` that fails. -/
def fowardToActor (S : LuaService) (v : Int64) : Except (ℕ × String) ForwardToActor :=
  let receiver : UInt32 := v.toUInt64.toUInt32
  if receiver > 0 then .ok { receiver := S.getID, type := receiver.toInt32 }
  else .error (1, "receiver must > 0")

/-- Worker `w` has the entry `id -> S`. -/
def Server.Live (s : Server) (w : ℕ) (id : UInt32) (S : LuaService) : Prop :=
  ∃ wk, s.workerVec[w]? = some wk ∧ wk.serviceMap.lookup id = some S

/-- Every service reports the key it is stored under; no two report one id, if
those of `log` are distinct; and the sender that `fowardToActor` passes on is the
key of the service, also when the script calls it inside `init`, where the key is
the one that the service will be stored under. -/
structure Identified (s : Server) (log : List (ℕ × UInt32)) : Prop where
  key : ∀ w id S, s.Live w id S → S.getID = id
  distinct : (log.map Prod.snd).Nodup → ∀ w id S w' id' S', s.Live w id S → s.Live w' id' S' →
    S.getID = S'.getID → w = w' ∧ id = id'
  sender : ∀ w id S v call, s.Live w id S → fowardToActor S v = .ok call → call.receiver = id
  creating : ∀ (w : ℕ) wk c v call, s.workerVec[w]? = some wk → wk.th = some c →
    fowardToActor c.service v = .ok call → call.receiver = c.id

variable {ι : Type} [DecidableEq ι] [Fintype ι]

/-- The event takes a creation handler and runs it up to `init`. -/
def Event.Starts : Event ι → Prop
  | .start .. => True
  | _ => False

instance : (e : Event ι) → Decidable e.Starts
  | .start .. => isTrue trivial
  | .request .. | .load _ | .choose _ | .fetchAdd _ | .post _ | .finish .. => isFalse id

/-! ## 1. Every service reports 0 -/

/-- The `serviceID` of every service of the worker is what the constructor left. -/
structure Unset (wk : Worker) : Prop where
  live : ∀ id S, wk.serviceMap.lookup id = some S → S.getID = 0
  creating : ∀ c, wk.th = some c → c.service.getID = 0

namespace IdentityLemmas

theorem lookup_emplace {m : ServiceMap} {id id' : UInt32} {S S' : LuaService}
    (h : (m.emplace id S).lookup id' = some S') : m.lookup id' = some S' ∨ S' = S := by
  unfold ServiceMap.emplace at h
  split at h
  · exact Or.inl h
  · by_cases hid : id' = id
    · subst hid
      rw [AList.lookup_insert] at h
      exact Or.inr (Option.some.inj h).symm
    · rw [AList.lookup_insert_ne hid] at h
      exact Or.inl h

theorem unset_start {wk : Worker} {j : ℕ} {o : ServiceOption} (hj : wk.ioCtx[j]? = some o)
    (h : Unset wk) : Unset (wk.startHandler j) := by
  rw [startHandler_eq hj]
  refine ⟨h.live, fun c hc => ?_⟩
  cases hc
  rfl

theorem unset_finish {wk : Worker} {c : Creation} (ok : Bool) (hc : wk.th = some c)
    (h : Unset wk) : Unset (wk.finishHandler ok) := by
  rw [finishHandler_eq ok hc]
  refine ⟨fun id S hS => ?_, fun c' hc' => ?_⟩
  · rcases lookup_emplace hS with hS | rfl
    · exact h.live id S hS
    · exact h.creating c hc
  · cases hc'

theorem unset_step {host : ι → Option ℕ} {s s' : System ι} {e : Event ι}
    (h : ∀ (w : ℕ) wk, s.server.workerVec[w]? = some wk → Unset wk)
    (hs : step host s e = some s') :
    ∀ (w : ℕ) wk, s'.server.workerVec[w]? = some wk → Unset wk :=
  workers_step h hs (fun _ _ hu => ⟨hu.live, hu.creating⟩) (fun _ _ _ hu => ⟨hu.live, hu.creating⟩)
    (fun _ _ _ _ _ _ _ hj hu => unset_start hj hu) fun _ _ _ ok _ hc hu => unset_finish ok hc hu

end IdentityLemmas

open IdentityLemmas

theorem unset_run {threads : UInt32} {host : ι → Option ℕ} {es : List (Event ι)} {s : System ι}
    (hrun : run (step host) (System.init threads) es = some s) :
    ∀ (w : ℕ) wk, s.server.workerVec[w]? = some wk → Unset wk := by
  refine run_invariant (I := fun s => ∀ (w : ℕ) wk, s.server.workerVec[w]? = some wk → Unset wk)
    (fun _ _ _ h _ hs => unset_step h hs) (fun w wk hwk => ?_)
    (meets_of_forall (fun _ _ => trivial) _ es) hrun
  rw [make_worker hwk]
  exact ⟨fun _ _ h => (nomatch h), fun _ h => (nomatch h)⟩

/-! ## 2. Where the services report their keys -/

/-- No handler of the worker has started. -/
structure Fresh (wk : Worker) : Prop where
  map : wk.serviceMap = ∅
  gen : wk.genID = 0
  th : wk.th = none

namespace IdentityLemmas

theorem fresh_step {host : ι → Option ℕ} {s s' : System ι} {e : Event ι}
    (h : ∀ (w : ℕ) wk, s.server.workerVec[w]? = some wk → Fresh wk) (he : ¬ e.Starts)
    (hs : step host s e = some s') :
    ∀ (w : ℕ) wk, s'.server.workerVec[w]? = some wk → Fresh wk := by
  refine workers_step h hs (fun _ _ hf => ⟨hf.map, hf.gen, hf.th⟩)
    (fun _ _ _ hf => ⟨hf.map, hf.gen, hf.th⟩) (fun w wk j o hstart _ _ _ _ => ?_)
    fun w wk c ok _ hc hf => ?_
  · rw [hstart] at he
    exact absurd trivial he
  · -- there is no handler to end
    rw [hf.th] at hc
    cases hc

theorem fresh_run {threads : UInt32} {host : ι → Option ℕ} {es : List (Event ι)} {s : System ι}
    (hes : ∀ e ∈ es, ¬ e.Starts)
    (hrun : run (step host) (System.init threads) es = some s) :
    ∀ (w : ℕ) wk, s.server.workerVec[w]? = some wk → Fresh wk := by
  refine run_invariant (I := fun s => ∀ (w : ℕ) wk, s.server.workerVec[w]? = some wk → Fresh wk)
    (G := fun _ e => ¬ e.Starts) (fun _ _ _ h he hs => fresh_step h he hs) (fun w wk hwk => ?_)
    (meets_of_mem hes _) hrun
  rw [make_worker hwk]
  exact ⟨rfl, rfl, rfl⟩

theorem identified_of_fresh {s : Server} (log : List (ℕ × UInt32))
    (h : ∀ (w : ℕ) wk, s.workerVec[w]? = some wk → Fresh wk) : Identified s log := by
  have hlive : ∀ w id S, ¬ s.Live w id S := by
    rintro w id S ⟨wk, hwk, hS⟩
    rw [(h w wk hwk).map] at hS
    exact nomatch hS
  refine ⟨fun w id S hS => (hlive w id S hS).elim, fun _ w id S _ _ _ hS => (hlive w id S hS).elim,
    fun w id S _ _ hS => (hlive w id S hS).elim, fun w wk c v call hwk hc => ?_⟩
  rw [(h w wk hwk).th] at hc
  cases hc

/-- The first id of a worker is not 0. -/
theorem idOf_one_ne_zero (w : ℕ) : idOf w 1 ≠ 0 := by
  intro h
  have hnat := congrArg UInt32.toNat h
  rw [idOf_toNat_of_lt w (by decide)] at hnat
  have hmod := PackedId.pack_mod 24 ((w + 1) % 256) 1
  rw [hnat] at hmod
  exact absurd hmod (by decide)

/-- The script of the first handler that starts passes on 0 as the sender, and
that is not the id of its service. -/
theorem not_identified_of_start {threads : UInt32} {host : ι → Option ℕ} {es : List (Event ι)}
    {s s' : System ι} {e : Event ι} (hes : ∀ e ∈ es, ¬ e.Starts) (he : e.Starts)
    (hrun : run (step host) (System.init threads) es = some s) (hs : step host s e = some s')
    (log : List (ℕ × UInt32)) : ¬ Identified s'.server log := by
  intro hid
  cases e with
  | start w j =>
    obtain ⟨⟨wk, hw, _, hj⟩, rfl⟩ := step_spec.mp hs
    have hw' : (s.server.update w (·.startHandler j) (startHandler_workerID j)).workerVec[w]? =
        some (wk.startHandler j) := by
      rw [workerVec_update, hw]
      simp
    have hth := congrArg Worker.th (startHandler_eq (List.getElem?_eq_getElem hj))
    have hsender := hid.creating w _ _ 7 ⟨0, 7⟩ hw' hth rfl
    -- the first number of the worker
    have hone : (0 : UInt32) = idOf w 1 := by
      rw [(fresh_run hes hrun w wk hw).gen, workerID_eq hw] at hsender
      exact hsender
    exact idOf_one_ne_zero w hone.symm
  | request p option | load p | choose p | fetchAdd p | post p | finish w ok => exact he

end IdentityLemmas

/-- The services report their keys in every state of a run exactly when no
creation handler has started in it. In every run each service reports 0, in the
maps and while it is being created. -/
theorem service_identity (threads : UInt32) (host : ι → Option ℕ) (es : List (Event ι))
    (hrun : (run (step host) (System.init threads) es).isSome) :
    ((∀ es₁ es₂ s, es = es₁ ++ es₂ → run (step host) (System.init threads) es₁ = some s →
        Identified s.server (handedOut threads host es₁)) ↔ ∀ e ∈ es, ¬ e.Starts) ∧
    (∀ s w id S, run (step host) (System.init threads) es = some s → s.server.Live w id S →
      S.getID = 0) ∧
    ∀ s (w : ℕ) wk c, run (step host) (System.init threads) es = some s →
      s.server.workerVec[w]? = some wk → wk.th = some c → c.service.getID = 0 := by
  refine ⟨⟨fun hall e hmem he => ?_, ?_⟩, ?_, ?_⟩
  · -- look at the first handler that starts
    have hfind : (es.find? fun e => decide e.Starts).isSome :=
      List.find?_isSome.mpr ⟨e, hmem, decide_eq_true he⟩
    obtain ⟨e', he'⟩ := Option.isSome_iff_exists.mp hfind
    obtain ⟨hstart, es₁, es₂, hes, hfirst⟩ := List.find?_eq_some_iff_append.mp he'
    obtain ⟨s, hs⟩ := Option.isSome_iff_exists.mp hrun
    rw [hes] at hs
    obtain ⟨t, ht, hrest⟩ := run_prefix hs
    obtain ⟨u, hu, _⟩ := Option.bind_eq_some_iff.mp hrest
    have hquiet : ∀ x ∈ es₁, ¬ x.Starts := fun x hx => by simpa using hfirst x hx
    exact not_identified_of_start hquiet (of_decide_eq_true hstart) ht hu _
      (hall (es₁ ++ [e']) es₂ u (by rw [hes, List.append_assoc]; rfl) (run_snoc.mpr ⟨t, ht, hu⟩))
  · rintro hquiet es₁ es₂ s rfl hs
    exact identified_of_fresh _ (fresh_run (fun e he => hquiet e (List.mem_append_left _ he)) hs)
  · rintro s w id S hs ⟨wk, hwk, hS⟩
    exact (unset_run hs w wk hwk).live id S hS
  · intro s w wk c hs hwk hc
    exact (unset_run hs w wk hwk).creating c hc

/-! ## 3. One creation -/

/-- As long as the one handler is queued there is no service that could report
another id. -/
theorem service_identity_one :
    ∃ s, run (step fun _ => none) (System.init 1) ((oneCreation true).take 5) = some s ∧
      Identified s.server (handedOut 1 (fun _ => none) ((oneCreation true).take 5)) :=
  ⟨_, rfl, (service_identity 1 (fun _ => none) ((oneCreation true).take 5) rfl).1.mpr (by decide)
    _ [] _ (List.append_nil _).symm rfl⟩

/-- The script of the first service passes on 0 as the sender of a message to
actor 7, while the id of the service is `1 | (1 << 24)`. After the creation that is
a key of the map, and the service under it still reports 0. -/
theorem oneCreation_not_identified :
    (∃ s wk c, run (step fun _ => none) (System.init 1) ((oneCreation true).take 6) = some s ∧
      s.server.workerVec[0]? = some wk ∧ wk.th = some c ∧ c.id = 0x01000001 ∧
      fowardToActor c.service 7 = .ok ⟨0, 7⟩ ∧
      ¬ Identified s.server (handedOut 1 (fun _ => none) ((oneCreation true).take 6))) ∧
    ∃ s S, run (step fun _ => none) (System.init 1) (oneCreation true) = some s ∧
      s.server.Live 0 0x01000001 S ∧ S.getID = 0 ∧ fowardToActor S 7 = .ok ⟨0, 7⟩ ∧
      ¬ Identified s.server (handedOut 1 (fun _ => none) (oneCreation true)) := by
  constructor
  · have hcreating : ∃ s wk, run (step fun _ => none) (System.init 1) ((oneCreation true).take 6) =
        some s ∧ s.server.workerVec[0]? = some wk ∧
          wk.th = some ⟨0x01000001, { worker := some 1 }, {}⟩ := ⟨_, _, rfl, rfl, rfl⟩
    obtain ⟨s, wk, hs, hwk, hc⟩ := hcreating
    exact ⟨s, wk, _, hs, hwk, hc, rfl, rfl,
      fun h => absurd (h.creating 0 wk _ 7 _ hwk hc rfl) (by decide)⟩
  · have hlive : ∃ s, run (step fun _ => none) (System.init 1) (oneCreation true) = some s ∧
        s.server.Live 0 0x01000001 { worker := some 1 } := ⟨_, rfl, _, rfl, rfl⟩
    obtain ⟨s, hs, hS⟩ := hlive
    exact ⟨s, _, hs, hS, rfl, by decide, fun h => absurd (h.key _ _ _ hS) (by decide)⟩

end LuaRobot
