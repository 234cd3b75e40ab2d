import Mathlib.Data.List.AList

/-!
# The server and its workers

`src_cpp/server.cpp`, `src_cpp/worker.cpp`, `src_cpp/service.h` and
`src_cpp/common.h`. A `Server` owns a vector of workers; a `WorkerPtr` is
modelled by the index of the worker in that vector. This module has the data
model and what each function does when nothing else runs in between;
`LuaRobot.Threads` interleaves them.

Results:
1. `workerVec_update`, `field_update_of_keeps`: an update touches one worker.
2. `getWorkerByWorkerID_eq_some`, `getWorkerByWorkerID_eq_none`: which option
   names an existing worker.
-/

namespace LuaRobot

/-! ## Definitions -/

/-- A `std::string`, or the bytes of a Lua string. -/
abbrev Bytes := List UInt8

/-- `common.h`. -/
def WORKER_ID_SHIFT : UInt32 := 24

structure ServiceOption where
  workerID : UInt32 := 0
  luaFile : Bytes := []
  envPath : Bytes := []
deriving DecidableEq, Repr

/-- `LuaService`. Its `server` and `worker` pointers are set together; there is
one server, and the worker is named by its `workerID`. -/
structure LuaService where
  worker : Option UInt32 := none
  serviceID : UInt32 := 0
deriving DecidableEq, Repr

def LuaService.setContext (s : LuaService) (worker : UInt32) : LuaService :=
  { s with worker := some worker }

def LuaService.getID (s : LuaService) : UInt32 := s.serviceID

/-- `std::make_unique<LuaService>()`: it throws or returns an object, it never
returns null. -/
def makeService : Option LuaService := some {}

/-- `std::unordered_map<uint32_t, std::unique_ptr<LuaService>>`. -/
abbrev ServiceMap := AList fun _ : UInt32 => LuaService

/-- `serviceMap.emplace`: nothing happens when the key is taken. -/
def ServiceMap.emplace (m : ServiceMap) (id : UInt32) (s : LuaService) : ServiceMap :=
  if id ∈ m then m else m.insert id s

/-- What the creation handler holds while `init` runs. -/
structure Creation where
  id : UInt32
  service : LuaService
  option : ServiceOption
deriving DecidableEq, Repr

/-- A worker. `ioCtx` holds the creation handlers that were posted and have not
run yet, `th` the handler its thread is inside of. -/
structure Worker where
  serviceNum : UInt32 := 0
  shareThread : Bool := true
  workerID : UInt32
  serviceMap : ServiceMap := ∅
  genID : UInt32 := 0
  ioCtx : List ServiceOption := []
  th : Option Creation := none

/-- The id of the creation that finds `genID` already incremented. -/
def creationID (genID workerID : UInt32) : UInt32 :=
  genID ||| (workerID <<< WORKER_ID_SHIFT)

/-- `serviceNum.fetch_add(1)`, the first half of `Worker::newService`. -/
def Worker.fetchAdd (w : Worker) : Worker := { w with serviceNum := w.serviceNum + 1 }

/-- `asio::post(ioCtx, ...)`, the second half of `Worker::newService`. -/
def Worker.post (w : Worker) (option : ServiceOption) : Worker :=
  { w with ioCtx := w.ioCtx ++ [option] }

def Worker.newService (w : Worker) (option : ServiceOption) : Worker :=
  w.fetchAdd.post option

/-- The thread takes its `j`-th queued handler and runs it up to the call of
`init`. The `break` for a null service leads to the `fetch_sub` after the
loop. -/
def Worker.startHandler (w : Worker) (j : ℕ) : Worker :=
  match w.ioCtx[j]? with
  | none => w
  | some option =>
    let genID := w.genID + 1
    let id := creationID genID w.workerID
    match makeService with
    | none => { w with ioCtx := w.ioCtx.eraseIdx j, genID, serviceNum := w.serviceNum - 1 }
    | some service =>
      { w with
        ioCtx := w.ioCtx.eraseIdx j
        genID
        th := some ⟨id, service.setContext w.workerID, option⟩ }

/-- `init` has returned `ok`, which the handler ignores; it emplaces the service
and returns. -/
def Worker.finishHandler (w : Worker) (_ok : Bool) : Worker :=
  match w.th with
  | none => w
  | some c => { w with serviceMap := w.serviceMap.emplace c.id c.service, th := none }

/-- The worker at index `i` has `workerID` `i + 1`: `Server::Server` numbers
them so, and nothing changes a `workerID`. -/
structure Server where
  workerVec : List Worker
  numbered : ∀ i w, workerVec[i]? = some w → w.workerID.toNat = i + 1

/-- `workerVec[i]` is replaced by `f` of it. -/
def Server.update (s : Server) (i : ℕ) (f : Worker → Worker)
    (hf : ∀ w, (f w).workerID = w.workerID) : Server where
  workerVec := s.workerVec.modify i f
  numbered := by
    intro j w h
    rw [List.getElem?_modify] at h
    obtain ⟨w₀, hw₀, rfl⟩ := Option.map_eq_some_iff.mp h
    split
    · rw [hf]; exact s.numbered j w₀ hw₀
    · exact s.numbered j w₀ hw₀

/-- `Server::Server`: the loop that fills `workerVec`. -/
def Server.make (threads : UInt32) : Server where
  workerVec := (List.range threads.toNat).map fun i => { workerID := UInt32.ofNat i + 1 }
  numbered := by
    intro i w h
    rw [List.getElem?_map] at h
    obtain ⟨j, hj, rfl⟩ := Option.map_eq_some_iff.mp h
    obtain ⟨hlt, rfl⟩ := List.getElem?_eq_some_iff.mp hj
    simp only [List.length_range] at hlt
    have hT := threads.toNat_lt
    simp only [List.getElem_range, UInt32.toNat_add, UInt32.toNat_ofNat', UInt32.toNat_one]
    omega

/-- A `WorkerPtr`, `none` for null. -/
def Server.getWorkerByWorkerID (s : Server) (workerID : UInt32) : Option ℕ :=
  if workerID = 0 ∨ workerID.toNat > s.workerVec.length then none
  else some (workerID.toNat - 1)

/-- One iteration of the loop of `nextMinWorker` on `(min, minWorkerID)`. -/
def scanWorker (acc : UInt32 × UInt32) (w : Worker) : UInt32 × UInt32 :=
  let num := w.serviceNum
  if w.shareThread && num < acc.1 then (num, w.workerID) else acc

/-- What `nextMinWorker` starts its loop with:
`std::numeric_limits<uint32_t>::max()` and `0`. -/
def scanInit : UInt32 × UInt32 := (0xFFFFFFFF, 0)

/-- The `WorkerPtr` that `nextMinWorker` returns for the final `minWorkerID`. -/
def scanResult (minWorkerID : UInt32) : Option ℕ :=
  if minWorkerID = 0 then none else some (minWorkerID.toNat - 1)

def Server.nextMinWorker (s : Server) : Option ℕ :=
  if s.workerVec.isEmpty then none
  else scanResult (s.workerVec.foldl scanWorker scanInit).2

theorem newService_workerID (option : ServiceOption) (w : Worker) :
    (w.newService option).workerID = w.workerID := rfl

theorem newService_shareThread (option : ServiceOption) (w : Worker) :
    (w.newService option).shareThread = w.shareThread := rfl

/-- `Server::newService`, uninterrupted. -/
def Server.newService (s : Server) (option : ServiceOption) : Server :=
  match s.getWorkerByWorkerID option.workerID with
  | some i => s.update i (·.newService option) (newService_workerID option)
  | none =>
    match s.nextMinWorker with
    | some i => s.update i (·.newService option) (newService_workerID option)
    | none => s

/-- The option names no worker of the server, so `nextMinWorker` places it. -/
def Server.Unpinned (s : Server) (option : ServiceOption) : Prop :=
  option.workerID = 0 ∨ s.workerVec.length < option.workerID.toNat

instance (s : Server) (option : ServiceOption) : Decidable (s.Unpinned option) :=
  inferInstanceAs (Decidable (option.workerID = 0 ∨ s.workerVec.length < option.workerID.toNat))

/-- `serviceNum` of the worker at index `i`, `0` when there is none. -/
def Server.serviceNum (s : Server) (i : ℕ) : UInt32 :=
  (s.workerVec[i]?.map Worker.serviceNum).getD 0

/-! ## Helpers -/

@[simp] theorem startHandler_workerID (j : ℕ) (w : Worker) :
    (w.startHandler j).workerID = w.workerID := by
  unfold Worker.startHandler
  split <;> rfl

@[simp] theorem startHandler_serviceNum (j : ℕ) (w : Worker) :
    (w.startHandler j).serviceNum = w.serviceNum := by
  unfold Worker.startHandler
  split <;> rfl

@[simp] theorem startHandler_shareThread (j : ℕ) (w : Worker) :
    (w.startHandler j).shareThread = w.shareThread := by
  unfold Worker.startHandler
  split <;> rfl

@[simp] theorem finishHandler_genID (ok : Bool) (w : Worker) :
    (w.finishHandler ok).genID = w.genID := by
  unfold Worker.finishHandler
  split <;> rfl

@[simp] theorem finishHandler_workerID (ok : Bool) (w : Worker) :
    (w.finishHandler ok).workerID = w.workerID := by
  unfold Worker.finishHandler
  split <;> rfl

@[simp] theorem finishHandler_serviceNum (ok : Bool) (w : Worker) :
    (w.finishHandler ok).serviceNum = w.serviceNum := by
  unfold Worker.finishHandler
  split <;> rfl

@[simp] theorem finishHandler_shareThread (ok : Bool) (w : Worker) :
    (w.finishHandler ok).shareThread = w.shareThread := by
  unfold Worker.finishHandler
  split <;> rfl

theorem startHandler_eq {w : Worker} {j : ℕ} {o : ServiceOption} (h : w.ioCtx[j]? = some o) :
    w.startHandler j = { w with
      ioCtx := w.ioCtx.eraseIdx j
      genID := w.genID + 1
      th := some ⟨creationID (w.genID + 1) w.workerID,
        ({} : LuaService).setContext w.workerID, o⟩ } := by
  simp only [Worker.startHandler, h, makeService]

theorem finishHandler_eq {w : Worker} {c : Creation} (ok : Bool) (h : w.th = some c) :
    w.finishHandler ok =
      { w with serviceMap := w.serviceMap.emplace c.id c.service, th := none } := by
  simp only [Worker.finishHandler, h]

/-! ## 1. Updates touch one worker -/

@[simp] theorem update_length (s : Server) (i : ℕ) (f : Worker → Worker)
    (hf : ∀ w, (f w).workerID = w.workerID) :
    (s.update i f hf).workerVec.length = s.workerVec.length := by
  simp [Server.update]

theorem workerVec_update (s : Server) (i j : ℕ) (f : Worker → Worker)
    (hf : ∀ w, (f w).workerID = w.workerID) :
    (s.update i f hf).workerVec[j]? =
      (s.workerVec[j]?).map fun w => if i = j then f w else w := by
  simp only [Server.update, List.getElem?_modify, Option.map_eq_map]

theorem update_update (s : Server) (i : ℕ) (f g : Worker → Worker)
    (hf : ∀ w, (f w).workerID = w.workerID) (hg : ∀ w, (g w).workerID = w.workerID) :
    (s.update i f hf).update i g hg =
      s.update i (fun w => g (f w)) fun w => (hg (f w)).trans (hf w) := by
  simp only [Server.update, List.modify_modify_eq]
  rfl

theorem mem_update {s : Server} {i : ℕ} {f : Worker → Worker}
    {hf : ∀ w, (f w).workerID = w.workerID} {w : Worker} (h : w ∈ (s.update i f hf).workerVec) :
    ∃ w₀ ∈ s.workerVec, w = w₀ ∨ w = f w₀ := by
  obtain ⟨j, hj⟩ := List.mem_iff_getElem?.mp h
  rw [workerVec_update] at hj
  obtain ⟨w₀, hw₀, rfl⟩ := Option.map_eq_some_iff.mp hj
  refine ⟨w₀, List.mem_of_getElem? hw₀, ?_⟩
  split
  · exact Or.inr rfl
  · exact Or.inl rfl

theorem workerID_eq {s : Server} {i : ℕ} {w : Worker} (h : s.workerVec[i]? = some w) :
    w.workerID = UInt32.ofNat (i + 1) := by
  rw [← s.numbered i w h, UInt32.ofNat_toNat]

/-- A statement about the workers: the update leaves it to check for one. -/
theorem forall_update {s : Server} {i : ℕ} {f : Worker → Worker}
    (hf : ∀ w, (f w).workerID = w.workerID) {P : ℕ → Worker → Prop}
    (hother : ∀ (j : ℕ) (w : Worker), j ≠ i → s.workerVec[j]? = some w → P j w)
    (hi : ∀ w, s.workerVec[i]? = some w → P i (f w)) :
    ∀ (j : ℕ) (w : Worker), (s.update i f hf).workerVec[j]? = some w → P j w := by
  intro j w hw
  rw [workerVec_update] at hw
  obtain ⟨w₀, hw₀, rfl⟩ := Option.map_eq_some_iff.mp hw
  by_cases hij : i = j
  · subst hij
    rw [if_pos rfl]
    exact hi w₀ hw₀
  · rw [if_neg hij]
    exact hother j w₀ (Ne.symm hij) hw₀

theorem serviceNum_of_getElem? {s : Server} {i : ℕ} {w : Worker}
    (h : s.workerVec[i]? = some w) : s.serviceNum i = w.serviceNum := by
  simp [Server.serviceNum, h]

/-- A field of the workers that an update keeps is kept for every worker. -/
theorem field_update_of_keeps (s : Server) (i j : ℕ) {γ : Type} {g : Worker → γ}
    {f : Worker → Worker} (hf : ∀ w, (f w).workerID = w.workerID) (h : ∀ w, g (f w) = g w) :
    ((s.update i f hf).workerVec[j]?).map g = (s.workerVec[j]?).map g := by
  rw [workerVec_update, Option.map_map]
  congr 1
  funext w
  simp only [Function.comp_apply]
  split
  · exact h w
  · rfl

theorem serviceNum_update_of_keeps (s : Server) (i j : ℕ) {f : Worker → Worker}
    (hf : ∀ w, (f w).workerID = w.workerID) (h : ∀ w, (f w).serviceNum = w.serviceNum) :
    (s.update i f hf).serviceNum j = s.serviceNum j := by
  unfold Server.serviceNum
  rw [field_update_of_keeps s i j hf h]

/-- An update that increments `serviceNum` increments the counter of its worker
and no other. -/
theorem serviceNum_update_of_increments (s : Server) {i : ℕ} (j : ℕ) {f : Worker → Worker}
    (hf : ∀ w, (f w).workerID = w.workerID) (h : ∀ w, (f w).serviceNum = w.serviceNum + 1)
    (hi : i < s.workerVec.length) :
    (s.update i f hf).serviceNum j = if i = j then s.serviceNum j + 1 else s.serviceNum j := by
  unfold Server.serviceNum
  rw [workerVec_update]
  by_cases hij : i = j
  · subst hij
    simp [List.getElem?_eq_getElem hi, h]
  · simp [hij]

/-! ## 2. Which option names a worker -/

theorem getWorkerByWorkerID_eq_none {s : Server} {o : ServiceOption} :
    s.getWorkerByWorkerID o.workerID = none ↔ s.Unpinned o := by
  unfold Server.getWorkerByWorkerID Server.Unpinned
  split <;> simp_all

/-- A request with `1 ≤ workerID ≤ T` names the worker of that number. -/
theorem getWorkerByWorkerID_eq_some {s : Server} {o : ServiceOption}
    (h1 : 1 ≤ o.workerID.toNat) (hT : o.workerID.toNat ≤ s.workerVec.length) :
    s.getWorkerByWorkerID o.workerID = some (o.workerID.toNat - 1) := by
  have hne : o.workerID ≠ 0 := by
    intro h
    rw [h] at h1
    exact absurd h1 (by decide)
  unfold Server.getWorkerByWorkerID
  rw [if_neg]
  rintro (h | h)
  · exact hne h
  · omega

end LuaRobot
