import LuaRobot.ByteStrings
import LuaRobot.Server

/-!
# Two file look-ups

A service finds its main script with `getFileRealPath` (`src_cpp/service.cpp`),
which tries the directories of `Server::luaDirs` one by one, and the modules it
requires through `package.path`, one string that `main` joins from the same
directories and that Lua substitutes and splits again. The existing files are a
predicate on names, and the empty name is none of them: `getFileRealPath` calls
the overload of `std::filesystem::exists` that throws where the file system cannot
tell, and a look-up that throws is left out.

Results:
1. `candidates_eq`: what Lua splits the path into, for clean directories.
2. `lookups_agree`: the two find the same file for every set of files exactly
   when no directory has a `;` or a `?`.
-/

namespace LuaRobot

open ByteStrings

/-! ## Definitions -/

/-- `;` and `?` (`luaconf.h`). -/
def LUA_PATH_SEP : UInt8 := 59

def LUA_PATH_MARK : UInt8 := 63

/-- `getFileRealPath`: the empty string when there is no such file. -/
def getFileRealPath (files : Bytes → Bool) (luaFile : Bytes) : List Bytes → Bytes
  | [] => []
  | dir :: luaDirs =>
    let filePath := dir ++ ascii "/" ++ luaFile
    if files filePath then filePath else getFileRealPath files luaFile luaDirs

/-- The loop of `main` over `pathTable.strVec`. -/
def addPaths (path : Bytes) (pathTable : List Bytes) : Bytes :=
  pathTable.foldl (fun path p => path ++ p ++ ascii "/?.lua" ++ ascii ";") path

/-- `package.searchpath(name, path, ".", dirsep)`, as `require` calls it. -/
def searchpath (files : Bytes → Bool) (dirsep name path : Bytes) : Option Bytes :=
  ((gsub LUA_PATH_MARK (gsub 46 dirsep name) path).splitOn LUA_PATH_SEP).find? files

/-- `getFileRealPath` and `package.searchpath` have found one file, or neither
has found any. -/
def Agree (found : Option Bytes) (realPath : Bytes) : Prop :=
  found = if realPath = [] then none else some realPath

namespace PathSearchLemmas

theorem addPaths_eq (path : Bytes) (pathTable : List Bytes) :
    addPaths path pathTable = path ++ pathTable.flatMap fun p => p ++ ascii "/?.lua;" := by
  induction pathTable generalizing path with
  | nil => simp [addPaths]
  | cons p ps ih =>
    have hstep : addPaths path (p :: ps) = addPaths (path ++ p ++ ascii "/?.lua" ++ ascii ";") ps :=
      rfl
    rw [hstep, ih, List.flatMap_cons]
    simp [ascii]

end PathSearchLemmas

open PathSearchLemmas

/-! ## 1. What Lua tries -/

/-- A directory that neither the substitution nor the splitting touches. -/
def CleanDir (dir : Bytes) : Prop := LUA_PATH_SEP ∉ dir ∧ LUA_PATH_MARK ∉ dir

/-- For clean directories Lua tries the name in each, and then the empty name. -/
theorem candidates_eq {dirs : List Bytes} {m : Bytes} (hdirs : ∀ d ∈ dirs, CleanDir d)
    (hm : LUA_PATH_SEP ∉ m) :
    (gsub LUA_PATH_MARK m (addPaths [] dirs)).splitOn LUA_PATH_SEP =
      (dirs.map fun d => d ++ ascii "/" ++ (m ++ ascii ".lua")) ++ [[]] := by
  rw [addPaths_eq, List.nil_append]
  induction dirs with
  | nil => rfl
  | cons d ds ih =>
    obtain ⟨hsep, hmark⟩ := hdirs d List.mem_cons_self
    have htemplate : gsub LUA_PATH_MARK m (ascii "/?.lua;") =
        ascii "/" ++ (m ++ ascii ".lua") ++ [LUA_PATH_SEP] := by
      simp [gsub, ascii, LUA_PATH_MARK, LUA_PATH_SEP]
    have hfirst : LUA_PATH_SEP ∉ d ++ ascii "/" ++ (m ++ ascii ".lua") := by
      have h1 : LUA_PATH_SEP ∉ ascii "/" := by decide
      have h2 : LUA_PATH_SEP ∉ ascii ".lua" := by decide
      simp [hsep, hm, h1, h2]
    have hcons : gsub LUA_PATH_MARK m ((d :: ds).flatMap fun p => p ++ ascii "/?.lua;") =
        (d ++ ascii "/" ++ (m ++ ascii ".lua")) ++
          LUA_PATH_SEP :: gsub LUA_PATH_MARK m (ds.flatMap fun p => p ++ ascii "/?.lua;") := by
      rw [List.flatMap_cons, gsub_append, gsub_append, gsub_of_not_mem m hmark, htemplate]
      simp
    rw [hcons, List.splitOn_append_cons_self_of_not_mem hfirst,
      ih fun d hd => hdirs d (List.mem_cons_of_mem _ hd)]
    rfl

/-! ## 2. The same file -/

namespace PathSearchLemmas

theorem filePath_ne_nil (d luaFile : Bytes) : d ++ ascii "/" ++ luaFile ≠ [] := by
  simp [ascii]

/-- The loop of `getFileRealPath` and the search of Lua over the same names. -/
theorem agree_find {files : Bytes → Bool} (hempty : files [] = false) (luaFile : Bytes)
    (dirs : List Bytes) :
    Agree (((dirs.map fun d => d ++ ascii "/" ++ luaFile) ++ [[]]).find? files)
      (getFileRealPath files luaFile dirs) := by
  induction dirs with
  | nil => simp [Agree, getFileRealPath, hempty]
  | cons d ds ih =>
    simp only [List.map_cons, List.cons_append, List.find?_cons, getFileRealPath]
    cases files (d ++ ascii "/" ++ luaFile) with
    | true => simp only [Agree, if_true, if_neg (filePath_ne_nil d luaFile)]
    | false => simpa only [Bool.false_eq_true, if_false] using ih

/-- A file that is the only one, and that one of the directories leads to. -/
theorem getFileRealPath_single {d : Bytes} {dirs : List Bytes} (hd : d ∈ dirs) (luaFile : Bytes) :
    getFileRealPath (· == d ++ ascii "/" ++ luaFile) luaFile dirs = d ++ ascii "/" ++ luaFile := by
  induction dirs with
  | nil => cases hd
  | cons d' ds ih =>
    simp only [getFileRealPath, beq_iff_eq]
    by_cases hsame : d' ++ ascii "/" ++ luaFile = d ++ ascii "/" ++ luaFile
    · rw [if_pos hsame, hsame]
    · have hne : d ≠ d' := fun h => hsame (h ▸ rfl)
      rw [if_neg hsame]
      exact ih ((List.mem_cons.mp hd).resolve_left hne)

end PathSearchLemmas

/-- The main script's look-up and Lua's find the same file, for every set of
files and every module name without `.` and `;`, exactly when no directory has a
`;` or a `?`. -/
theorem lookups_agree (dirs : List Bytes) (dirsep : Bytes) :
    (∀ (files : Bytes → Bool) (m : Bytes), files [] = false → (46 : UInt8) ∉ m →
      LUA_PATH_SEP ∉ m →
      Agree (searchpath files dirsep m (addPaths [] dirs))
        (getFileRealPath files (m ++ ascii ".lua") dirs)) ↔
    ∀ d ∈ dirs, LUA_PATH_SEP ∉ d ∧ LUA_PATH_MARK ∉ d := by
  constructor
  · intro hall d hd
    by_contra hdirty
    -- the only file is the one under `d`, named literally
    obtain ⟨m, hm⟩ : ∃ m, m = ascii "x" := ⟨_, rfl⟩
    have hagree := hall (· == d ++ ascii "/" ++ (m ++ ascii ".lua")) m
      (beq_eq_false_iff_ne.mpr (Ne.symm (filePath_ne_nil _ _))) (by rw [hm]; decide)
      (by rw [hm]; decide)
    rw [getFileRealPath_single hd, Agree, if_neg (filePath_ne_nil _ _), searchpath,
      gsub_of_not_mem dirsep (by rw [hm]; decide)] at hagree
    -- Lua would have to try that name, but its candidates have neither byte
    have hpiece := mem_splitOn (List.mem_of_find?_eq_some hagree)
    have hmark : LUA_PATH_MARK ∉ gsub LUA_PATH_MARK m (addPaths [] dirs) :=
      mark_not_mem_gsub (by rw [hm]; decide) _
    refine hdirty ⟨fun hsep => ?_, fun hq => ?_⟩
    · exact (hpiece LUA_PATH_SEP (by simp [hsep])).2 rfl
    · exact hmark (hpiece LUA_PATH_MARK (by simp [hq])).1
  · intro hclean files m hempty hdot hsep
    rw [searchpath, gsub_of_not_mem dirsep hdot, candidates_eq hclean hsep]
    exact agree_find hempty _ dirs

end LuaRobot
