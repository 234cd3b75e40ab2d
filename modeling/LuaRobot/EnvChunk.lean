import LuaRobot.LuaLexer
import LuaRobot.PathSearch

/-!
# The environment chunk

`main` (`main.cpp`) writes the directories of `path_table` between quotes into a
chunk, and `loadLuaFile` (`service.cpp`) compiles it for every service.

Results:
1. `getLuaVector_onto`: the tables that `main` reads give all lists of NUL-free
   strings.
2. `env_chunk`: the chunk sets the path that `main` means exactly when no
   directory has a quote, a backslash or a line break.
3. `quoted_directory`: what follows a quote is read as code.
-/

namespace LuaRobot

open ByteStrings LuaLexer LuaLexer.LexerLemmas PathSearchLemmas

/-! ## Definitions -/

/-- What a `const char*` can hold. -/
abbrev CString := { s : Bytes // (0 : UInt8) ∉ s }

/-- The bytes up to the first NUL. -/
def cString (s : Bytes) : CString :=
  ⟨s.takeWhile (· != 0), fun h => by simpa using List.mem_takeWhile_imp h⟩

/-- A value of the table; only its strings are read. -/
inductive LuaValue where
  | string (s : Bytes)
  | other

/-- `getLuaValue<LuaVector>` over the values in the order of `lua_next`. -/
def getLuaVector (values : List LuaValue) : List CString :=
  values.filterMap fun
    | .string s => some (cString s)
    | .other => none

/-- The `path` of `main`, which becomes `Server::envPath`. -/
def envPath (pathTable : List CString) : Bytes :=
  addPaths (ascii "package.path = '") (pathTable.map Subtype.val) ++ ascii "'"

/-- What `luaL_dostring` compiles. -/
def envChunk (pathTable : List CString) : Bytes := (cString (envPath pathTable)).1

/-- `p1/?.lua;...pn/?.lua;` -/
def searchPath (pathTable : List CString) : Bytes :=
  pathTable.flatMap fun p => p.1 ++ ascii "/?.lua;"

/-- `package.path = S`, where `S` is a literal of that value. -/
def envTokens (value : Bytes) : List Token :=
  [.name (ascii "package"), .symbol (ascii "."), .name (ascii "path"), .symbol (ascii "="),
    .string value]

/-- The path in the chunk is the one that Lua's search is given. -/
theorem searchPath_eq (ps : List CString) : addPaths [] (ps.map Subtype.val) = searchPath ps := by
  rw [addPaths_eq, List.nil_append, List.flatMap_map]
  rfl

namespace EnvChunkLemmas

theorem cString_val (s : CString) : cString s.1 = s := by
  refine Subtype.ext (List.takeWhile_eq_self_iff.mpr fun c hc => bne_iff_ne.mpr ?_)
  rintro rfl
  exact s.2 hc

theorem nul_not_mem_searchPath (ps : List CString) : (0 : UInt8) ∉ searchPath ps := by
  intro h
  obtain ⟨p, _, hp⟩ := List.mem_flatMap.mp h
  rcases List.mem_append.mp hp with hp | hp
  · exact p.2 hp
  · exact absurd hp (by decide)

/-- No NUL cuts the chunk off. -/
theorem envChunk_eq (ps : List CString) :
    envChunk ps = ascii "package.path = '" ++ (searchPath ps ++ [39]) := by
  have hpath : envPath ps = ascii "package.path = '" ++ (searchPath ps ++ [39]) := by
    rw [envPath, addPaths_eq, ← searchPath_eq, addPaths_eq, List.nil_append, List.append_assoc]
    rfl
  have hnul : (0 : UInt8) ∉ ascii "package.path = '" ++ (searchPath ps ++ [39]) := by
    simp only [List.mem_append, not_or]
    exact ⟨by decide, nul_not_mem_searchPath ps, by decide⟩
  rw [envChunk, hpath]
  exact congrArg Subtype.val (cString_val ⟨_, hnul⟩)

/-- The four tokens before the literal. -/
theorem lex_env (s : Bytes) :
    lex (ascii "package.path = '" ++ s) =
      (readString 39 s).bind fun w => (lex w.2).map (envTokens w.1 ++ ·) := by
  have hpackage : llex (ascii "package.path = '" ++ s) =
      .ok (some (.name (ascii "package"), ascii ".path = '" ++ s)) := by
    show llex (112 :: (ascii "ackage.path = '" ++ s)) = _
    rw [llex]
    rfl
  have hdot : llex (ascii ".path = '" ++ s) =
      .ok (some (.symbol (ascii "."), ascii "path = '" ++ s)) := by
    show llex (46 :: (ascii "path = '" ++ s)) = _
    rw [llex]
    rfl
  have hpath : llex (ascii "path = '" ++ s) =
      .ok (some (.name (ascii "path"), ascii " = '" ++ s)) := by
    show llex (112 :: (ascii "ath = '" ++ s)) = _
    rw [llex]
    rfl
  have hassign : llex (ascii " = '" ++ s) = .ok (some (.symbol (ascii "="), ascii " '" ++ s)) := by
    show llex (32 :: 61 :: (ascii " '" ++ s)) = _
    rw [llex_space rfl, llex]
    rfl
  have hliteral : llex (ascii " '" ++ s) =
      (readString 39 s).map fun w => some (.string w.1, w.2) := by
    show llex (32 :: 39 :: s) = _
    rw [llex_space rfl, llex, if_neg (by decide), if_neg (by simp), readToken, if_pos (Or.inr rfl)]
    cases readString 39 s <;> rfl
  rw [lex_of_llex hpackage, lex_of_llex hdot, lex_of_llex hpath, lex_of_llex hassign, lex_eq,
    hliteral]
  cases readString 39 s with
  | error e => rfl
  | ok w =>
    simp only [Except.map, Except.bind]
    cases lex w.2 <;> rfl

end EnvChunkLemmas

open EnvChunkLemmas

/-! ## 1. The tables -/

theorem getLuaVector_onto (ps : List CString) : ∃ values, getLuaVector values = ps := by
  refine ⟨ps.map fun p => .string p.1, ?_⟩
  induction ps with
  | nil => rfl
  | cons p ps ih =>
    show cString p.1 :: getLuaVector (ps.map fun p => .string p.1) = p :: ps
    rw [cString_val, ih]

/-! ## 2. The chunk -/

namespace EnvChunkLemmas

theorem plain_iff (c : UInt8) : Plain 39 c ↔ c ≠ 39 ∧ c ≠ 92 ∧ c ≠ 10 ∧ c ≠ 13 := by
  simp only [Plain, isNewline, Bool.or_eq_false_iff, beq_eq_false_iff_ne]

theorem searchPath_plain (ps : List CString) :
    (∀ c ∈ searchPath ps, Plain 39 c) ↔
      ∀ p ∈ ps, (39 : UInt8) ∉ p.1 ∧ 92 ∉ p.1 ∧ 10 ∉ p.1 ∧ 13 ∉ p.1 := by
  have hall : (ascii "/?.lua;").all (fun c => c != 39 && c != 92 && !isNewline c) = true := rfl
  have htemplate : ∀ c ∈ ascii "/?.lua;", Plain 39 c := by
    simpa [Plain, and_assoc] using hall
  have hdir (p : CString) : (∀ c ∈ p.1 ++ ascii "/?.lua;", Plain 39 c) ↔
      (39 : UInt8) ∉ p.1 ∧ 92 ∉ p.1 ∧ 10 ∉ p.1 ∧ 13 ∉ p.1 := by
    rw [List.forall_mem_append, and_iff_left htemplate]
    simp only [plain_iff]
    constructor
    · intro h
      exact ⟨fun hc => (h _ hc).1 rfl, fun hc => (h _ hc).2.1 rfl, fun hc => (h _ hc).2.2.1 rfl,
        fun hc => (h _ hc).2.2.2 rfl⟩
    · rintro ⟨hq, hb, hlf, hcr⟩ c hc
      exact ⟨ne_of_mem_of_not_mem hc hq, ne_of_mem_of_not_mem hc hb, ne_of_mem_of_not_mem hc hlf,
        ne_of_mem_of_not_mem hc hcr⟩
  rw [searchPath, List.forall_mem_flatMap]
  exact forall₂_congr fun p _ => hdir p

end EnvChunkLemmas

/-- Lua reads the chunk of `main` as the assignment of `p1/?.lua;...pn/?.lua;` to
`package.path` exactly when no directory has a single quote, a backslash, a line
feed or a carriage return. -/
theorem env_chunk (ps : List CString) :
    lex (envChunk ps) = .ok (envTokens (searchPath ps)) ↔
      ∀ p ∈ ps, (39 : UInt8) ∉ p.1 ∧ 92 ∉ p.1 ∧ 10 ∉ p.1 ∧ 13 ∉ p.1 := by
  rw [envChunk_eq, lex_env, ← searchPath_plain, ← readString_iff 39 (searchPath ps) []]
  constructor
  · intro h
    cases hread : readString 39 (searchPath ps ++ [39]) with
    | error e =>
      rw [hread] at h
      cases h
    | ok w =>
      rw [hread] at h
      obtain ⟨ts, _, hts⟩ := map_ok.mp h
      have hvalue : w.1 = searchPath ps := by
        simp only [envTokens, List.cons_append, List.cons.injEq, Token.string.injEq, true_and] at hts
        exact hts.1
      -- a value of that length leaves nothing behind the quote
      have hlt := (readString_shrinks hread).1
      rw [hvalue, List.length_append, List.length_singleton] at hlt
      have hend : w.2 = [] := List.length_eq_zero_iff.mp (by omega)
      rw [← hvalue, ← hend]
  · intro h
    rw [h, Except.bind, lex_nil]
    simp [envTokens, Except.map]

/-! ## 3. A quote in a directory -/

namespace EnvChunkLemmas

theorem searchPath_append (ps qs : List CString) :
    searchPath (ps ++ qs) = searchPath ps ++ searchPath qs := List.flatMap_append

end EnvChunkLemmas

/-- What a single quote does, where nothing before it is special: Lua takes what is in
front of it for the whole search path, and reads all that follows, the rest of the
directory and the other directories, as the code of the chunk. -/
theorem quoted_directory (ps qs : List CString) (d : CString) (a b : Bytes)
    (hd : d.1 = a ++ 39 :: b)
    (hps : ∀ p ∈ ps, (39 : UInt8) ∉ p.1 ∧ 92 ∉ p.1 ∧ 10 ∉ p.1 ∧ 13 ∉ p.1)
    (ha : ∀ c ∈ a, Plain 39 c) :
    lex (envChunk (ps ++ d :: qs)) =
      (lex (b ++ ascii "/?.lua;" ++ searchPath qs ++ [39])).map
        (envTokens (searchPath ps ++ a) ++ ·) := by
  have hpath : searchPath (ps ++ d :: qs) ++ [39] =
      (searchPath ps ++ a) ++ 39 :: (b ++ ascii "/?.lua;" ++ searchPath qs ++ [39]) := by
    have hcons : searchPath (d :: qs) = d.1 ++ ascii "/?.lua;" ++ searchPath qs :=
      List.flatMap_cons
    rw [searchPath_append, hcons, hd]
    simp only [List.append_assoc, List.cons_append]
  have hplain : ∀ c ∈ searchPath ps ++ a, Plain 39 c := by
    rw [List.forall_mem_append]
    exact ⟨(searchPath_plain ps).mpr hps, ha⟩
  rw [envChunk_eq, hpath, lex_env, (readString_iff 39 (searchPath ps ++ a) _).mpr hplain,
    Except.bind]

/-- Two dashes after the quote take the rest of the path away. -/
theorem quoted_directory_comment :
    lex (envChunk [cString (ascii "a"), cString (ascii "b'--"), cString (ascii "c")]) =
      .ok (envTokens (ascii "a/?.lua;b")) := by
  have hread := quoted_directory [cString (ascii "a")] [cString (ascii "c")]
    (cString (ascii "b'--")) (ascii "b") (ascii "--") rfl (by decide)
    (fun c hc => by
      have hb : c = 98 := List.mem_singleton.mp hc
      rw [plain_iff, hb]
      decide)
  have hcomment : lex (45 :: (ascii "-/?.lua;c/?.lua;'")) = .ok [] := by
    rw [lex_eq, llex, if_neg (by decide), if_pos (by decide)]
    show (llex []).bind _ = _
    rw [llex]
    rfl
  exact hread.trans (congrArg (Except.map _) hcomment)

end LuaRobot
