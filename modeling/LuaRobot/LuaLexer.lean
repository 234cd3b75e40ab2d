import Mathlib.Algebra.Group.Nat.Defs
import Mathlib.Data.List.TakeWhile
import LuaRobot.ByteStrings

/-!
# The lexical rules of Lua 5.4

`lex` reads a chunk into its tokens, or fails as the reference lexer does. A
name, a numeral and a symbol carry their text, a literal string its value.

Results:
1. `readString_shrinks`: a literal is longer than its value, by the quote alone
   only when the value stands there byte by byte.
2. `llex_shrinks`: every token takes part of the input.
3. `readString_iff`: what stands between two quotes is read back as itself
   exactly when it has no quote, backslash or line break.
-/

namespace LuaLexer

open ByteStrings

/-! ## Definitions -/

abbrev Bytes := List UInt8

inductive Token where
  | name (s : Bytes)
  | reserved (s : Bytes)
  | numeral (s : Bytes)
  | string (s : Bytes)
  | symbol (s : Bytes)
deriving DecidableEq

inductive LexError where
  | unfinishedString
  | unfinishedLongString
  | unfinishedLongComment
  | invalidLongStringDelimiter
  | invalidEscapeSequence
  | hexadecimalDigitExpected
  | missingBrace
  | utf8ValueTooLarge
  | decimalEscapeTooLarge
  | malformedNumber
deriving DecidableEq

/-- A value and the rest of the input. -/
abbrev Read (α : Type) := Except LexError (α × Bytes)

def isNewline (c : UInt8) : Bool := c == 10 || c == 13

/-- `isspace` in the C locale. -/
def isSpace (c : UInt8) : Bool := c == 32 || (9 ≤ c && c ≤ 13)

def isDigit (c : UInt8) : Bool := 48 ≤ c && c ≤ 57

def isXDigit (c : UInt8) : Bool := isDigit c || (65 ≤ c && c ≤ 70) || (97 ≤ c && c ≤ 102)

/-- A letter or an underscore. -/
def isAlpha (c : UInt8) : Bool := (65 ≤ c && c ≤ 90) || (97 ≤ c && c ≤ 122) || c == 95

def isAlnum (c : UInt8) : Bool := isAlpha c || isDigit c

def hexValue (c : UInt8) : ℕ :=
  if isDigit c then c.toNat - 48 else if c ≤ 70 then c.toNat - 55 else c.toNat - 87

/-- The value of digits to a base. -/
def digitsValue (base : ℕ) (ds : Bytes) : ℕ := ds.foldl (fun r d => base * r + hexValue d) 0

/-- What is left after the line break that begins with `c`: `\r\n` and `\n\r` are
one break. -/
def afterNewline (c : UInt8) : Bytes → Bytes
  | [] => []
  | d :: s => if isNewline d && d != c then s else d :: s

/-! Escapes in a short literal -/

/-- The continuation byte of UTF-8 for the lowest six bits of `x`. -/
def continuation (x : ℕ) : UInt8 := UInt8.ofNat (0x80 + x % 64)

/-- UTF-8 as it first was, for values below `2 ^ 31`. -/
def utf8esc (x : ℕ) : Bytes :=
  if x < 0x80 then [UInt8.ofNat x]
  else if x < 0x800 then [UInt8.ofNat (0xC0 + x / 64), continuation x]
  else if x < 0x10000 then
    [UInt8.ofNat (0xE0 + x / 64 ^ 2), continuation (x / 64), continuation x]
  else if x < 0x200000 then
    [UInt8.ofNat (0xF0 + x / 64 ^ 3), continuation (x / 64 ^ 2), continuation (x / 64),
      continuation x]
  else if x < 0x4000000 then
    [UInt8.ofNat (0xF8 + x / 64 ^ 4), continuation (x / 64 ^ 3), continuation (x / 64 ^ 2),
      continuation (x / 64), continuation x]
  else
    [UInt8.ofNat (0xFC + x / 64 ^ 5), continuation (x / 64 ^ 4), continuation (x / 64 ^ 3),
      continuation (x / 64 ^ 2), continuation (x / 64), continuation x]

/-- After `\x`: two hexadecimal digits. -/
def readHexEscape : Bytes → Read Bytes
  | c :: d :: s =>
    if isXDigit c && isXDigit d then .ok ([UInt8.ofNat (digitsValue 16 [c, d])], s)
    else .error .hexadecimalDigitExpected
  | _ => .error .hexadecimalDigitExpected

/-- After `\u`: hexadecimal digits in braces. -/
def readUtf8Escape : Bytes → Read Bytes
  | 123 :: s =>
    let ds := s.takeWhile isXDigit
    if ds = [] then .error .hexadecimalDigitExpected
    else if digitsValue 16 ds > 0x7FFFFFFF then .error .utf8ValueTooLarge
    else
      match s.dropWhile isXDigit with
      | 125 :: s' => .ok (utf8esc (digitsValue 16 ds), s')
      | _ => .error .missingBrace
  | _ => .error .missingBrace

/-- After a backslash, from a digit on: up to three decimal digits. -/
def readDecimalEscape (s : Bytes) : Read Bytes :=
  let ds := (s.take 3).takeWhile isDigit
  if digitsValue 10 ds > 255 then .error .decimalEscapeTooLarge
  else .ok ([UInt8.ofNat (digitsValue 10 ds)], s.drop ds.length)

/-- The letters that stand for one byte after a backslash: `a b f n r t v` and
the backslash and the quotes themselves. -/
def simpleEscape : List (UInt8 × UInt8) :=
  [(97, 7), (98, 8), (102, 12), (110, 10), (114, 13), (116, 9), (118, 11), (92, 92), (34, 34),
    (39, 39)]

/-- After a backslash: the bytes that the escape stands for. -/
def readEscape : Bytes → Read Bytes
  | [] => .error .unfinishedString
  | c :: s =>
    match simpleEscape.lookup c with
    | some b => .ok ([b], s)
    | none =>
      if c = 120 then readHexEscape s
      else if c = 117 then readUtf8Escape s
      else if isNewline c then .ok ([10], afterNewline c s)
      else if c = 122 then .ok ([], s.dropWhile isSpace)
      else if isDigit c then readDecimalEscape (c :: s)
      else .error .invalidEscapeSequence

namespace LexerLemmas

theorem length_dropWhile_le (p : UInt8 → Bool) (s : Bytes) : (s.dropWhile p).length ≤ s.length :=
  (List.dropWhile_sublist p).length_le

theorem length_afterNewline_le (c : UInt8) (s : Bytes) :
    (afterNewline c s).length ≤ s.length := by
  unfold afterNewline
  split
  · exact Nat.le_refl _
  · split
    · exact Nat.le_succ _
    · exact Nat.le_refl _

theorem hexValue_lt {c : UInt8} (h : isXDigit c = true) : hexValue c < 16 := by
  simp only [isXDigit, isDigit, Bool.or_eq_true, Bool.and_eq_true, decide_eq_true_eq,
    UInt8.le_iff_toNat_le, UInt8.reduceToNat] at h
  unfold hexValue isDigit
  simp only [Bool.and_eq_true, decide_eq_true_eq, UInt8.le_iff_toNat_le, UInt8.reduceToNat]
  split_ifs <;> omega

theorem foldl_digits_lt {ds : Bytes} (h : ∀ d ∈ ds, isXDigit d = true) (r : ℕ) :
    ds.foldl (fun r d => 16 * r + hexValue d) r < (r + 1) * 16 ^ ds.length := by
  induction ds generalizing r with
  | nil => simp
  | cons d ds ih =>
    have hd := hexValue_lt (h d List.mem_cons_self)
    have hrest := ih (fun e he => h e (List.mem_cons_of_mem d he)) (16 * r + hexValue d)
    rw [List.foldl_cons, List.length_cons, Nat.pow_succ]
    calc ds.foldl (fun r d => 16 * r + hexValue d) (16 * r + hexValue d)
        < (16 * r + hexValue d + 1) * 16 ^ ds.length := hrest
      _ ≤ ((r + 1) * 16) * 16 ^ ds.length := Nat.mul_le_mul_right _ (by omega)
      _ = (r + 1) * (16 ^ ds.length * 16) := by rw [Nat.mul_assoc, Nat.mul_comm 16]

theorem digitsValue_lt {ds : Bytes} (h : ∀ d ∈ ds, isXDigit d = true) :
    digitsValue 16 ds < 16 ^ ds.length := by
  simpa [digitsValue] using foldl_digits_lt h 0

theorem utf8esc_length (x : ℕ) : (utf8esc x).length ≤ 6 ∧ (x < 0x800 → (utf8esc x).length ≤ 2) := by
  unfold utf8esc
  split_ifs <;> simp <;> omega

theorem readHexEscape_shrinks {s v r : Bytes} (h : readHexEscape s = .ok (v, r)) :
    v.length + r.length ≤ s.length := by
  unfold readHexEscape at h
  split at h
  · split at h
    · cases h
      simp only [List.length_cons, List.length_nil]
      omega
    · cases h
  · cases h

theorem readUtf8Escape_shrinks {s v r : Bytes} (h : readUtf8Escape s = .ok (v, r)) :
    v.length + r.length ≤ s.length + 1 := by
  unfold readUtf8Escape at h
  split at h
  · next s =>
    simp only at h
    split at h
    · cases h
    · next hne =>
      split at h
      · cases h
      · split at h
        · next hdrop =>
          cases h
          -- one or two digits stand for at most two bytes, more for at most six
          have hlen : s.length = (s.takeWhile isXDigit).length + (r.length + 1) := by
            rw [← List.length_cons, ← hdrop, ← List.length_append, List.takeWhile_append_dropWhile]
          have hpos := List.length_pos_iff.mpr hne
          have hdigits : digitsValue 16 (s.takeWhile isXDigit) < 16 ^ (s.takeWhile isXDigit).length :=
            digitsValue_lt fun d hd => List.mem_takeWhile_imp hd
          have hbytes := utf8esc_length (digitsValue 16 (s.takeWhile isXDigit))
          rw [List.length_cons]
          by_cases hmany : 3 ≤ (s.takeWhile isXDigit).length
          · omega
          · have hpow : 16 ^ (s.takeWhile isXDigit).length ≤ 16 ^ 2 :=
              Nat.pow_le_pow_right (by decide) (by omega)
            have := hbytes.2 (by omega)
            omega
        · cases h
  · cases h

theorem readDecimalEscape_shrinks {c : UInt8} {s v r : Bytes} (hc : isDigit c = true)
    (h : readDecimalEscape (c :: s) = .ok (v, r)) : v.length + r.length ≤ (c :: s).length := by
  unfold readDecimalEscape at h
  simp only at h
  split at h
  · cases h
  · cases h
    simp only [List.take_succ_cons, List.takeWhile_cons, hc, if_true, List.length_cons,
      List.drop_succ_cons, List.length_drop, List.length_nil]
    omega

/-- An escape, its backslash counted, is longer than what it stands for. -/
theorem readEscape_shrinks {s v r : Bytes} (h : readEscape s = .ok (v, r)) :
    v.length + r.length ≤ s.length := by
  unfold readEscape at h
  split at h
  · cases h
  · next c s =>
    split at h
    · cases h
      simp only [List.length_cons, List.length_nil]
      omega
    · split_ifs at h with hx hu hn hz hd
      · have := readHexEscape_shrinks h
        simp only [List.length_cons]
        omega
      · exact readUtf8Escape_shrinks h
      · cases h
        have := length_afterNewline_le c s
        simp only [List.length_cons, List.length_nil]
        omega
      · cases h
        have := length_dropWhile_le isSpace s
        simp only [List.length_cons, List.length_nil]
        omega
      · exact readDecimalEscape_shrinks hd h

end LexerLemmas

open LexerLemmas

/-- `v` in front of the value that is read. -/
def prepend (v : Bytes) (x : Read Bytes) : Read Bytes := x.map fun w => (v ++ w.1, w.2)

/-- `read_string`: the literal up to the quote `del`. -/
def readString (del : UInt8) : Bytes → Read Bytes
  | [] => .error .unfinishedString
  | c :: s =>
    if c = del then .ok ([], s)
    else if isNewline c then .error .unfinishedString
    else if c = 92 then
      match h : readEscape s with
      | .error e => .error e
      | .ok (v, r) =>
        have : r.length ≤ s.length := by have := readEscape_shrinks h; omega
        prepend v (readString del r)
    else prepend [c] (readString del s)
termination_by s => s.length

/-! Long brackets -/

/-- After a `[`: the level of the long bracket that it opens, and what follows. -/
def longBracket (s : Bytes) : Option (ℕ × Bytes) :=
  match s.dropWhile (· == 61) with
  | 91 :: r => some ((s.takeWhile (· == 61)).length, r)
  | _ => none

/-- After a `]`: what follows when it closes a long bracket of that level. -/
def closes (level : ℕ) (s : Bytes) : Option Bytes :=
  if s.take (level + 1) = List.replicate level 61 ++ [93] then some (s.drop (level + 1)) else none

/-- A line break right after the opening bracket is not part of the text. -/
def skipNewline : Bytes → Bytes
  | [] => []
  | c :: s => if isNewline c then afterNewline c s else c :: s

/-- The text of a long bracket, where every line break is a `\n`. -/
def readLong (unfinished : LexError) (level : ℕ) : Bytes → Read Bytes
  | [] => .error unfinished
  | c :: s =>
    if c = 93 then
      match closes level s with
      | some r => .ok ([], r)
      | none => prepend [93] (readLong unfinished level s)
    else if isNewline c then prepend [10] (readLong unfinished level (afterNewline c s))
    else prepend [c] (readLong unfinished level s)
termination_by s => s.length
decreasing_by
  · exact Nat.lt_succ_self _
  · exact Nat.lt_succ_of_le (length_afterNewline_le c s)
  · exact Nat.lt_succ_self _

/-- `read_long_string`, from after the opening bracket. -/
def readLongString (unfinished : LexError) (level : ℕ) (s : Bytes) : Read Bytes :=
  readLong unfinished level (skipNewline s)

/-! Numerals -/

def isSign (c : UInt8) : Bool := c == 43 || c == 45

/-- How many bytes the loop of `read_numeral` takes. A sign is taken right after
an exponent mark only. -/
def numeralLength (expo : Bytes) : Bool → Bytes → ℕ
  | _, [] => 0
  | marked, c :: s =>
    if marked && isSign c then numeralLength expo false s + 1
    else if expo.contains c then numeralLength expo true s + 1
    else if isXDigit c || c == 46 then numeralLength expo false s + 1
    else 0

/-- The length of the numeral that starts with a digit. -/
def numeralEnd : Bytes → ℕ
  | [] => 0
  | c :: s =>
    if c = 48 then
      match s with
      | [] => 1
      | x :: s' =>
        if x = 120 ∨ x = 88 then numeralLength [80, 112] false s' + 2
        else numeralLength [69, 101] false s + 1
    else numeralLength [69, 101] false s + 1

/-- Nothing, or an exponent with its mark. -/
def isExponent (expo : Bytes) : Bytes → Bool
  | [] => true
  | c :: s =>
    let ds := if s.head?.any isSign then s.tail else s
    expo.contains c && !ds.isEmpty && ds.all isDigit

/-- Digits, with at most one point among them, and an exponent. -/
def isFloat (digit : UInt8 → Bool) (expo s : Bytes) : Bool :=
  let whole := s.takeWhile digit
  match s.dropWhile digit with
  | 46 :: r =>
    !(whole ++ r.takeWhile digit).isEmpty && isExponent expo (r.dropWhile digit)
  | r => !whole.isEmpty && isExponent expo r

/-- The texts that `luaO_str2num` converts. -/
def isNumeral (s : Bytes) : Bool :=
  match s with
  | 48 :: x :: s' =>
    if x = 120 ∨ x = 88 then isFloat isXDigit [80, 112] s' else isFloat isDigit [69, 101] s
  | _ => isFloat isDigit [69, 101] s

/-- `read_numeral`, where `point` has been read already. -/
def readNumeral (point s : Bytes) : Read Token :=
  let text := point ++ s.take (numeralEnd s)
  let r := s.drop (numeralEnd s)
  if r.head?.any isAlpha || !isNumeral text then .error .malformedNumber
  else .ok (.numeral text, r)

/-! Tokens -/

def reservedWords : List Bytes :=
  ["and", "break", "do", "else", "elseif", "end", "false", "for", "function", "goto", "if", "in",
    "local", "nil", "not", "or", "repeat", "return", "then", "true", "until", "while"].map ascii

/-- `== <= << >= >> // ~= ::` -/
def pairs : List (UInt8 × UInt8) :=
  [(61, 61), (60, 61), (60, 60), (62, 61), (62, 62), (47, 47), (126, 61), (58, 58)]

/-- The symbol that starts with `c`. -/
def readSymbol (c : UInt8) : Bytes → Token × Bytes
  | [] => (.symbol [c], [])
  | d :: s => if (c, d) ∈ pairs then (.symbol [c, d], s) else (.symbol [c], d :: s)

/-- After a `.` -/
def readDots (s : Bytes) : Read Token :=
  match s with
  | 46 :: 46 :: r => .ok (.symbol [46, 46, 46], r)
  | 46 :: r => .ok (.symbol [46, 46], r)
  | c :: r => if isDigit c then readNumeral [46] (c :: r) else .ok (.symbol [46], c :: r)
  | [] => .ok (.symbol [46], [])

/-- After a `[` -/
def readBracket (s : Bytes) : Read Token :=
  match longBracket s with
  | some (level, r) =>
    (readLongString .unfinishedLongString level r).map fun w => (.string w.1, w.2)
  | none => if s.head? = some 61 then .error .invalidLongStringDelimiter else .ok (.symbol [91], s)

/-- A name or a reserved word. -/
def readName (s : Bytes) : Token × Bytes :=
  let word := s.takeWhile isAlnum
  (if word ∈ reservedWords then .reserved word else .name word, s.dropWhile isAlnum)

/-- The token that starts with `c`, which begins neither a blank nor a comment. -/
def readToken (c : UInt8) (s : Bytes) : Read Token :=
  if c = 34 ∨ c = 39 then (readString c s).map fun w => (.string w.1, w.2)
  else if c = 91 then readBracket s
  else if c = 46 then readDots s
  else if isDigit c then readNumeral [] (c :: s)
  else if isAlpha c then .ok (readName (c :: s))
  else .ok (readSymbol c s)

/-- A byte that a literal between quotes `del` stands for itself with. -/
def Plain (del c : UInt8) : Prop := c ≠ del ∧ c ≠ 92 ∧ isNewline c = false

namespace LexerLemmas

theorem prepend_ok {v w r : Bytes} {x : Read Bytes} :
    prepend v x = .ok (w, r) ↔ ∃ u, x = .ok (u, r) ∧ w = v ++ u := by
  constructor
  · intro h
    rcases x with e | ⟨u, t⟩
    · cases h
    · cases h
      exact ⟨u, rfl, rfl⟩
  · rintro ⟨u, rfl, rfl⟩
    rfl

theorem map_ok {α β : Type} {f : α → β} {x : Except LexError α} {b : β} :
    x.map f = .ok b ↔ ∃ a, x = .ok a ∧ f a = b := by
  cases x <;> simp [Except.map]

/-- Every escape is longer than what it stands for, so that a literal with one
is too long. -/
theorem readString_shrinks {del : UInt8} {s v r : Bytes} (h : readString del s = .ok (v, r)) :
    v.length + r.length < s.length ∧
      (v.length + r.length + 1 = s.length → s = v ++ del :: r ∧ ∀ c ∈ v, Plain del c) := by
  induction hn : s.length using Nat.strong_induction_on generalizing s v with
  | _ n ih =>
    subst hn
    cases s with
    | nil =>
      rw [readString] at h
      cases h
    | cons c s =>
      rw [readString] at h
      split_ifs at h with hdel hnl hesc
      · cases h
        subst hdel
        exact ⟨by simp, fun _ => ⟨rfl, fun _ hc => absurd hc List.not_mem_nil⟩⟩
      · split at h
        · cases h
        · next hok =>
          obtain ⟨u, hu, rfl⟩ := prepend_ok.mp h
          have hescape := readEscape_shrinks hok
          have hrest := (ih _ (by rw [List.length_cons]; omega) hu rfl).1
          rw [List.length_append, List.length_cons]
          exact ⟨by omega, fun heq => by omega⟩
      · obtain ⟨u, hu, rfl⟩ := prepend_ok.mp h
        obtain ⟨hlt, hplain⟩ := ih _ (Nat.lt_succ_self _) hu rfl
        rw [List.length_append, List.length_singleton, List.length_cons]
        refine ⟨by omega, fun heq => ?_⟩
        obtain ⟨rfl, hclean⟩ := hplain (by omega)
        refine ⟨rfl, fun d hd => ?_⟩
        rcases List.mem_cons.mp hd with rfl | hd
        · exact ⟨hdel, hesc, by simpa using hnl⟩
        · exact hclean d hd

theorem readLong_shrinks {e : LexError} {level : ℕ} {s v r : Bytes}
    (h : readLong e level s = .ok (v, r)) : r.length < s.length := by
  induction hn : s.length using Nat.strong_induction_on generalizing s v with
  | _ n ih =>
    subst hn
    cases s with
    | nil =>
      rw [readLong] at h
      cases h
    | cons c s =>
      rw [readLong] at h
      split_ifs at h with hclose hnl
      · split at h
        · next hcloses =>
          cases h
          rw [closes] at hcloses
          split at hcloses
          · cases hcloses
            simp only [List.length_drop, List.length_cons]
            omega
          · cases hcloses
        · obtain ⟨u, hu, _⟩ := prepend_ok.mp h
          exact Nat.lt_succ_of_lt (ih _ (Nat.lt_succ_self _) hu rfl)
      · obtain ⟨u, hu, _⟩ := prepend_ok.mp h
        have hle := length_afterNewline_le c s
        exact lt_of_lt_of_le (ih _ (Nat.lt_succ_of_le hle) hu rfl) (Nat.le_succ_of_le hle)
      · obtain ⟨u, hu, _⟩ := prepend_ok.mp h
        exact Nat.lt_succ_of_lt (ih _ (Nat.lt_succ_self _) hu rfl)

theorem numeralEnd_pos (c : UInt8) (s : Bytes) : 0 < numeralEnd (c :: s) := by
  simp only [numeralEnd]
  split_ifs
  · split
    · exact Nat.one_pos
    · split_ifs
      · exact Nat.succ_pos _
      · exact Nat.succ_pos _
  · exact Nat.succ_pos _

theorem readNumeral_shrinks {point s r : Bytes} {c : UInt8} {t : Token}
    (h : readNumeral point (c :: s) = .ok (t, r)) : r.length < (c :: s).length := by
  unfold readNumeral at h
  simp only at h
  split at h
  · cases h
  · cases h
    have hpos := numeralEnd_pos c s
    rw [List.length_drop, List.length_cons]
    omega

theorem readSymbol_shrinks (c : UInt8) (s : Bytes) : (readSymbol c s).2.length ≤ s.length := by
  unfold readSymbol
  split
  · exact Nat.le_refl _
  · split
    · exact Nat.le_succ _
    · exact Nat.le_refl _

theorem readDots_shrinks {s r : Bytes} {t : Token} (h : readDots s = .ok (t, r)) :
    r.length ≤ s.length := by
  unfold readDots at h
  split at h
  · cases h
    exact Nat.le_add_right _ 2
  · cases h
    exact Nat.le_succ _
  · split at h
    · exact (readNumeral_shrinks h).le
    · cases h
      exact Nat.le_refl _
  · cases h
    exact Nat.le_refl _

theorem skipNewline_shrinks (s : Bytes) : (skipNewline s).length ≤ s.length := by
  unfold skipNewline
  split
  · exact Nat.le_refl _
  · next c s =>
    split
    · exact Nat.le_succ_of_le (length_afterNewline_le c s)
    · exact Nat.le_refl _

theorem readLongString_shrinks {e : LexError} {level : ℕ} {s v r : Bytes}
    (h : readLongString e level s = .ok (v, r)) : r.length < s.length :=
  lt_of_lt_of_le (readLong_shrinks h) (skipNewline_shrinks s)

theorem longBracket_shrinks {s r : Bytes} {level : ℕ} (h : longBracket s = some (level, r)) :
    r.length < s.length := by
  unfold longBracket at h
  split at h
  · next hdrop =>
    cases h
    have hle := length_dropWhile_le (· == 61) s
    rw [hdrop, List.length_cons] at hle
    exact hle
  · cases h

theorem readBracket_shrinks {s r : Bytes} {t : Token} (h : readBracket s = .ok (t, r)) :
    r.length ≤ s.length := by
  unfold readBracket at h
  split at h
  · next hopen =>
    obtain ⟨w, hw, hwr⟩ := map_ok.mp h
    cases hwr
    exact ((readLongString_shrinks hw).trans (longBracket_shrinks hopen)).le
  · split at h
    · cases h
    · cases h
      exact Nat.le_refl _

theorem readName_shrinks {c : UInt8} (hc : isAlpha c = true) (s : Bytes) :
    (readName (c :: s)).2.length ≤ s.length := by
  have halnum : isAlnum c = true := by rw [isAlnum, hc, Bool.true_or]
  rw [readName, List.dropWhile_cons_of_pos halnum]
  exact length_dropWhile_le _ _

theorem readToken_shrinks {c : UInt8} {s r : Bytes} {t : Token}
    (h : readToken c s = .ok (t, r)) : r.length ≤ s.length := by
  unfold readToken at h
  split_ifs at h with hquote hbracket hdot hdigit halpha
  · obtain ⟨w, hw, hwr⟩ := map_ok.mp h
    cases hwr
    have := (readString_shrinks hw).1
    omega
  · exact readBracket_shrinks h
  · exact readDots_shrinks h
  · exact Nat.le_of_lt_succ (readNumeral_shrinks h)
  · cases h
    exact readName_shrinks halpha s
  · have hsymbol := readSymbol_shrinks c s
    rwa [Except.ok.inj h] at hsymbol

end LexerLemmas

open LexerLemmas

/-! Blanks and comments -/

/-- What is left after the comment whose two dashes have been read. -/
def skipComment (s : Bytes) : Except LexError Bytes :=
  match s with
  | 91 :: s' =>
    match longBracket s' with
    | some (level, r) => (readLongString .unfinishedLongComment level r).map Prod.snd
    | none => .ok (s.dropWhile (!isNewline ·))
  | _ => .ok (s.dropWhile (!isNewline ·))

namespace LexerLemmas

theorem skipComment_shrinks {s r : Bytes} (h : skipComment s = .ok r) :
    r.length ≤ s.length := by
  unfold skipComment at h
  split at h
  · next s' =>
    split at h
    · next hopen =>
      obtain ⟨w, hw, rfl⟩ := map_ok.mp h
      have := (readLongString_shrinks hw).trans (longBracket_shrinks hopen)
      exact Nat.le_succ_of_le this.le
    · cases h
      exact length_dropWhile_le _ _
  · cases h
    exact length_dropWhile_le _ _

end LexerLemmas

/-- `llex`: the next token, none at the end of the chunk. -/
def llex : Bytes → Except LexError (Option (Token × Bytes))
  | [] => .ok none
  | c :: s =>
    if isSpace c then llex s
    else if c = 45 ∧ s.head? = some 45 then
      match h : skipComment s.tail with
      | .error e => .error e
      | .ok r =>
        have : r.length ≤ s.length := (skipComment_shrinks h).trans (by simp)
        llex r
    else (readToken c s).map some
termination_by s => s.length

/-- Every token takes part of the input. -/
theorem llex_shrinks {s r : Bytes} {t : Token} (h : llex s = .ok (some (t, r))) :
    r.length < s.length := by
  induction hn : s.length using Nat.strong_induction_on generalizing s with
  | _ n ih =>
    subst hn
    cases s with
    | nil =>
      rw [llex] at h
      cases h
    | cons c s =>
      rw [llex] at h
      split_ifs at h with hspace hcomment
      · exact Nat.lt_succ_of_lt (ih _ (Nat.lt_succ_self _) h rfl)
      · split at h
        · cases h
        · next r' hr' =>
          have hle : r'.length ≤ s.length := (skipComment_shrinks hr').trans (by simp)
          exact lt_of_lt_of_le (ih _ (Nat.lt_succ_of_le hle) h rfl) (Nat.le_succ_of_le hle)
      · obtain ⟨w, hw, hwr⟩ := map_ok.mp h
        cases hwr
        exact Nat.lt_succ_of_le (readToken_shrinks hw)

theorem llex_space {c : UInt8} (hc : isSpace c = true) (s : Bytes) : llex (c :: s) = llex s := by
  rw [llex, if_pos hc]

/-- The tokens of a chunk. -/
def lex (s : Bytes) : Except LexError (List Token) :=
  match h : llex s with
  | .error e => .error e
  | .ok none => .ok []
  | .ok (some (t, r)) =>
    have := llex_shrinks h
    (lex r).map (t :: ·)
termination_by s.length

theorem lex_eq (s : Bytes) :
    lex s = (llex s).bind fun
      | none => .ok []
      | some (t, r) => (lex r).map (t :: ·) := by
  rw [lex]
  split
  · next h =>
    rw [h]
    rfl
  · next h =>
    rw [h]
    rfl
  · next t r h =>
    show (lex r).map (t :: ·) = _
    rw [h]
    rfl

theorem lex_of_llex {s r : Bytes} {t : Token} (h : llex s = .ok (some (t, r))) :
    lex s = (lex r).map (t :: ·) := by
  rw [lex_eq, h]
  rfl

theorem lex_nil : lex [] = .ok [] := by
  rw [lex_eq, llex.eq_def]
  rfl

/-! ## Reading back -/

/-- What stands between two quotes is read back as itself exactly when all its
bytes are plain. -/
theorem readString_iff (del : UInt8) (v r : Bytes) :
    readString del (v ++ del :: r) = .ok (v, r) ↔ ∀ c ∈ v, Plain del c := by
  constructor
  · intro h
    exact ((readString_shrinks h).2 (by simp [Nat.add_assoc])).2
  · intro h
    induction v with
    | nil =>
      rw [List.nil_append, readString, if_pos rfl]
    | cons c v ih =>
      obtain ⟨hdel, hesc, hnl⟩ := h c List.mem_cons_self
      rw [List.cons_append, readString, if_neg hdel, if_neg (by simp [hnl]), if_neg hesc,
        ih fun d hd => h d (List.mem_cons_of_mem c hd)]
      rfl

end LuaLexer
