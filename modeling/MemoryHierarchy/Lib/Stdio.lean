import MemoryHierarchy.Lib.CText

/-!
# Input streams of C

A stream is what is left to read and its two indicators. Reading past the last byte raises the
end-of-file indicator, or the error indicator on a stream whose source fails there; the indicators
are never cleared. Strings are the bytes before the terminator.
-/

namespace MemoryHierarchy.Lib

/-- An input stream. Reading past the last byte is a read error if the source `fails`. -/
structure File where
  rest : List (BitVec 8)
  eof : Bool
  error : Bool
  fails : Bool
  deriving DecidableEq

/-- A freshly opened stream that delivers the given bytes, then the end of the file. -/
def File.open (bytes : List (BitVec 8)) : File :=
  { rest := bytes, eof := false, error := false, fails := false }

/-- `feof(f) || ferror(f)`. -/
def File.ended (f : File) : Bool := f.eof || f.error

/-- The stream after an attempt to read past its last byte. -/
def File.atEnd (f : File) : File :=
  if f.fails then { f with error := true } else { f with eof := true }

/-- `fgetc`; `EOF` is `-1`. -/
def fgetc (f : File) : ℤ × File :=
  match f.rest with
  | [] => (-1, f.atEnd)
  | b :: rest => (b.toNat, { f with rest := rest })

/-- The conversion of an `int` to a `char`. -/
def toChar (c : ℤ) : BitVec 8 := BitVec.ofInt 8 c

/-- The stream after its bytes have been read up to `rest`, where one more byte was looked at. -/
def File.seek (f : File) (rest : List (BitVec 8)) : File :=
  match rest with
  | [] => { f with rest := [] }.atEnd
  | b :: rest => { f with rest := b :: rest }

/-- `fgets(s, n, f)`: the string stored, or `NULL`. -/
def fgets (n : ℕ) (f : File) : Option (List (BitVec 8)) × File :=
  let line := (f.rest.take (n - 1)).takeWhile (· ≠ ch '\n')
  if line.length = n - 1 then (some line, { f with rest := f.rest.drop (n - 1) })
  else
    match f.rest.drop line.length with
    | newline :: rest => (some (line ++ [newline]), { f with rest := rest })
    | [] => (if line = [] ∨ f.fails then none else some line, { f with rest := [] }.atEnd)

/-- `fscanf` with the conversion `%u` (base 10) or `%X` (base 16), into an integer of 64 bits: the
number, if the input matches. As in ISO C, `0x` with no digit after it is no match; glibc reads a
zero there. -/
def fscanfUnsigned (base : ℕ) (f : File) : Option ℕ × File :=
  let (negative, _, t) := splitSign (f.rest.dropWhile fun b => isspace b.toNat)
  let t := if base = 16 ∧ hasHexPrefix t then t.drop 2 else t
  let isDigit := fun b => if base = 16 then isxdigit b.toNat else decide (IsDec b)
  let digits := t.takeWhile isDigit
  (if digits = [] then none else some (unsigned64 negative (numeral base digits)),
    f.seek (t.dropWhile isDigit))

/-- The string in an array of characters: what stands before the first terminator. -/
def cString (s : List (BitVec 8)) : List (BitVec 8) := s.takeWhile (· ≠ 0)

/-- `strtok(s, "\n")`: the string left in `s`, or nothing if there is no token. -/
def strtokNewline (s : List (BitVec 8)) : Option (List (BitVec 8)) :=
  let s := cString s
  let newlines := s.takeWhile (· = ch '\n')
  let token := (s.dropWhile (· = ch '\n')).takeWhile (· ≠ ch '\n')
  if token = [] then none else some (newlines ++ token)

variable {f : File} {b : BitVec 8} {rest : List (BitVec 8)}

theorem cString_eq_cons {s t : List (BitVec 8)} (hb : b ≠ 0) :
    cString s = b :: t ↔ ∃ s', s = b :: s' ∧ cString s' = t := by
  rcases s with _ | ⟨c, s⟩
  · simp [cString]
  · rw [cString, List.takeWhile_cons]
    split_ifs with hc
    · simp [cString]
    · have hzero : c = 0 := by simpa using hc
      have hne : c ≠ b := fun h => hb (h.symm.trans hzero)
      simp [hne]

theorem cString_eq_nil {s : List (BitVec 8)} : cString s = [] ↔ s = [] ∨ ∃ s', s = 0 :: s' := by
  rcases s with _ | ⟨c, s⟩
  · simp [cString]
  · rw [cString, List.takeWhile_cons]
    split_ifs with hc
    · simpa using hc
    · simpa using hc

@[simp]
theorem toChar_toNat (b : BitVec 8) : toChar b.toNat = b := by
  rw [toChar, BitVec.ofInt_natCast, BitVec.ofNat_toNat, BitVec.setWidth_eq]

theorem fgetc_cons (h : f.rest = b :: rest) :
    fgetc f = ((b.toNat : ℤ), { f with rest := rest }) := by
  simp only [fgetc, h]

theorem fgetc_nil (h : f.rest = []) : fgetc f = (-1, f.atEnd) := by
  simp only [fgetc, h]

@[simp]
theorem atEnd_ended (f : File) : f.atEnd.ended = true := by
  rw [File.atEnd]
  split <;> simp [File.ended]

@[simp]
theorem atEnd_rest (f : File) : f.atEnd.rest = f.rest := by
  rw [File.atEnd]
  split <;> rfl

/-! ### Numerals and lines -/

/-- White space in front of a character that is none is skipped. -/
private theorem dropWhile_space {lead s : List (BitVec 8)} (hlead : ∀ b ∈ lead, IsSpace b)
    (hb : ¬ IsSpace b) :
    (lead ++ b :: s).dropWhile (fun b => isspace b.toNat) = b :: s := by
  rw [List.dropWhile_append_of_pos hlead,
    List.dropWhile_cons_of_neg (p := fun b : BitVec 8 => isspace b.toNat) hb]

private theorem takeWhile_digits (isDigit : BitVec 8 → Bool) {digits : List (BitVec 8)}
    (s : List (BitVec 8)) (hdigits : ∀ d ∈ digits, isDigit d = true) (hb : ¬ isDigit b = true) :
    (digits ++ b :: s).takeWhile isDigit = digits ∧
      (digits ++ b :: s).dropWhile isDigit = b :: s := by
  rw [List.takeWhile_append_of_pos hdigits, List.takeWhile_cons_of_neg hb, List.append_nil,
    List.dropWhile_append_of_pos hdigits, List.dropWhile_cons_of_neg hb]
  exact ⟨rfl, rfl⟩

/-- `fscanf` reads a decimal numeral that fits, up to the character that ends it. -/
theorem fscanfUnsigned_of_isDecNumeral (lead : List (BitVec 8)) {s : List (BitVec 8)} {n : ℕ}
    (hrest : f.rest = lead ++ s ++ b :: rest) (hlead : ∀ c ∈ lead, IsSpace c)
    (h : IsDecNumeral s n) (hn : n < 2 ^ 64) (hb : ¬ IsDec b) :
    fscanfUnsigned 10 f = (some n, { f with rest := b :: rest }) := by
  obtain ⟨hne, hdigits, rfl⟩ := h
  obtain ⟨d, ds, rfl⟩ := List.exists_cons_of_ne_nil hne
  have hd : IsHex d := (hdigits d List.mem_cons_self).isHex
  obtain ⟨htake, hdrop⟩ := takeWhile_digits (fun b => decide (IsDec b)) rest
    (fun c hc => decide_eq_true (hdigits c hc)) (by simpa using hb)
  rw [fscanfUnsigned, hrest, List.append_assoc, List.cons_append,
    dropWhile_space hlead hd.not_space, splitSign_of_isHex hd, ← List.cons_append]
  have hbase : ¬ (10 = 16 ∧ hasHexPrefix (d :: ds ++ b :: rest) = true) := by simp
  have hdec : (10 : ℕ) ≠ 16 := by decide
  simp only [if_neg hbase, if_neg hdec, htake, hdrop, if_neg hne, unsigned64,
    if_neg (Nat.not_le_of_gt hn), Bool.false_eq_true, if_false, File.seek]

/-- `fscanf` reads a hexadecimal numeral that fits, up to the character that ends it. -/
theorem fscanfUnsigned_of_isHexNumeral (lead : List (BitVec 8)) {s : List (BitVec 8)} {n : ℕ}
    (hrest : f.rest = lead ++ s ++ b :: rest) (hlead : ∀ c ∈ lead, IsSpace c)
    (h : IsHexNumeral s n) (hn : n < 2 ^ 64) (hb : IsSpace b) :
    fscanfUnsigned 16 f = (some n, { f with rest := b :: rest }) := by
  obtain ⟨pre, digits, hpre, hne, hdigits, rfl, rfl⟩ := h
  have hnot : ¬ IsHex b := fun hhex => hhex.not_space hb
  have hx : ∀ c, (b :: rest).head? = some c → c ≠ ch 'x' ∧ c ≠ ch 'X' := by
    intro c hc
    obtain rfl : b = c := Option.some.inj hc
    constructor
    · rintro rfl
      exact absurd hb (by decide)
    · rintro rfl
      exact absurd hb (by decide)
  obtain ⟨c, t, hc, hct⟩ := exists_isHex_cons hpre hdigits hne
  have hskip : f.rest.dropWhile (fun b => isspace b.toNat) = pre ++ digits ++ b :: rest := by
    rw [hrest, hct, List.append_assoc, List.cons_append, dropWhile_space hlead hc.not_space]
  have hsign : splitSign (pre ++ digits ++ b :: rest) = (false, 0, pre ++ digits ++ b :: rest) := by
    rw [hct, List.cons_append, splitSign_of_isHex hc]
  have hdrop := drop_hexPrefix hpre hdigits hne hx
  obtain ⟨htake, hleft⟩ := takeWhile_digits (fun b => isxdigit b.toNat) rest hdigits hnot
  simp only [fscanfUnsigned, hskip, hsign, true_and, hdrop, if_true, htake, hleft, if_neg hne,
    unsigned64, if_neg (Nat.not_le_of_gt hn), Bool.false_eq_true, if_false, File.seek]

/-- What follows a line: a newline and more text, or the end of the file. -/
def endText : Option (List (BitVec 8)) → List (BitVec 8)
  | none => []
  | some rest => ch '\n' :: rest

/-- The stream after a line has been read with what ends it. -/
def afterLine : Option (List (BitVec 8)) → File
  | none => (File.open []).atEnd
  | some rest => File.open rest

/-- `strtok` cuts the newline off a line. -/
theorem strtokNewline_line {line newline : List (BitVec 8)} (hne : line ≠ [])
    (hline : ∀ c ∈ line, c ≠ ch '\n' ∧ c ≠ 0) (hnewline : newline = [] ∨ newline = [ch '\n']) :
    strtokNewline (line ++ newline) = some line := by
  have hzeros : cString (line ++ newline) = line ++ newline := by
    rw [cString, List.takeWhile_append_of_pos fun c hc => decide_eq_true (hline c hc).2]
    obtain rfl | rfl := hnewline <;> rfl
  have htoken : (line ++ newline).takeWhile (· ≠ ch '\n') = line := by
    rw [List.takeWhile_append_of_pos fun c hc => decide_eq_true (hline c hc).1]
    obtain rfl | rfl := hnewline <;> simp
  obtain ⟨c, t, rfl⟩ := List.exists_cons_of_ne_nil hne
  have hc : c ≠ ch '\n' := (hline c List.mem_cons_self).1
  simp only [strtokNewline, hzeros]
  rw [List.cons_append, List.takeWhile_cons_of_neg (by simpa using hc),
    List.dropWhile_cons_of_neg (by simpa using hc), ← List.cons_append, htoken, if_neg hne,
    List.nil_append]

/-- `fgets` reads a line that fits in the array, and `strtok` cuts it to the line itself. -/
theorem fgets_line (after : Option (List (BitVec 8))) {n : ℕ} {line : List (BitVec 8)}
    (hne : line ≠ []) (hline : ∀ c ∈ line, c ≠ ch '\n' ∧ c ≠ 0) (hlength : line.length + 2 ≤ n) :
    ∃ s, fgets n (File.open (line ++ endText after)) = (some s, afterLine after) ∧
      strtokNewline s = some line := by
  have htake : ((line ++ endText after).take (n - 1)).takeWhile (· ≠ ch '\n') = line := by
    rw [List.take_append, List.take_of_length_le (by omega),
      List.takeWhile_append_of_pos fun c hc => decide_eq_true (hline c hc).1]
    rcases after with _ | rest
    · simp [endText]
    · obtain ⟨k, hk⟩ := Nat.exists_eq_add_of_le' (show 1 ≤ n - 1 - line.length by omega)
      simp [endText, hk]
  have hroom : line.length ≠ n - 1 := by omega
  rw [fgets]
  simp only [File.open, htake, if_neg hroom, List.drop_left]
  rcases after with _ | rest
  · refine ⟨line, ?_, by simpa using strtokNewline_line hne hline (.inl rfl)⟩
    simp [endText, hne, afterLine, File.open]
  · exact ⟨line ++ [ch '\n'], rfl, strtokNewline_line hne hline (.inr rfl)⟩

/-! ### How much is left -/

/-- How much of a stream is left to read, the end of the file counting as one. -/
def File.left (f : File) : ℕ := 2 * f.rest.length + if f.ended then 0 else 1

theorem left_with_rest (f : File) (rest : List (BitVec 8)) :
    ({ f with rest := rest } : File).left = 2 * rest.length + if f.ended then 0 else 1 := rfl

theorem left_atEnd (f : File) : f.atEnd.left = 2 * f.rest.length := by
  rw [File.left, atEnd_ended, atEnd_rest, if_pos rfl, Nat.add_zero]

theorem left_fgetc_le (f : File) : (fgetc f).2.left ≤ f.left := by
  rcases h : f.rest with _ | ⟨b, rest⟩
  · rw [fgetc_nil h, left_atEnd, File.left]
    exact Nat.le_add_right _ _
  · rw [fgetc_cons h, left_with_rest, File.left, h, List.length_cons]
    omega

/-- Reading from a stream that has not ended leaves less to read. -/
theorem left_fgetc_lt (h : f.ended = false) : (fgetc f).2.left < f.left := by
  rcases hrest : f.rest with _ | ⟨b, rest⟩
  · rw [fgetc_nil hrest, left_atEnd, File.left, h]
    exact Nat.lt_succ_self _
  · rw [fgetc_cons hrest, left_with_rest, File.left, hrest, List.length_cons]
    omega

end MemoryHierarchy.Lib
