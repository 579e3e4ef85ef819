import Mathlib.Data.Nat.Digits.Lemmas
import Mathlib.Data.List.Basic
import Mathlib.Data.List.TakeWhile

/-!
# Characters and numerals of C

Characters are bytes; a function of `ctype.h` takes the value of a character as an `int`, so the
reader of a stream passes it a number between `0` and `255` or `-1`, and the reader of an array of
(signed) `char` a number between `-128` and `127`. The numerals are those of `strtoull`, of
`fscanf` and of `printf`: digits are read most significant first, and a hexadecimal numeral printed
by `printf` is read back as the number it was printed from (`numeral_printHex`).
-/

namespace MemoryHierarchy.Lib

/-- The byte of an ASCII character. -/
abbrev ch (c : Char) : BitVec 8 := BitVec.ofNat 8 c.toNat

/-- `isspace` in the C locale: the space, and tab, newline, vertical tab, form feed and carriage
return. -/
def isspace (c : ℤ) : Bool := c == 32 || (9 ≤ c && c ≤ 13)

/-- `isxdigit`. -/
def isxdigit (c : ℤ) : Bool :=
  (48 ≤ c && c ≤ 57) || (65 ≤ c && c ≤ 70) || (97 ≤ c && c ≤ 102)

/-- White space, as a set of characters. -/
abbrev IsSpace (b : BitVec 8) : Prop := isspace b.toNat = true

/-- White space that does not end a line. -/
abbrev IsBlank (b : BitVec 8) : Prop := isspace b.toNat = true ∧ b ≠ ch '\n'

/-- The hexadecimal digits. -/
abbrev IsHex (b : BitVec 8) : Prop := isxdigit b.toNat = true

/-- The decimal digits. -/
abbrev IsDec (b : BitVec 8) : Prop := 48 ≤ b.toNat ∧ b.toNat ≤ 57

/-- A hexadecimal digit is below 128, so its sign does not matter. -/
theorem isxdigit_toInt (b : BitVec 8) : isxdigit b.toInt = isxdigit b.toNat := by
  rcases Nat.lt_or_ge b.toNat 128 with hb | hb
  · rw [BitVec.toInt_eq_toNat_of_lt (by omega)]
  · have hneg : b.toInt = b.toNat - 256 := by
      rw [BitVec.toInt_eq_toNat_cond, if_neg (by omega)]
      rfl
    have hlt := b.isLt
    rw [isxdigit, isxdigit, hneg, Bool.eq_iff_iff]
    simp only [Bool.or_eq_true, Bool.and_eq_true, decide_eq_true_eq]
    omega

theorem IsHex.not_space {b : BitVec 8} (h : IsHex b) : ¬ IsSpace b := by
  simp only [IsHex, IsSpace, isxdigit, isspace, Bool.or_eq_true, Bool.and_eq_true,
    decide_eq_true_eq, beq_iff_eq] at h ⊢
  omega

theorem IsDec.isHex {b : BitVec 8} (h : IsDec b) : IsHex b := by
  simp only [IsDec, IsHex, isxdigit, Bool.or_eq_true, Bool.and_eq_true, decide_eq_true_eq] at h ⊢
  omega

/-! ### Numerals -/

/-- The value of a digit. -/
def digitValue (b : BitVec 8) : ℕ :=
  if b.toNat ≤ 57 then b.toNat - 48 else if b.toNat ≤ 70 then b.toNat - 55 else b.toNat - 87

/-- The value of a string of digits, most significant first. -/
def numeral (base : ℕ) (digits : List (BitVec 8)) : ℕ :=
  digits.foldl (fun n b => n * base + digitValue b) 0

theorem numeral_concat (base : ℕ) (digits : List (BitVec 8)) (b : BitVec 8) :
    numeral base (digits ++ [b]) = numeral base digits * base + digitValue b := by
  rw [numeral, List.foldl_append]
  rfl

theorem digitValue_lt {b : BitVec 8} (h : IsHex b) : digitValue b < 16 := by
  simp only [IsHex, isxdigit, Bool.or_eq_true, Bool.and_eq_true, decide_eq_true_eq] at h
  rw [digitValue]
  split_ifs <;> omega

/-- As many hexadecimal digits, as large a number. -/
theorem numeral_lt {digits : List (BitVec 8)} (h : ∀ b ∈ digits, IsHex b) :
    numeral 16 digits < 16 ^ digits.length := by
  induction digits using List.reverseRecOn with
  | nil => exact Nat.one_pos
  | append_singleton digits b ih =>
    have hb := digitValue_lt (h b (by simp))
    have hdigits := ih fun c hc => h c (by simp [hc])
    rw [numeral_concat, List.length_append, List.length_singleton, pow_succ]
    omega

/-- What `strtoull` returns for an optionally negated numeral. -/
def unsigned64 (negative : Bool) (value : ℕ) : ℕ :=
  if 2 ^ 64 ≤ value then 2 ^ 64 - 1 else if negative then (2 ^ 64 - value) % 2 ^ 64 else value

/-- The optional sign of a numeral: whether it is a minus, its length, and what follows. -/
def splitSign : List (BitVec 8) → Bool × ℕ × List (BitVec 8)
  | [] => (false, 0, [])
  | b :: s =>
    if b = ch '-' then (true, 1, s) else if b = ch '+' then (false, 1, s) else (false, 0, b :: s)

/-- The prefix `0x` or `0X`. -/
def hasHexPrefix (s : List (BitVec 8)) : Bool :=
  s.head? == some (ch '0') && (s[1]? == some (ch 'x') || s[1]? == some (ch 'X'))

/-- `strtoull(s, &end, 16)`: the number, and `end - s`. Where no digit is found the number is `0`
and `end` is `s`. -/
def strtoull16 (s : List (BitVec 8)) : ℕ × ℕ :=
  let spaces := (s.takeWhile fun b => isspace b.toNat).length
  let (negative, sign, t) := splitSign (s.drop spaces)
  -- a prefix that no digit follows is the numeral zero and then an `x`
  let hex := hasHexPrefix t && (t[2]?.any fun b => isxdigit b.toNat)
  let digits := (if hex then t.drop 2 else t).takeWhile fun b => isxdigit b.toNat
  if digits = [] then (0, 0)
  else (unsigned64 negative (numeral 16 digits),
    spaces + sign + (if hex then 2 else 0) + digits.length)

private theorem takeWhile_space {padding : ℕ} {b : BitVec 8} (hb : ¬ IsSpace b)
    (s : List (BitVec 8)) :
    (List.replicate padding (ch ' ') ++ b :: s).takeWhile (fun b => isspace b.toNat) =
      List.replicate padding (ch ' ') := by
  have hblank : ∀ c ∈ List.replicate padding (ch ' '), isspace c.toNat = true := by
    intro c hc
    rw [List.eq_of_mem_replicate hc]
    decide
  rw [List.takeWhile_append_of_pos hblank,
    List.takeWhile_cons_of_neg (p := fun b : BitVec 8 => isspace b.toNat) hb, List.append_nil]

/-- A character behind a hexadecimal digit, if it is a digit or white space, makes no prefix. -/
private theorem not_hasHexPrefix {d : BitVec 8} {s : List (BitVec 8)}
    (hs : ∀ b ∈ s, IsHex b ∨ IsSpace b) : hasHexPrefix (d :: s) = false := by
  rcases s with _ | ⟨b, s⟩
  · simp [hasHexPrefix]
  · have hx : ∀ c : BitVec 8, (c = ch 'x' ∨ c = ch 'X') → ¬ (IsHex c ∨ IsSpace c) := by
      rintro c (rfl | rfl) <;> decide
    have hb := hs b List.mem_cons_self
    have hlower : b ≠ ch 'x' := fun h => hx b (.inl h) hb
    have hupper : b ≠ ch 'X' := fun h => hx b (.inr h) hb
    simp [hasHexPrefix, hlower, hupper]

/-- **Parsing** a string of hexadecimal digits between blanks: where there are none, `strtoull`
does not move. -/
theorem strtoull16_digits {padding : ℕ} {digits after : List (BitVec 8)}
    (hdigits : ∀ d ∈ digits, IsHex d) (hlength : digits.length ≤ 16)
    (hafter : ∀ b ∈ after, IsSpace b) :
    strtoull16 (List.replicate padding (ch ' ') ++ digits ++ after) =
      if digits = [] then (0, 0) else (numeral 16 digits, padding + digits.length) := by
  rcases digits with _ | ⟨d, digits⟩
  · have hall : ∀ b ∈ List.replicate padding (ch ' ') ++ after, isspace b.toNat = true := by
      intro b hb
      rcases List.mem_append.mp hb with hb | hb
      · rw [List.eq_of_mem_replicate hb]
        decide
      · exact hafter b hb
    rw [List.append_nil, strtoull16, List.takeWhile_eq_self_iff.mpr hall, List.drop_length]
    rfl
  · have hd := hdigits d List.mem_cons_self
    have hminus : d ≠ ch '-' := by
      rintro rfl
      exact absurd hd (by decide)
    have hplus : d ≠ ch '+' := by
      rintro rfl
      exact absurd hd (by decide)
    have hnoHex : hasHexPrefix (d :: (digits ++ after)) = false :=
      not_hasHexPrefix fun b hb => (List.mem_append.mp hb).imp
        (fun h => hdigits b (List.mem_cons_of_mem d h)) (hafter b)
    have htake : (d :: (digits ++ after)).takeWhile (fun b => isxdigit b.toNat) = d :: digits := by
      rw [← List.cons_append, List.takeWhile_append_of_pos hdigits]
      rcases after with _ | ⟨b, after⟩
      · rw [List.takeWhile_nil, List.append_nil]
      · have hb : ¬ isxdigit b.toNat = true := fun h =>
          IsHex.not_space h (hafter b List.mem_cons_self)
        rw [List.takeWhile_cons_of_neg (p := fun b : BitVec 8 => isxdigit b.toNat) hb,
          List.append_nil]
    have hlt : numeral 16 (d :: digits) < 2 ^ 64 := (numeral_lt hdigits).trans_le
      ((Nat.pow_le_pow_right (by decide) hlength).trans (by decide))
    rw [List.append_assoc, List.cons_append, strtoull16, takeWhile_space hd.not_space,
      List.length_replicate, List.drop_left' List.length_replicate, splitSign, if_neg hminus,
      if_neg hplus]
    simp only [hnoHex, Bool.false_and, Bool.false_eq_true, if_false, htake, List.cons_ne_nil,
      unsigned64, Nat.not_le_of_gt hlt, Nat.add_zero]

/-! ### Numerals as they may be written -/

/-- A decimal numeral of the number `n`. -/
def IsDecNumeral (s : List (BitVec 8)) (n : ℕ) : Prop :=
  s ≠ [] ∧ (∀ d ∈ s, IsDec d) ∧ numeral 10 s = n

/-- The prefixes a hexadecimal numeral may have. -/
def IsHexPrefix (s : List (BitVec 8)) : Prop :=
  s = [] ∨ s = [ch '0', ch 'x'] ∨ s = [ch '0', ch 'X']

/-- A hexadecimal numeral of the number `n`, with or without its prefix. -/
def IsHexNumeral (s : List (BitVec 8)) (n : ℕ) : Prop :=
  ∃ lead digits, IsHexPrefix lead ∧ digits ≠ [] ∧ (∀ d ∈ digits, IsHex d) ∧ s = lead ++ digits ∧
    numeral 16 digits = n

theorem IsHexNumeral.ne_nil {s : List (BitVec 8)} {n : ℕ} (h : IsHexNumeral s n) : s ≠ [] := by
  obtain ⟨lead, digits, -, hne, -, rfl, -⟩ := h
  exact List.append_ne_nil_of_right_ne_nil lead hne

/-- The characters of a hexadecimal numeral. -/
theorem IsHexNumeral.isHex_or_x {s : List (BitVec 8)} {n : ℕ} (h : IsHexNumeral s n)
    {c : BitVec 8} (hc : c ∈ s) : IsHex c ∨ c = ch 'x' ∨ c = ch 'X' := by
  obtain ⟨lead, digits, hlead, -, hdigits, rfl, -⟩ := h
  rcases List.mem_append.mp hc with hc | hc
  · obtain rfl | rfl | rfl := hlead
    · cases hc
    · simp only [List.mem_cons, List.not_mem_nil, or_false] at hc
      obtain rfl | rfl := hc <;> decide
    · simp only [List.mem_cons, List.not_mem_nil, or_false] at hc
      obtain rfl | rfl := hc <;> decide
  · exact .inl (hdigits c hc)

/-- A numeral that starts with a digit has no sign. -/
theorem splitSign_of_isHex {d : BitVec 8} (hd : IsHex d) (s : List (BitVec 8)) :
    splitSign (d :: s) = (false, 0, d :: s) := by
  have hminus : d ≠ ch '-' := by
    rintro rfl
    exact absurd hd (by decide)
  have hplus : d ≠ ch '+' := by
    rintro rfl
    exact absurd hd (by decide)
  rw [splitSign, if_neg hminus, if_neg hplus]

/-- Digits, and what is not an `x`, have no prefix. -/
theorem hasHexPrefix_digits {digits s : List (BitVec 8)} (hdigits : ∀ d ∈ digits, IsHex d)
    (hne : digits ≠ []) (hs : ∀ b, s.head? = some b → b ≠ ch 'x' ∧ b ≠ ch 'X') :
    hasHexPrefix (digits ++ s) = false := by
  obtain ⟨d, digits, rfl⟩ := List.exists_cons_of_ne_nil hne
  have hsecond : ∀ b, (digits ++ s).head? = some b → b ≠ ch 'x' ∧ b ≠ ch 'X' := by
    rcases digits with _ | ⟨e, digits⟩
    · exact hs
    · intro b hb
      obtain rfl : e = b := Option.some.inj hb
      have he : IsHex e := hdigits e (by simp)
      constructor
      · rintro rfl
        exact absurd he (by decide)
      · rintro rfl
        exact absurd he (by decide)
  rcases hrest : digits ++ s with _ | ⟨b, t⟩
  · simp [hasHexPrefix, hrest]
  · have hb := hsecond b (by rw [hrest]; rfl)
    simp [hasHexPrefix, hrest, hb]

/-- The digits after an optional prefix. -/
theorem drop_hexPrefix {lead digits s : List (BitVec 8)} (hlead : IsHexPrefix lead)
    (hdigits : ∀ d ∈ digits, IsHex d) (hne : digits ≠ [])
    (hs : ∀ b, s.head? = some b → b ≠ ch 'x' ∧ b ≠ ch 'X') :
    (if hasHexPrefix (lead ++ digits ++ s) then (lead ++ digits ++ s).drop 2
      else lead ++ digits ++ s) = digits ++ s := by
  obtain rfl | rfl | rfl := hlead
  · rw [List.nil_append, hasHexPrefix_digits hdigits hne hs]
    rfl
  · rfl
  · rfl

/-- A numeral starts with a digit, also where it has a prefix. -/
theorem exists_isHex_cons {lead digits : List (BitVec 8)} (hlead : IsHexPrefix lead)
    (hdigits : ∀ d ∈ digits, IsHex d) (hne : digits ≠ []) :
    ∃ c t, IsHex c ∧ lead ++ digits = c :: t := by
  obtain rfl | rfl | rfl := hlead
  · obtain ⟨d, ds, rfl⟩ := List.exists_cons_of_ne_nil hne
    exact ⟨d, ds, hdigits d List.mem_cons_self, rfl⟩
  · exact ⟨ch '0', ch 'x' :: digits, by decide, rfl⟩
  · exact ⟨ch '0', ch 'X' :: digits, by decide, rfl⟩

/-- `strtoull` reads a numeral that fits to its end. -/
theorem strtoull16_of_isHexNumeral {s : List (BitVec 8)} {n : ℕ} (h : IsHexNumeral s n)
    (hn : n < 2 ^ 64) : strtoull16 s = (n, s.length) := by
  obtain ⟨lead, digits, hlead, hne, hdigits, rfl, rfl⟩ := h
  obtain ⟨c, t, hc, hct⟩ := exists_isHex_cons hlead hdigits hne
  have hspaces : (lead ++ digits).takeWhile (fun b => isspace b.toNat) = [] := by
    rw [hct, List.takeWhile_cons_of_neg (p := fun b : BitVec 8 => isspace b.toNat) hc.not_space]
  have hsign : splitSign (lead ++ digits) = (false, 0, lead ++ digits) := by
    rw [hct, splitSign_of_isHex hc]
  -- the digits that are found
  have hhex : (hasHexPrefix (lead ++ digits) &&
      ((lead ++ digits)[2]?.any fun b => isxdigit b.toNat)) = decide (lead ≠ []) := by
    obtain ⟨d, ds, rfl⟩ := List.exists_cons_of_ne_nil hne
    have hd : isxdigit d.toNat = true := hdigits d List.mem_cons_self
    obtain rfl | rfl | rfl := hlead
    · rw [List.nil_append, ← List.append_nil (d :: ds),
        hasHexPrefix_digits hdigits (List.cons_ne_nil _ _) fun b hb => by cases hb]
      rfl
    · simp [hasHexPrefix, hd]
    · simp [hasHexPrefix, hd]
  have hdrop : (if lead ≠ [] then (lead ++ digits).drop 2 else lead ++ digits) = digits := by
    obtain rfl | rfl | rfl := hlead <;> rfl
  have hlength : (if lead ≠ [] then 2 else 0) = lead.length := by
    obtain rfl | rfl | rfl := hlead <;> rfl
  simp only [strtoull16, hspaces, List.length_nil, List.drop_zero, hsign, hhex, decide_eq_true_eq,
    hdrop, List.takeWhile_eq_self_iff.mpr hdigits, if_neg hne, unsigned64,
    if_neg (Nat.not_le_of_gt hn), Bool.false_eq_true, if_false, hlength, List.length_append,
    Nat.zero_add]

/-! ### `printf` -/

/-- The upper-case hexadecimal digit of a number below 16. -/
def hexDigit (n : ℕ) : BitVec 8 := BitVec.ofNat 8 (if n < 10 then 48 + n else 55 + n)

/-- `"%0<width>X"`: upper-case hexadecimal, padded with zeros to at least `width` digits. -/
def printHex (width n : ℕ) : List (BitVec 8) :=
  List.leftpad width (ch '0') ((Nat.digits 16 n).reverse.map hexDigit)

/-- `"%u"`: decimal, of at least one digit. -/
def printDec (n : ℕ) : List (BitVec 8) :=
  List.leftpad 1 (ch '0') ((Nat.digits 10 n).reverse.map hexDigit)

theorem isHex_hexDigit {n : ℕ} (h : n < 16) : IsHex (hexDigit n) := by
  interval_cases n <;> decide

theorem digitValue_hexDigit {n : ℕ} (h : n < 16) : digitValue (hexDigit n) = n := by
  interval_cases n <;> decide

theorem isHex_of_mem_printHex {width n : ℕ} {b : BitVec 8} (hb : b ∈ printHex width n) :
    IsHex b := by
  rw [printHex, List.leftpad, List.mem_append, List.mem_replicate, List.mem_map] at hb
  rcases hb with ⟨-, rfl⟩ | ⟨d, hd, rfl⟩
  · decide
  · exact isHex_hexDigit (Nat.digits_lt_base (by decide) (List.mem_reverse.mp hd))

theorem le_length_printHex (width n : ℕ) : width ≤ (printHex width n).length := by
  rw [printHex, List.length_leftpad]
  exact le_max_left _ _

/-- Enough width for the number is exactly the width. -/
theorem length_printHex_le {width n k : ℕ} (hw : width ≤ k) (hn : n < 16 ^ k) :
    (printHex width n).length ≤ k := by
  rw [printHex, List.length_leftpad, List.length_map, List.length_reverse]
  exact max_le hw ((Nat.digits_length_le_iff (by decide) n).mpr hn)

/-- Digits printed in some base, padded with zeros, have the value they were printed from. -/
theorem numeral_leftpad_digits {base : ℕ} (hbase : 1 < base) (hle : base ≤ 16) (width n : ℕ) :
    numeral base (List.leftpad width (ch '0') ((Nat.digits base n).reverse.map hexDigit)) = n := by
  have hzeros : ∀ k,
      (List.replicate k (ch '0')).foldl (fun n b => n * base + digitValue b) 0 = 0 := by
    intro k
    induction k with
    | zero => rfl
    | succ k ih =>
      rw [List.replicate_succ, List.foldl_cons, Nat.zero_mul]
      exact ih
  have hdigits : ∀ ds : List ℕ, (∀ d ∈ ds, d < base) →
      numeral base (ds.reverse.map hexDigit) = Nat.ofDigits base ds := by
    intro ds hds
    induction ds with
    | nil => rfl
    | cons d ds ih =>
      rw [List.reverse_cons, List.map_append, List.map_singleton, numeral_concat,
        ih fun e he => hds e (List.mem_cons_of_mem d he),
        digitValue_hexDigit ((hds d List.mem_cons_self).trans_le hle), Nat.ofDigits_cons]
      exact (Nat.add_comm _ _).trans (congrArg (d + ·) (Nat.mul_comm _ _))
  rw [List.leftpad, numeral, List.foldl_append, hzeros]
  rw [← numeral, hdigits _ fun d hd => Nat.digits_lt_base hbase hd, Nat.ofDigits_digits]

/-- **Read back.** A printed numeral has the value it was printed from. -/
theorem numeral_printHex (width n : ℕ) : numeral 16 (printHex width n) = n :=
  numeral_leftpad_digits (by decide) le_rfl width n

theorem numeral_printDec (n : ℕ) : numeral 10 (printDec n) = n :=
  numeral_leftpad_digits (by decide) (by decide) 1 n

theorem isHex_of_mem_printDec {n : ℕ} {b : BitVec 8} (hb : b ∈ printDec n) : IsHex b := by
  rw [printDec, List.leftpad, List.mem_append, List.mem_replicate, List.mem_map] at hb
  obtain ⟨-, rfl⟩ | ⟨d, hd, rfl⟩ := hb
  · decide
  · have hlt : d < 10 := Nat.digits_lt_base (by decide) (List.mem_reverse.mp hd)
    exact isHex_hexDigit (hlt.trans (by decide))

end MemoryHierarchy.Lib
