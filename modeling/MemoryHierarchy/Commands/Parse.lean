import MemoryHierarchy.Commands.Commands
import MemoryHierarchy.Lib.Traced
import MemoryHierarchy.Text.Token

/-!
# Parsing a command

`readCommand` of `commands.c` and the functions it calls. They log the indices at which they access
their token buffers, which are declared with `MAX_SIZE_BUFFER` characters; an access beyond that is
modelled as if there were room for it. The functions get the command they fill in as an argument
and return it.

Each function has one lemma about its success, in terms of the next token of the stream: a command
is parsed from its tokens and nothing else (`yields_readCommand`).
-/

namespace MemoryHierarchy

open Lib Lib.Traced

/-- `MAX_SIZE_BUFFER`. -/
abbrev maxSizeBuffer : ℕ := 20

/-- A parsing function: it reads from a stream and logs its accesses to a token buffer. -/
abbrev Parser (α : Type) := Traced File ErrorCode α

/-- `readUntilNextWhiteSpace`; its result is the first `nbOfBytes` characters of the buffer. -/
def readUntilNextWhiteSpace : Parser (List Byte) := fun input =>
  let read := readToken maxSizeBuffer input
  { result := if read.err = .errNone then .ok read.buffer else .error read.err
    state := read.input
    accesses := read.stored }

/-- `isHexString`. A character is not looked at once one was found that is no digit. -/
def isHexString (string : List Byte) (start length : ℕ) : Parser Bool :=
  testAll (fun i => isxdigit (string.getD i 0).toInt) (List.range' start (length - start)) true

/-- `MAX_TYPE_SIZE`. -/
abbrev maxTypeSize : ℕ := 2

/-- `handleTypeSize`. -/
def handleTypeSize (command : Command) : Parser Command := do
  let buffer ← readUntilNextWhiteSpace
  let s := buffer.length
  require (s ≤ maxTypeSize ∧ s > 0) .errBadParameter
  touch s
  -- `buffer[s]` is the terminator, unless the buffer holds one before
  let string := cString buffer
  if string = [ch 'I'] then
    touch s
    return { command with type := some .instruction, dataSize := 4 }
  else if string = [ch 'D', ch 'B'] then
    touch s
    return { command with type := some .data, dataSize := 1 }
  else if string = [ch 'D', ch 'W'] then
    touch s
    return { command with type := some .data, dataSize := 4 }
  else fail .errIo

/-- `VIRT_ADDR_MIN_LENGTH`. -/
abbrev virtAddrMinLength : ℕ := 4

/-- `VIRT_ADDR_MAX_LENGTH`. -/
abbrev virtAddrMaxLength : ℕ := 20

/-- `VIRT_ADDR_PADDING`. -/
abbrev virtAddrPadding : ℕ := 3

/-- A check that `buffer[i]` is the given character. -/
def requireChar (buffer : List Byte) (i : ℕ) (c : Byte) : Parser Unit := do
  touch i
  require (buffer[i]? = some c) .errBadParameter

/-- The loop that overwrites the first characters of a buffer with blanks. -/
def padWithBlanks (buffer : List Byte) (padding : ℕ) : Parser (List Byte) := do
  touchAll (List.range padding)
  return List.replicate padding (ch ' ') ++ buffer.drop padding

/-- `handle_virt_addr`. -/
def handleVirtAddr (command : Command) : Parser Command := do
  let buffer ← readUntilNextWhiteSpace
  let s := buffer.length
  require (s ≥ virtAddrMinLength ∧ s ≤ virtAddrMaxLength) .errBadParameter
  requireChar buffer 0 (ch '@')
  requireChar buffer 1 (ch '0')
  requireChar buffer 2 (ch 'x')
  requireChar buffer (s - 1) (ch '\n')
  let buffer ← padWithBlanks buffer virtAddrPadding
  touch s
  let isHex ← isHexString buffer 3 (s - 1)
  require (isHex = true) .errBadParameter
  let (virt, afterNumber) := strtoull16 (cString buffer)
  require (afterNumber ≠ 2) .errBadParameter
  match initVirtAddr64 (BitVec.ofNat 64 virt) with
  | .error err => fail err
  | .ok vaddr => return { command with vaddr := vaddr }

/-- `handleRead`. -/
def handleRead (command : Command) : Parser Command := do
  let command ← handleTypeSize { command with order := some .read }
  handleVirtAddr { command with writeData := 0 }

/-- `WRITE_DATA_MIN_LENGTH`. -/
abbrev writeDataMinLength : ℕ := 4

/-- `WRITE_DATA_MAX_LENGTH`. -/
abbrev writeDataMaxLength : ℕ := 11

/-- `WRITE_DATA_PADDING`. -/
abbrev writeDataPadding : ℕ := 2

/-- The part of `handleWrite` under the heading `WRITE_DATA`. -/
def handleWriteData (command : Command) : Parser Command := do
  let buffer ← readUntilNextWhiteSpace
  let s := buffer.length
  require (s ≥ writeDataMinLength ∧ s ≤ writeDataMaxLength) .errBadParameter
  requireChar buffer 0 (ch '0')
  requireChar buffer 1 (ch 'x')
  let buffer ← padWithBlanks buffer writeDataPadding
  touch s
  let isHex ← isHexString buffer 2 s
  require (isHex = true) .errBadParameter
  let (data, afterNumber) := strtoull16 (cString buffer)
  require (afterNumber ≠ 1) .errBadParameter
  return { command with writeData := BitVec.ofNat 32 data }

/-- `handleWrite`. -/
def handleWrite (command : Command) : Parser Command := do
  let command ← handleTypeSize { command with order := some .write }
  let command ← handleWriteData command
  handleVirtAddr command

/-- `readCommand`: the command, and whether it is valid. -/
def readCommand (command : Command) : Parser (Command × Bool) := do
  let buffer ← readUntilNextWhiteSpace
  require (buffer.length = 1) .errIo
  touch 0
  if buffer[0]? = some (ch 'R') then
    let command ← handleRead command
    return (command, true)
  else if buffer[0]? = some (ch 'W') then
    let command ← handleWrite command
    return (command, true)
  else if buffer[0]? = some eofChar then return (command, false)
  else fail .errIo

/-! ### What the parser accepts -/

variable {f f' : File} {command command' : Command} {buffer w : List Byte}

theorem yields_readUntilNextWhiteSpace : Yields readUntilNextWhiteSpace f w f' ↔
    w = nextToken f ∧ f' = afterToken f ∧ w.length ≤ maxSizeBuffer := by
  rcases Nat.lt_or_ge maxSizeBuffer (nextToken f).length with hlong | hfits
  · have herr := (readToken_err hlong).1
    constructor
    · intro h
      have hresult := h.1
      simp [readUntilNextWhiteSpace, herr] at hresult
    · rintro ⟨rfl, -, hfits⟩
      exact absurd hfits (Nat.not_le_of_gt hlong)
  · simp only [Yields, readUntilNextWhiteSpace, readToken_eq hfits, if_true, Except.ok.injEq]
    constructor
    · rintro ⟨rfl, rfl⟩
      exact ⟨rfl, rfl, hfits⟩
    · rintro ⟨rfl, rfl, -⟩
      exact ⟨rfl, rfl⟩

theorem yields_isHexString {start length : ℕ} {isHex : Bool} :
    Yields (isHexString buffer start length) f isHex f' ↔ f' = f ∧
      isHex = (List.range' start (length - start)).all fun i =>
        isxdigit (buffer.getD i 0).toInt := by
  rw [isHexString, yields_testAll, Bool.true_and]

theorem yields_padWithBlanks {padding : ℕ} : Yields (padWithBlanks buffer padding) f w f' ↔
    f' = f ∧ w = List.replicate padding (ch ' ') ++ buffer.drop padding := by
  simp [padWithBlanks, and_comm]

theorem yields_requireChar {i : ℕ} {c : Byte} {v : Unit} :
    Yields (requireChar buffer i c) f v f' ↔ buffer[i]? = some c ∧ f' = f := by
  simp [requireChar]

/-! #### Types -/

/-- The words for a type, with the type and the size of the data. A word of one letter is also
recognised with a null character behind it. -/
def typeWords : List (List Byte × MemAccess × BitVec 64) :=
  [([ch 'I'], .instruction, 4), ([ch 'I', 0], .instruction, 4), ([ch 'D', ch 'B'], .data, 1),
    ([ch 'D', ch 'W'], .data, 4)]

private theorem mem_typeWords {type : MemAccess} {size : BitVec 64} :
    (w, type, size) ∈ typeWords ↔ (w.length ≤ maxTypeSize ∧ w.length > 0) ∧
      ((cString w = [ch 'I'] ∧ type = .instruction ∧ size = 4) ∨
        (cString w = [ch 'D', ch 'B'] ∧ type = .data ∧ size = 1) ∨
        (cString w = [ch 'D', ch 'W'] ∧ type = .data ∧ size = 4)) := by
  have hI : cString w = [ch 'I'] ↔ ∃ s, w = ch 'I' :: s ∧ (s = [] ∨ ∃ s', s = 0 :: s') := by
    rw [cString_eq_cons (by decide)]
    exact exists_congr fun s => and_congr_right fun _ => cString_eq_nil
  have hD : ∀ b : Byte, b ≠ 0 → (cString w = [ch 'D', b] ↔
      ∃ s, w = ch 'D' :: b :: s ∧ (s = [] ∨ ∃ s', s = 0 :: s')) := by
    intro b hb
    simp only [cString_eq_cons (show ch 'D' ≠ 0 by decide), cString_eq_cons hb, cString_eq_nil]
    grind
  rw [hI, hD _ (by decide), hD _ (by decide), typeWords]
  simp only [List.mem_cons, List.not_mem_nil, or_false, Prod.mk.injEq]
  constructor
  · rintro (⟨rfl, rfl, rfl⟩ | ⟨rfl, rfl, rfl⟩ | ⟨rfl, rfl, rfl⟩ | ⟨rfl, rfl, rfl⟩) <;> simp
  · rintro ⟨⟨hlength, -⟩, h⟩
    rcases h with ⟨⟨s, rfl, hs⟩, rfl, rfl⟩ | ⟨⟨s, rfl, hs⟩, rfl, rfl⟩ | ⟨⟨s, rfl, hs⟩, rfl, rfl⟩
    · rcases hs with rfl | ⟨s', rfl⟩
      · simp
      · have hnil : s' = [] := List.eq_nil_of_length_eq_zero (by simpa using hlength)
        simp [hnil]
    · have hnil : s = [] := List.eq_nil_of_length_eq_zero (by simpa using hlength)
      simp [hnil]
    · have hnil : s = [] := List.eq_nil_of_length_eq_zero (by simpa using hlength)
      simp [hnil]

/-- The last step of `handleTypeSize`, in each of the cases that succeed. -/
private theorem yields_typed {s : ℕ} {type : MemAccess} {size : BitVec 64} :
    Yields (do
      touch s
      return { command with type := some type, dataSize := size } : Parser Command) f command' f' ↔
    command' = { command with type := some type, dataSize := size } ∧ f' = f := by
  simp

theorem yields_handleTypeSize : Yields (handleTypeSize command) f command' f' ↔
    f' = afterToken f ∧ ∃ type size, (nextToken f, type, size) ∈ typeWords ∧
      command' = { command with type := some type, dataSize := size } := by
  simp only [handleTypeSize, yields_bind, yields_readUntilNextWhiteSpace, yields_require,
    yields_touch, mem_typeWords, exists_const, exists_eq_left, exists_and_left, and_assoc]
  constructor
  · rintro ⟨-, hle, hpos, h⟩
    split_ifs at h with hI hB hW
    · obtain ⟨rfl, rfl⟩ := yields_typed.mp h
      exact ⟨rfl, hle, hpos, _, _, .inl ⟨hI, rfl, rfl⟩, rfl⟩
    · obtain ⟨rfl, rfl⟩ := yields_typed.mp h
      exact ⟨rfl, hle, hpos, _, _, .inr (.inl ⟨hB, rfl, rfl⟩), rfl⟩
    · obtain ⟨rfl, rfl⟩ := yields_typed.mp h
      exact ⟨rfl, hle, hpos, _, _, .inr (.inr ⟨hW, rfl, rfl⟩), rfl⟩
    · exact absurd h yields_fail
  · rintro ⟨rfl, hle, hpos, type, size, hword, rfl⟩
    refine ⟨hle.trans (by decide), hle, hpos, ?_⟩
    rcases hword with ⟨hI, rfl, rfl⟩ | ⟨hB, rfl, rfl⟩ | ⟨hW, rfl, rfl⟩
    · rw [if_pos hI]
      exact yields_typed.mpr ⟨rfl, rfl⟩
    · rw [if_neg (by rw [hB]; decide), if_pos hB]
      exact yields_typed.mpr ⟨rfl, rfl⟩
    · rw [if_neg (by rw [hW]; decide), if_neg (by rw [hW]; decide), if_pos hW]
      exact yields_typed.mpr ⟨rfl, rfl⟩

/-! #### Numbers -/

variable {digits : List Byte}

/-- The scan of `isHexString` over the digits of a padded buffer. -/
private theorem scan_eq_true (padding : ℕ) (after : List Byte) :
    ((List.range' padding digits.length).all fun i =>
      isxdigit ((List.replicate padding (ch ' ') ++ digits ++ after).getD i 0).toInt) = true ↔
        ∀ d ∈ digits, IsHex d := by
  have hget : ∀ i (hi : i < digits.length),
      (List.replicate padding (ch ' ') ++ digits ++ after).getD (padding + i) 0 = digits[i] := by
    intro i hi
    rw [List.append_assoc, List.getD_append_right _ _ _ _ (by simp), List.length_replicate,
      Nat.add_sub_cancel_left, List.getD_append _ _ _ _ hi, List.getD_eq_getElem _ _ hi]
  rw [List.all_eq_true, List.forall_mem_iff_getElem (l := digits)]
  constructor
  · intro h i hi
    have hi' := h (padding + i) (List.mem_range'_1.mpr ⟨Nat.le_add_right _ _, by omega⟩)
    rwa [hget i hi, isxdigit_toInt] at hi'
  · intro h k hk
    obtain ⟨hle, hlt⟩ := List.mem_range'_1.mp hk
    obtain ⟨i, rfl⟩ := Nat.exists_eq_add_of_le hle
    have hi : i < digits.length := by omega
    rw [hget i hi, isxdigit_toInt]
    exact h i hi

/-- There is no null character in a padded buffer. -/
private theorem cString_padded {padding : ℕ} {after : List Byte} (hdigits : ∀ d ∈ digits, IsHex d)
    (hafter : ∀ b ∈ after, IsSpace b) :
    cString (List.replicate padding (ch ' ') ++ digits ++ after) =
      List.replicate padding (ch ' ') ++ digits ++ after := by
  rw [cString, List.takeWhile_eq_self_iff]
  intro b hb
  rw [decide_eq_true_eq]
  rintro rfl
  rcases List.mem_append.mp hb with hb | hb
  · rcases List.mem_append.mp hb with hb | hb
    · exact absurd (List.eq_of_mem_replicate hb) (by decide)
    · exact absurd (hdigits 0 hb) (by decide)
  · exact absurd (hafter 0 hb) (by decide)

/-- The tests of `handle_virt_addr` before the digits. -/
theorem virtAddr_shape : ((w.length ≥ virtAddrMinLength ∧ w.length ≤ virtAddrMaxLength) ∧
      w[0]? = some (ch '@') ∧ w[1]? = some (ch '0') ∧ w[2]? = some (ch 'x') ∧
      w[w.length - 1]? = some (ch '\n')) ↔
    ∃ digits, w = [ch '@', ch '0', ch 'x'] ++ digits ++ [ch '\n'] ∧ digits.length ≤ 16 := by
  constructor
  · rintro ⟨⟨hmin, hmax⟩, h0, h1, h2, hlast⟩
    rcases w with _ | ⟨a, _ | ⟨b, _ | ⟨c, w⟩⟩⟩
    · simp at h0
    · simp at h1
    · simp at h2
    · obtain rfl : a = ch '@' := Option.some.inj h0
      obtain rfl : b = ch '0' := Option.some.inj h1
      obtain rfl : c = ch 'x' := Option.some.inj h2
      rcases List.eq_nil_or_concat' w with rfl | ⟨digits, d, rfl⟩
      · exact absurd hmin (by decide)
      · rw [← List.getLast?_eq_getElem?] at hlast
        change ([ch '@', ch '0', ch 'x'] ++ digits ++ [d]).getLast? = _ at hlast
        rw [List.getLast?_concat] at hlast
        obtain rfl : d = ch '\n' := Option.some.inj hlast
        simp only [List.length_cons, List.length_append, List.length_nil, virtAddrMaxLength] at hmax
        exact ⟨digits, rfl, by omega⟩
  · rintro ⟨digits, rfl, hlength⟩
    simp [virtAddrMinLength, virtAddrMaxLength]
    omega

/-- What the parser makes of the padded buffer of an address. -/
private theorem padded_virtAddr (hlength : digits.length ≤ 16) (hdigits : ∀ d ∈ digits, IsHex d) :
    strtoull16 (cString (List.replicate virtAddrPadding (ch ' ') ++ digits ++ [ch '\n'])) =
      if digits = [] then (0, 0) else (numeral 16 digits, virtAddrPadding + digits.length) := by
  have hafter : ∀ b ∈ [ch '\n'], IsSpace b := by decide
  rw [cString_padded hdigits hafter, strtoull16_digits hdigits hlength hafter]

theorem yields_handleVirtAddr : Yields (handleVirtAddr command) f command' f' ↔
    f' = afterToken f ∧ ∃ digits, nextToken f = [ch '@', ch '0', ch 'x'] ++ digits ++ [ch '\n'] ∧
      digits.length ≤ 16 ∧ (∀ d ∈ digits, IsHex d) ∧
      command' = { command with vaddr := virtAddr64 (BitVec.ofNat 64 (numeral 16 digits)) } := by
  have hscan : ∀ digits : List Byte, ([ch '@', ch '0', ch 'x'] ++ digits ++ [ch '\n']).length - 1 -
      3 = digits.length := fun digits => by simp
  have hpad : ∀ digits : List Byte, List.replicate virtAddrPadding (ch ' ') ++
      List.drop virtAddrPadding ([ch '@', ch '0', ch 'x'] ++ digits ++ [ch '\n']) =
        List.replicate virtAddrPadding (ch ' ') ++ digits ++ [ch '\n'] := fun digits => by simp
  have hvalue : ∀ digits : List Byte, digits.length ≤ 16 → (∀ d ∈ digits, IsHex d) →
      (strtoull16
        (cString (List.replicate virtAddrPadding (ch ' ') ++ digits ++ [ch '\n']))).2 ≠ 2 ∧
      (strtoull16
        (cString (List.replicate virtAddrPadding (ch ' ') ++ digits ++ [ch '\n']))).1 =
        numeral 16 digits := by
    intro digits hlength hdigits
    rw [padded_virtAddr hlength hdigits]
    split_ifs with hnil
    · rw [hnil]
      exact ⟨by decide, rfl⟩
    · exact ⟨by simp only [virtAddrPadding]; omega, rfl⟩
  -- the tests that the parser makes, one after the other
  simp only [handleVirtAddr, yields_bind, yields_readUntilNextWhiteSpace, yields_require,
    yields_requireChar, yields_padWithBlanks, yields_touch, yields_isHexString, initVirtAddr64_eq,
    yields_pure, exists_const, exists_eq_left, exists_and_left, and_assoc]
  constructor
  · rintro ⟨-, hmin, hmax, h0, h1, h2, hlast, hhex, -, rfl, rfl⟩
    obtain ⟨digits, hw, hlength⟩ := virtAddr_shape.mp ⟨⟨hmin, hmax⟩, h0, h1, h2, hlast⟩
    rw [hw, hscan, hpad] at hhex
    have hdigits := (scan_eq_true _ _).mp hhex
    refine ⟨rfl, digits, hw, hlength, hdigits, ?_⟩
    rw [hw, hpad, (hvalue digits hlength hdigits).2]
  · rintro ⟨rfl, digits, hw, hlength, hdigits, rfl⟩
    obtain ⟨⟨hmin, hmax⟩, h0, h1, h2, hlast⟩ := virtAddr_shape.mpr ⟨digits, hw, hlength⟩
    have hhex := (scan_eq_true 3 [ch '\n']).mpr hdigits
    rw [← hpad, ← hscan, ← hw] at hhex
    obtain ⟨hafter, hnumeral⟩ := hvalue digits hlength hdigits
    rw [← hpad, ← hw] at hafter hnumeral
    rw [← hnumeral]
    exact ⟨hmax, hmin, hmax, h0, h1, h2, hlast, hhex, hafter, rfl, rfl⟩

/-- The tests of `handleWrite` on its data before the digits. -/
private theorem writeData_shape : ((w.length ≥ writeDataMinLength ∧ w.length ≤ writeDataMaxLength) ∧
      w[0]? = some (ch '0') ∧ w[1]? = some (ch 'x')) ↔
    ∃ digits, w = [ch '0', ch 'x'] ++ digits ∧ 2 ≤ digits.length ∧ digits.length ≤ 9 := by
  constructor
  · rintro ⟨⟨hmin, hmax⟩, h0, h1⟩
    rcases w with _ | ⟨a, _ | ⟨b, digits⟩⟩
    · simp at h0
    · simp at h1
    · simp only [List.length_cons, writeDataMinLength, writeDataMaxLength] at hmin hmax
      simp only [List.getElem?_cons_zero, List.getElem?_cons_succ, Option.some.injEq] at h0 h1
      exact ⟨digits, by rw [h0, h1]; rfl, by omega, by omega⟩
  · rintro ⟨digits, rfl, hmin, hmax⟩
    simp [writeDataMinLength, writeDataMaxLength]
    omega

theorem yields_handleWriteData : Yields (handleWriteData command) f command' f' ↔
    f' = afterToken f ∧ ∃ digits, nextToken f = [ch '0', ch 'x'] ++ digits ∧
      2 ≤ digits.length ∧ digits.length ≤ 9 ∧ (∀ d ∈ digits, IsHex d) ∧
      command' = { command with writeData := BitVec.ofNat 32 (numeral 16 digits) } := by
  have hscan : ∀ digits : List Byte, ([ch '0', ch 'x'] ++ digits).length - 2 = digits.length :=
    fun digits => by simp
  have hpad : ∀ digits : List Byte, List.replicate writeDataPadding (ch ' ') ++
      List.drop writeDataPadding ([ch '0', ch 'x'] ++ digits) =
        List.replicate writeDataPadding (ch ' ') ++ digits ++ [] := fun digits => by simp
  have hvalue : ∀ digits : List Byte, 2 ≤ digits.length → digits.length ≤ 9 →
      (∀ d ∈ digits, IsHex d) →
      strtoull16 (cString (List.replicate writeDataPadding (ch ' ') ++ digits ++ [])) =
        (numeral 16 digits, writeDataPadding + digits.length) := by
    intro digits hmin hmax hdigits
    have hne : digits ≠ [] := List.ne_nil_of_length_pos (by omega)
    have hafter : ∀ b ∈ ([] : List Byte), IsSpace b := List.forall_mem_nil _
    rw [cString_padded hdigits hafter, strtoull16_digits hdigits (by omega) hafter, if_neg hne]
  simp only [handleWriteData, yields_bind, yields_readUntilNextWhiteSpace, yields_require,
    yields_requireChar, yields_padWithBlanks, yields_touch, yields_isHexString, yields_pure,
    exists_const, exists_eq_left, exists_and_left, and_assoc]
  constructor
  · rintro ⟨-, hlow, hhigh, h0, h1, hhex, -, rfl, rfl⟩
    obtain ⟨digits, hw, hmin, hmax⟩ := writeData_shape.mp ⟨⟨hlow, hhigh⟩, h0, h1⟩
    rw [hw, hscan, hpad] at hhex
    have hdigits := (scan_eq_true _ _).mp hhex
    refine ⟨rfl, digits, hw, hmin, hmax, hdigits, ?_⟩
    rw [hw, hpad, hvalue digits hmin hmax hdigits]
  · rintro ⟨rfl, digits, hw, hmin, hmax, hdigits, rfl⟩
    obtain ⟨⟨hlow, hhigh⟩, h0, h1⟩ := writeData_shape.mpr ⟨digits, hw, hmin, hmax⟩
    have hhex := (scan_eq_true 2 []).mpr hdigits
    rw [← hpad, ← hscan, ← hw] at hhex
    have hparse := hvalue digits hmin hmax hdigits
    rw [← hpad, ← hw] at hparse
    have hafter : writeDataPadding + digits.length ≠ 1 := by simp only [writeDataPadding]; omega
    refine ⟨hhigh.trans (by decide), hlow, hhigh, h0, h1, hhex, ?_, ?_, rfl⟩
    · rw [hparse]
      exact hafter
    · rw [hparse]

/-! #### Commands -/

theorem yields_handleRead : Yields (handleRead command) f command' f' ↔
    ∃ c₁ f₁, Yields (handleTypeSize { command with order := some .read }) f c₁ f₁ ∧
      Yields (handleVirtAddr { c₁ with writeData := 0 }) f₁ command' f' := by
  rw [handleRead, yields_bind]

theorem yields_handleWrite : Yields (handleWrite command) f command' f' ↔
    ∃ c₁ f₁, Yields (handleTypeSize { command with order := some .write }) f c₁ f₁ ∧
      ∃ c₂ f₂, Yields (handleWriteData c₁) f₁ c₂ f₂ ∧
        Yields (handleVirtAddr c₂) f₂ command' f' := by
  simp only [handleWrite, yields_bind]

theorem yields_readCommand {valid : Bool} : Yields (readCommand command) f (command', valid) f' ↔
    (nextToken f = [ch 'R'] ∧ valid = true ∧
      Yields (handleRead command) (afterToken f) command' f') ∨
    (nextToken f = [ch 'W'] ∧ valid = true ∧
      Yields (handleWrite command) (afterToken f) command' f') ∨
    (nextToken f = [eofChar] ∧ valid = false ∧ command' = command ∧ f' = afterToken f) := by
  have hchar : ∀ {c : Byte}, (nextToken f).length = 1 → (nextToken f)[0]? = some c →
      nextToken f = [c] := by
    intro c hlength h
    obtain ⟨d, hd⟩ := List.length_eq_one_iff.mp hlength
    rw [hd] at h ⊢
    exact congrArg (fun c => [c]) (Option.some.inj h)
  simp only [readCommand, yields_bind, yields_readUntilNextWhiteSpace, yields_require,
    yields_touch, exists_const, exists_eq_left, exists_and_left, and_assoc]
  constructor
  · rintro ⟨-, hlength, h⟩
    split_ifs at h with hR hW hEof
    · simp only [yields_bind, yields_pure, Prod.mk.injEq] at h
      obtain ⟨c, _, hread, ⟨rfl, rfl⟩, rfl⟩ := h
      exact .inl ⟨hchar hlength hR, rfl, hread⟩
    · simp only [yields_bind, yields_pure, Prod.mk.injEq] at h
      obtain ⟨c, _, hwrite, ⟨rfl, rfl⟩, rfl⟩ := h
      exact .inr (.inl ⟨hchar hlength hW, rfl, hwrite⟩)
    · simp only [yields_pure, Prod.mk.injEq] at h
      obtain ⟨⟨rfl, rfl⟩, rfl⟩ := h
      exact .inr (.inr ⟨hchar hlength hEof, rfl, rfl, rfl⟩)
    · exact absurd h yields_fail
  · rintro (⟨hR, rfl, hread⟩ | ⟨hW, rfl, hwrite⟩ | ⟨hEof, rfl, rfl, rfl⟩)
    · refine ⟨by rw [hR]; decide, by rw [hR]; rfl, ?_⟩
      rw [if_pos (by rw [hR]; rfl)]
      simp only [yields_bind, yields_pure]
      exact ⟨_, _, hread, rfl, rfl⟩
    · refine ⟨by rw [hW]; decide, by rw [hW]; rfl, ?_⟩
      rw [if_neg (by rw [hW]; decide), if_pos (by rw [hW]; rfl)]
      simp only [yields_bind, yields_pure]
      exact ⟨_, _, hwrite, rfl, rfl⟩
    · refine ⟨by rw [hEof]; decide, by rw [hEof]; rfl, ?_⟩
      rw [if_neg (by rw [hEof]; decide), if_neg (by rw [hEof]; decide), if_pos (by rw [hEof]; rfl)]
      exact yields_pure.mpr ⟨rfl, rfl⟩

/-! #### Failure -/

private theorem errorsIn_readUntilNextWhiteSpace :
    ErrorsIn (· ≠ .errNone) readUntilNextWhiteSpace f := by
  intro err h
  by_cases herr : (readToken maxSizeBuffer f).err = .errNone
  · simp [readUntilNextWhiteSpace, herr] at h
  · simp only [readUntilNextWhiteSpace, if_neg herr, Except.error.injEq] at h
    exact h ▸ herr

private theorem errorsIn_requireChar {i : ℕ} {c : Byte} :
    ErrorsIn (· ≠ .errNone) (requireChar buffer i c) f :=
  errorsIn_bind.mpr ⟨errorsIn_touch, fun _ _ _ => errorsIn_require (by decide)⟩

private theorem errorsIn_padWithBlanks {padding : ℕ} :
    ErrorsIn (· ≠ .errNone) (padWithBlanks buffer padding) f :=
  errorsIn_bind.mpr ⟨errorsIn_touchAll, fun _ _ _ => errorsIn_pure⟩

private theorem errorsIn_handleTypeSize :
    ErrorsIn (· ≠ .errNone) (handleTypeSize command) f := by
  simp only [handleTypeSize, errorsIn_bind]
  refine ⟨errorsIn_readUntilNextWhiteSpace, fun w f₁ _ => ⟨errorsIn_require (by decide),
    fun _ f₂ _ => ⟨errorsIn_touch, fun _ f₃ _ => ?_⟩⟩⟩
  refine errorsIn_ite ?_ (errorsIn_ite ?_ (errorsIn_ite ?_ ?_)) <;> simp [errorsIn_bind]

private theorem errorsIn_handleVirtAddr :
    ErrorsIn (· ≠ .errNone) (handleVirtAddr command) f := by
  simp only [handleVirtAddr, errorsIn_bind, initVirtAddr64_eq]
  refine ⟨errorsIn_readUntilNextWhiteSpace, fun w _ _ => ⟨errorsIn_require (by decide), fun _ _ _ =>
    ⟨errorsIn_requireChar, fun _ _ _ => ⟨errorsIn_requireChar, fun _ _ _ =>
    ⟨errorsIn_requireChar, fun _ _ _ => ⟨errorsIn_requireChar, fun _ _ _ =>
    ⟨errorsIn_padWithBlanks, fun _ _ _ => ⟨errorsIn_touch, fun _ _ _ =>
    ⟨errorsIn_testAll, fun _ _ _ => ⟨errorsIn_require (by decide), fun _ _ _ =>
    ⟨errorsIn_require (by decide), fun _ _ _ => errorsIn_pure⟩⟩⟩⟩⟩⟩⟩⟩⟩⟩⟩

private theorem errorsIn_handleWriteData :
    ErrorsIn (· ≠ .errNone) (handleWriteData command) f := by
  simp only [handleWriteData, errorsIn_bind]
  exact ⟨errorsIn_readUntilNextWhiteSpace, fun w _ _ => ⟨errorsIn_require (by decide), fun _ _ _ =>
    ⟨errorsIn_requireChar, fun _ _ _ => ⟨errorsIn_requireChar, fun _ _ _ =>
    ⟨errorsIn_padWithBlanks, fun _ _ _ => ⟨errorsIn_touch, fun _ _ _ =>
    ⟨errorsIn_testAll, fun _ _ _ => ⟨errorsIn_require (by decide), fun _ _ _ =>
    ⟨errorsIn_require (by decide), fun _ _ _ => errorsIn_pure⟩⟩⟩⟩⟩⟩⟩⟩⟩

/-- Whatever the parser fails with is an error code. -/
theorem errorsIn_readCommand : ErrorsIn (· ≠ .errNone) (readCommand command) f := by
  simp only [readCommand, handleRead, handleWrite, errorsIn_bind]
  refine ⟨errorsIn_readUntilNextWhiteSpace, fun w _ _ => ⟨errorsIn_require (by decide), fun _ _ _ =>
    ⟨errorsIn_touch, fun _ f₁ _ => ?_⟩⟩⟩
  refine errorsIn_ite ?_ (errorsIn_ite ?_ (errorsIn_ite errorsIn_pure
    (errorsIn_fail.mpr (by decide))))
  · simp only [errorsIn_bind]
    exact ⟨⟨errorsIn_handleTypeSize, fun _ _ _ => errorsIn_handleVirtAddr⟩,
      fun _ _ _ => errorsIn_pure⟩
  · simp only [errorsIn_bind]
    exact ⟨⟨errorsIn_handleTypeSize, fun _ _ _ => ⟨errorsIn_handleWriteData,
      fun _ _ _ => errorsIn_handleVirtAddr⟩⟩, fun _ _ _ => errorsIn_pure⟩

/-- A command takes something from a stream that has not ended. -/
theorem left_of_readCommand {valid : Bool} (hended : f.ended = false)
    (h : Yields (readCommand command) f (command', valid) f') : f'.left < f.left := by
  have hlt := (left_afterToken f).2 hended
  rcases yields_readCommand.mp h with ⟨-, -, h⟩ | ⟨-, -, h⟩ | ⟨-, -, -, rfl⟩
  · obtain ⟨c₁, f₁, htype, haddr⟩ := yields_handleRead.mp h
    obtain ⟨rfl, -⟩ := yields_handleTypeSize.mp htype
    obtain ⟨rfl, -⟩ := yields_handleVirtAddr.mp haddr
    exact ((left_afterToken _).1.trans (left_afterToken _).1).trans_lt hlt
  · obtain ⟨c₁, f₁, htype, c₂, f₂, hdata, haddr⟩ := yields_handleWrite.mp h
    obtain ⟨rfl, -⟩ := yields_handleTypeSize.mp htype
    obtain ⟨rfl, -⟩ := yields_handleWriteData.mp hdata
    obtain ⟨rfl, -⟩ := yields_handleVirtAddr.mp haddr
    exact (((left_afterToken _).1.trans (left_afterToken _).1).trans (left_afterToken _).1).trans_lt
      hlt
  · exact hlt

end MemoryHierarchy
