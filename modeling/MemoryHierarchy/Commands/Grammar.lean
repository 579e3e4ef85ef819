import MemoryHierarchy.Commands.Executable
import MemoryHierarchy.Commands.Read

/-!
# The grammar of programs

A program is written as lines, one for each command: `R I A`, `R DB A`, `R DW A`, `W DB V A` or
`W DW V A`, with blanks between the words, an address `A` and a value `V`. `Denotes` says which
command a line denotes; it has parameters for what the parser is more liberal about
(`parsedGrammar`) than the format (`grammar`):

* an address needs no digits, and a value may have nine of them;
* a byte is checked against `BYTE_MAX`;
* a null character may follow the type of an instruction;
* the character `EOF` is converted to is skipped where a command is expected.

The parser accepts exactly the lines of its grammar (`programRead_lines_iff`), so it is exact for
the format on the texts where the two agree (`program_read_exact_iff`).
-/

namespace MemoryHierarchy

open Lib Lib.Traced

/-! ### Lines -/

/-- White space inside a line. -/
def Blanks (s : List Byte) : Prop := ∀ c ∈ s, IsBlank c

/-- A string of between `min` and `max` hexadecimal digits. -/
def HexDigits (min max : ℕ) (digits : List Byte) : Prop :=
  min ≤ digits.length ∧ digits.length ≤ max ∧ ∀ d ∈ digits, IsHex d

/-- What the format and the parser differ in: the words for types, the digits an address needs,
those a value may have, the limit for bytes, and whether marks of the end of the file are
skipped. -/
structure Grammar where
  types : List (List Byte × MemAccess × BitVec 64)
  minAddrDigits : ℕ
  maxDataDigits : ℕ
  byteLimit : ℕ
  marks : Bool

/-- The format. -/
def grammar : Grammar where
  types := [([ch 'I'], .instruction, 4), ([ch 'D', ch 'B'], .data, 1),
    ([ch 'D', ch 'W'], .data, 4)]
  minAddrDigits := 1
  maxDataDigits := 8
  byteLimit := 2 ^ 8
  marks := false

/-- What the parser accepts. -/
def parsedGrammar : Grammar where
  types := typeWords
  minAddrDigits := 0
  maxDataDigits := 9
  byteLimit := byteMax + 1
  marks := true

/-- The virtual address a string of digits denotes: their value, modulo `2 ^ 48`. -/
def DenotesAddr (digits : List Byte) (vaddr : VirtAddr) : Prop :=
  vaddr.reserved = 0 ∧ (virtAddrToUint64 vaddr).toNat = numeral 16 digits % 2 ^ 48

/-- The line, without its newline, denotes the command. -/
inductive Denotes (G : Grammar) : List Byte → Command → Prop
  | read {lead sep₁ word sep₂ addr : List Byte} {type : MemAccess} {size : BitVec 64}
      {vaddr : VirtAddr} (hlead : Blanks lead) (hsep₁ : Blanks sep₁ ∧ sep₁ ≠ [])
      (hsep₂ : Blanks sep₂ ∧ sep₂ ≠ []) (htype : (word, type, size) ∈ G.types)
      (haddr : HexDigits G.minAddrDigits 16 addr) (hvaddr : DenotesAddr addr vaddr)
      (haligned : numeral 16 addr % size.toNat = 0) :
      Denotes G (lead ++ [ch 'R'] ++ sep₁ ++ word ++ sep₂ ++ ([ch '@', ch '0', ch 'x'] ++ addr))
        { order := some .read, type := some type, dataSize := size, writeData := 0, vaddr := vaddr }
  | write {lead sep₁ word sep₂ data sep₃ addr : List Byte} {size : BitVec 64} {value : Word}
      {vaddr : VirtAddr} (hlead : Blanks lead) (hsep₁ : Blanks sep₁ ∧ sep₁ ≠ [])
      (hsep₂ : Blanks sep₂ ∧ sep₂ ≠ []) (hsep₃ : Blanks sep₃ ∧ sep₃ ≠ [])
      (htype : (word, .data, size) ∈ G.types) (hdata : HexDigits 2 G.maxDataDigits data)
      (hvalue : value.toNat = numeral 16 data % 2 ^ 32)
      (hfits : size = 1 → value.toNat < G.byteLimit)
      (haddr : HexDigits G.minAddrDigits 16 addr) (hvaddr : DenotesAddr addr vaddr)
      (haligned : numeral 16 addr % size.toNat = 0) :
      Denotes G (lead ++ [ch 'W'] ++ sep₁ ++ word ++ sep₂ ++ ([ch '0', ch 'x'] ++ data) ++ sep₃ ++
          ([ch '@', ch '0', ch 'x'] ++ addr))
        { order := some .write, type := some .data, dataSize := size, writeData := value,
          vaddr := vaddr }
  | mark {lead line : List Byte} {b : Byte} {command : Command} (hmarks : G.marks = true)
      (hlead : Blanks lead) (hb : IsBlank b) (hline : Denotes G line command) :
      Denotes G (lead ++ [eofChar] ++ b :: line) command

/-- A text made of lines, each ended by a newline. -/
def textOf (lines : List (List Byte)) : List Byte := lines.flatMap (· ++ [ch '\n'])

variable {f f' : File} {command command' : Command} {text word digits line : List Byte}
  {type : MemAccess} {size : BitVec 64} {vaddr : VirtAddr}

/-! ### Words of a command -/

private theorem typeWords_visible : ∀ t ∈ typeWords,
    t.1 ≠ [] ∧ ch '\n' ∉ t.1 ∧ eofChar ∉ t.1 ∧ ∀ c ∈ t.1, ¬ IsSpace c := by decide

theorem typeWords_size (h : (word, type, size) ∈ typeWords) :
    (type = .instruction → size = 4) ∧ (size = 1 ∨ size = 4) := by
  have hall : ∀ t ∈ typeWords, (t.2.1 = .instruction → t.2.2 = 4) ∧ (t.2.2 = 1 ∨ t.2.2 = 4) := by
    decide
  exact hall _ h

/-- A stream that a type is read from. -/
theorem yields_handleTypeSize_iff (hended : f.ended = false) :
    Yields (handleTypeSize command) { f with rest := text } command' f' ↔ ∃ word type size rest,
      (word, type, size) ∈ typeWords ∧ StartsWithWord word text rest ∧
        command' = { command with type := some type, dataSize := size } ∧
          f' = { f with rest := rest } := by
  rw [yields_handleTypeSize]
  constructor
  · rintro ⟨rfl, type, size, hword, rfl⟩
    obtain ⟨hne, hnl, heof, hvisible⟩ := typeWords_visible _ hword
    obtain ⟨-, -, rest, hstarts⟩ := startsWithWord_of_nextToken rfl hne hnl heof
    exact ⟨_, type, size, rest, hword, hstarts, rfl,
      (hstarts.nextToken_eq (f := { f with rest := text }) hended hne hvisible).2⟩
  · rintro ⟨word, type, size, rest, hword, hstarts, rfl, rfl⟩
    obtain ⟨hne, -, -, hvisible⟩ := typeWords_visible _ hword
    obtain ⟨htoken, hafter⟩ :=
      hstarts.nextToken_eq (f := { f with rest := text }) hended hne hvisible
    exact ⟨hafter.symm, type, size, htoken ▸ hword, rfl⟩

/-- A word that starts with two given visible characters and goes on with digits. -/
private theorem visible_of_isHex {front : List Byte} (hfront : ∀ c ∈ front, ¬ IsSpace c)
    (hdigits : ∀ d ∈ digits, IsHex d) : ∀ c ∈ front ++ digits, ¬ IsSpace c :=
  List.forall_mem_append.mpr ⟨hfront, fun d hd => (hdigits d hd).not_space⟩

/-- A stream that an address is read from. -/
theorem yields_handleVirtAddr_iff (hended : f.ended = false) :
    Yields (handleVirtAddr command) { f with rest := text } command' f' ↔
      ∃ digits rest, HexDigits 0 16 digits ∧
        StartsWithLine ([ch '@', ch '0', ch 'x'] ++ digits) text rest ∧
        command' = { command with vaddr := virtAddr64 (BitVec.ofNat 64 (numeral 16 digits)) } ∧
          f' = { f with rest := rest } := by
  have hvisible : ∀ digits : List Byte, (∀ d ∈ digits, IsHex d) →
      ∀ c ∈ [ch '@', ch '0', ch 'x'] ++ digits, ¬ IsSpace c :=
    fun digits => visible_of_isHex (by decide)
  rw [yields_handleVirtAddr]
  constructor
  · rintro ⟨rfl, digits, htoken, hlength, hdigits, rfl⟩
    obtain ⟨-, -, rest, hstarts⟩ := startsWithLine_of_nextToken htoken
    exact ⟨digits, rest, ⟨Nat.zero_le _, hlength, hdigits⟩, hstarts, rfl,
      (hstarts.nextToken_eq (f := { f with rest := text }) hended (hvisible digits hdigits)).2⟩
  · rintro ⟨digits, rest, ⟨-, hlength, hdigits⟩, hstarts, rfl, rfl⟩
    obtain ⟨htoken, hafter⟩ :=
      hstarts.nextToken_eq (f := { f with rest := text }) hended (hvisible digits hdigits)
    exact ⟨hafter.symm, digits, htoken, hlength, hdigits, rfl⟩

/-- A stream that a value is read from. -/
theorem yields_handleWriteData_iff (hended : f.ended = false) :
    Yields (handleWriteData command) { f with rest := text } command' f' ↔
      ∃ digits rest, HexDigits 2 9 digits ∧
        StartsWithWord ([ch '0', ch 'x'] ++ digits) text rest ∧
        command' = { command with writeData := BitVec.ofNat 32 (numeral 16 digits) } ∧
          f' = { f with rest := rest } := by
  have hvisible : ∀ digits : List Byte, (∀ d ∈ digits, IsHex d) →
      ∀ c ∈ [ch '0', ch 'x'] ++ digits, ¬ IsSpace c := fun digits => visible_of_isHex (by decide)
  rw [yields_handleWriteData]
  constructor
  · rintro ⟨rfl, digits, htoken, hmin, hmax, hdigits, rfl⟩
    have hnl : ch '\n' ∉ [ch '0', ch 'x'] ++ digits := fun h =>
      hvisible digits hdigits _ h (by decide)
    have heof : eofChar ∉ [ch '0', ch 'x'] ++ digits := by
      rw [List.mem_append, not_or]
      exact ⟨by decide, fun h => absurd (hdigits _ h) (by decide)⟩
    obtain ⟨-, -, rest, hstarts⟩ := startsWithWord_of_nextToken htoken (by simp) hnl heof
    exact ⟨digits, rest, ⟨hmin, hmax, hdigits⟩, hstarts, rfl,
      (hstarts.nextToken_eq (f := { f with rest := text }) hended (by simp)
        (hvisible digits hdigits)).2⟩
  · rintro ⟨digits, rest, ⟨hmin, hmax, hdigits⟩, hstarts, rfl, rfl⟩
    obtain ⟨htoken, hafter⟩ := hstarts.nextToken_eq (f := { f with rest := text }) hended (by simp)
      (hvisible digits hdigits)
    exact ⟨hafter.symm, digits, htoken, hmin, hmax, hdigits, rfl⟩

/-! ### Values of a command -/

/-- The address made of the value of the digits is the one they denote. -/
theorem denotesAddr_iff :
    DenotesAddr digits vaddr ↔ vaddr = virtAddr64 (BitVec.ofNat 64 (numeral 16 digits)) := by
  have hvalue : (virtAddrToUint64 (virtAddr64 (BitVec.ofNat 64 (numeral 16 digits)))).toNat =
      numeral 16 digits % 2 ^ 48 := by
    rw [virtAddrToUint64_virtAddr64, BitVec.toNat_ofNat]
    exact Nat.mod_mod_of_dvd _ (by decide)
  constructor
  · intro h
    exact eq_of_virtAddrToUint64_eq h.1 (BitVec.eq_of_toNat_eq (h.2.trans hvalue.symm))
  · rintro rfl
    exact ⟨rfl, hvalue⟩

/-- The address is aligned exactly when its offset in the page is. -/
theorem DenotesAddr.aligned_iff (h : DenotesAddr digits vaddr) (hsize : size = 1 ∨ size = 4) :
    vaddr.pageOffset.toNat % size.toNat = 0 ↔ numeral 16 digits % size.toNat = 0 := by
  have hvalue := h.2
  rw [virtAddrToUint64_toNat] at hvalue
  rcases hsize with rfl | rfl
  · change _ % 1 = 0 ↔ _ % 1 = 0
    omega
  · change _ % 4 = 0 ↔ _ % 4 = 0
    omega

/-- The checks on a read are those of its address. -/
theorem checkCommand_read (htype : (word, type, size) ∈ typeWords)
    (hvaddr : DenotesAddr digits vaddr) :
    checkCommand
      { order := some .read, type := some type, dataSize := size, writeData := 0, vaddr := vaddr } =
        .errNone ↔ numeral 16 digits % size.toNat = 0 := by
  obtain ⟨hinstruction, hsize⟩ := typeWords_size htype
  rw [checkCommand_eq_errNone_iff, ← hvaddr.aligned_iff hsize]
  simp only [Option.some.injEq, exists_eq', true_and, reduceCtorEq, and_false, not_false_eq_true]
  refine ⟨fun h => h.2.2.2, fun h => ⟨fun _ => rfl, .inl (Nat.zero_le _), ?_, h⟩⟩
  split_ifs with hi
  · exact hinstruction hi
  · exact hsize

/-- The checks on a write are those of its address and, for a byte, of its value. -/
theorem checkCommand_write {value : Word} (htype : (word, type, size) ∈ typeWords)
    (hvaddr : DenotesAddr digits vaddr) :
    checkCommand
      { order := some .write
        type := some type
        dataSize := size
        writeData := value
        vaddr := vaddr } = .errNone ↔
        type = .data ∧ (size = 1 → value.toNat < byteMax + 1) ∧
          numeral 16 digits % size.toNat = 0 := by
  obtain ⟨hinstruction, hsize⟩ := typeWords_size htype
  rw [checkCommand_eq_errNone_iff, ← hvaddr.aligned_iff hsize]
  simp only [Option.some.injEq, exists_eq', true_and, reduceCtorEq, and_true, false_implies]
  rcases type with _ | _
  · simp
  · simp only [reduceCtorEq, if_false, not_false_eq_true, true_and]
    refine ⟨fun ⟨hvalue, _, haligned⟩ => ⟨fun hone => ?_, haligned⟩,
      fun ⟨hfits, haligned⟩ => ⟨?_, hsize, haligned⟩⟩
    · rcases hvalue with hvalue | hfour
      · exact Nat.lt_succ_of_le hvalue
      · exact absurd (hone.symm.trans hfour) (by decide)
    · rcases hsize with hone | hfour
      · exact .inl (Nat.le_of_lt_succ (hfits hone))
      · exact .inr hfour

/-! ### Lines and streams -/

private theorem nl_not_blank {s : List Byte} (hs : Blanks s) : ch '\n' ∉ s := fun h =>
  (hs _ h).2 rfl

/-- A separator is a blank and further blanks. -/
private theorem exists_of_separator {s : List Byte} (hs : Blanks s ∧ s ≠ []) :
    ∃ b lead, s = b :: lead ∧ IsBlank b ∧ Blanks lead := by
  obtain ⟨b, lead, rfl⟩ := List.exists_cons_of_ne_nil hs.2
  exact ⟨b, lead, rfl, List.forall_mem_cons.mp hs.1⟩

private theorem separator {b : Byte} {lead : List Byte} (hb : IsBlank b) (hlead : Blanks lead) :
    Blanks (b :: lead) ∧ b :: lead ≠ [] :=
  ⟨List.forall_mem_cons.mpr ⟨hb, hlead⟩, List.cons_ne_nil _ _⟩

/-- A separator of a line is the blank that ends a word and those before the next one. -/
private theorem line_append {before word₁ after : List Byte} {b : Byte} {lead : List Byte} :
    before ++ b :: (lead ++ word₁ ++ after) = before ++ (b :: lead) ++ word₁ ++ after := by
  simp only [List.append_assoc, List.cons_append]

private theorem nl_not_digits {min max : ℕ} (h : HexDigits min max digits) : ch '\n' ∉ digits :=
  fun hmem => absurd (h.2.2 _ hmem) (by decide)

/-- No newline stands in a line that denotes a command. -/
theorem Denotes.nl_notMem {G : Grammar} (hG : ∀ t ∈ G.types, ch '\n' ∉ t.1)
    (h : Denotes G line command) : ch '\n' ∉ line := by
  induction h with
  | read hlead hsep₁ hsep₂ htype haddr =>
    simp only [List.mem_append, not_or]
    exact ⟨⟨⟨⟨⟨nl_not_blank hlead, by decide⟩, nl_not_blank hsep₁.1⟩, hG _ htype⟩,
      nl_not_blank hsep₂.1⟩, by decide, nl_not_digits haddr⟩
  | write hlead hsep₁ hsep₂ hsep₃ htype hdata _ _ haddr =>
    simp only [List.mem_append, not_or]
    exact ⟨⟨⟨⟨⟨⟨⟨nl_not_blank hlead, by decide⟩, nl_not_blank hsep₁.1⟩, hG _ htype⟩,
      nl_not_blank hsep₂.1⟩, by decide, nl_not_digits hdata⟩, nl_not_blank hsep₃.1⟩, by decide,
      nl_not_digits haddr⟩
  | mark _ hlead hb _ ih =>
    simp only [List.mem_append, List.mem_cons, not_or]
    exact ⟨⟨nl_not_blank hlead, by decide⟩, fun h => hb.2 h.symm, ih⟩

/-- **Soundness** for one command: it is parsed from a line that denotes it. -/
theorem denotes_of_readCommand (h : Yields (readCommand zeroCommand) f (command, true) f')
    (hcheck : checkCommand command = .errNone) :
    ∃ line rest, f.rest = line ++ ch '\n' :: rest ∧ f' = { f with rest := rest } ∧
      Denotes parsedGrammar line command := by
  rcases yields_readCommand.mp h with ⟨htoken, -, h⟩ | ⟨htoken, -, h⟩ | ⟨-, hvalid, -⟩
  · obtain ⟨hended, hvisible, rest₀, hR⟩ :=
      startsWithWord_of_nextToken htoken (by decide) (by decide) (by decide)
    obtain ⟨c₁, f₁, htype, haddr⟩ := yields_handleRead.mp h
    rw [(hR.nextToken_eq hended (by decide) hvisible).2] at htype
    obtain ⟨word, type, size, rest₁, hword, hstarts, rfl, rfl⟩ :=
      (yields_handleTypeSize_iff hended).mp htype
    obtain ⟨digits, rest, hdigits, hline, rfl, rfl⟩ :=
      (yields_handleVirtAddr_iff hended).mp haddr
    have hvaddr := denotesAddr_iff.mpr (Eq.refl (virtAddr64 (BitVec.ofNat 64 (numeral 16 digits))))
    have haligned := (checkCommand_read hword hvaddr).mp hcheck
    obtain ⟨lead, b₁, hlead, hb₁, hrest⟩ := hR
    obtain ⟨lead₁, b₂, hlead₁, hb₂, rfl⟩ := hstarts
    obtain ⟨lead₂, hlead₂, rfl⟩ := hline
    refine ⟨lead ++ [ch 'R'] ++ (b₁ :: lead₁) ++ word ++ (b₂ :: lead₂) ++
      ([ch '@', ch '0', ch 'x'] ++ digits), rest, ?_, rfl, ?_⟩
    · rw [hrest, line_append, line_append]
    · exact .read hlead (separator hb₁ hlead₁) (separator hb₂ hlead₂) hword hdigits hvaddr haligned
  · obtain ⟨hended, hvisible, rest₀, hW⟩ :=
      startsWithWord_of_nextToken htoken (by decide) (by decide) (by decide)
    obtain ⟨c₁, f₁, htype, c₂, f₂, hdata, haddr⟩ := yields_handleWrite.mp h
    rw [(hW.nextToken_eq hended (by decide) hvisible).2] at htype
    obtain ⟨word, type, size, rest₁, hword, hstarts, rfl, rfl⟩ :=
      (yields_handleTypeSize_iff hended).mp htype
    obtain ⟨data, rest₂, hdataDigits, hdataStarts, rfl, rfl⟩ :=
      (yields_handleWriteData_iff hended).mp hdata
    obtain ⟨digits, rest, hdigits, hline, rfl, rfl⟩ :=
      (yields_handleVirtAddr_iff hended).mp haddr
    have hvaddr := denotesAddr_iff.mpr (Eq.refl (virtAddr64 (BitVec.ofNat 64 (numeral 16 digits))))
    obtain ⟨rfl, hfits, haligned⟩ := (checkCommand_write hword hvaddr).mp hcheck
    obtain ⟨lead, b₁, hlead, hb₁, hrest⟩ := hW
    obtain ⟨lead₁, b₂, hlead₁, hb₂, rfl⟩ := hstarts
    obtain ⟨lead₂, b₃, hlead₂, hb₃, rfl⟩ := hdataStarts
    obtain ⟨lead₃, hlead₃, rfl⟩ := hline
    refine ⟨lead ++ [ch 'W'] ++ (b₁ :: lead₁) ++ word ++ (b₂ :: lead₂) ++
      ([ch '0', ch 'x'] ++ data) ++ (b₃ :: lead₃) ++ ([ch '@', ch '0', ch 'x'] ++ digits), rest, ?_,
      rfl, ?_⟩
    · rw [hrest, line_append, line_append, line_append]
    · exact .write hlead (separator hb₁ hlead₁) (separator hb₂ hlead₂) (separator hb₃ hlead₃) hword
        hdataDigits (BitVec.toNat_ofNat _ _) hfits hdigits hvaddr haligned
  · cases hvalid

/-- **Completeness** for one command: from a line that denotes it, it is parsed, after marks of the
end of the file. -/
theorem readsAs_of_denotes {rest : List Byte} {commands : List Command}
    (h : Denotes parsedGrammar line command) (hended : f.ended = false)
    (hrest : f.rest = line ++ ch '\n' :: rest)
    (hreads : ReadsAs { f with rest := rest } commands) : ReadsAs f (command :: commands) := by
  induction h generalizing f with
  | @read lead sep₁ word sep₂ addr type size vaddr hlead hsep₁ hsep₂ htype haddr hvaddr haligned =>
    have hcheck := (checkCommand_read htype hvaddr).mpr haligned
    obtain ⟨b₁, lead₁, rfl, hb₁, hlead₁⟩ := exists_of_separator hsep₁
    obtain ⟨b₂, lead₂, rfl, hb₂, hlead₂⟩ := exists_of_separator hsep₂
    obtain rfl := denotesAddr_iff.mp hvaddr
    rw [← line_append, ← line_append] at hrest
    have hR : StartsWithWord [ch 'R'] f.rest _ := ⟨lead, b₁, hlead, hb₁, hrest⟩
    obtain ⟨htoken, hafter⟩ := hR.nextToken_eq hended (by decide) (by decide)
    refine .command hended (yields_readCommand.mpr (.inl ⟨htoken, rfl, ?_⟩)) hcheck hreads
    rw [hafter]
    refine yields_handleRead.mpr ⟨_, _,
      (yields_handleTypeSize_iff hended).mpr
        ⟨word, type, size, _, htype, ⟨lead₁, b₂, hlead₁, hb₂, rfl⟩, rfl, rfl⟩, ?_⟩
    exact (yields_handleVirtAddr_iff hended).mpr
      ⟨addr, rest, haddr, ⟨lead₂, hlead₂, rfl⟩, rfl, rfl⟩
  | @write lead sep₁ word sep₂ data sep₃ addr size value vaddr hlead hsep₁ hsep₂ hsep₃ htype hdata
      hvalue hfits haddr hvaddr haligned =>
    have hcheck := (checkCommand_write htype hvaddr).mpr ⟨rfl, hfits, haligned⟩
    obtain ⟨b₁, lead₁, rfl, hb₁, hlead₁⟩ := exists_of_separator hsep₁
    obtain ⟨b₂, lead₂, rfl, hb₂, hlead₂⟩ := exists_of_separator hsep₂
    obtain ⟨b₃, lead₃, rfl, hb₃, hlead₃⟩ := exists_of_separator hsep₃
    obtain rfl := denotesAddr_iff.mp hvaddr
    obtain rfl : value = BitVec.ofNat 32 (numeral 16 data) :=
      BitVec.eq_of_toNat_eq (hvalue.trans (BitVec.toNat_ofNat _ _).symm)
    rw [← line_append, ← line_append, ← line_append] at hrest
    have hW : StartsWithWord [ch 'W'] f.rest _ := ⟨lead, b₁, hlead, hb₁, hrest⟩
    obtain ⟨htoken, hafter⟩ := hW.nextToken_eq hended (by decide) (by decide)
    refine .command hended (yields_readCommand.mpr (.inr (.inl ⟨htoken, rfl, ?_⟩))) hcheck hreads
    rw [hafter]
    refine yields_handleWrite.mpr ⟨_, _,
      (yields_handleTypeSize_iff hended).mpr
        ⟨word, .data, size, _, htype, ⟨lead₁, b₂, hlead₁, hb₂, rfl⟩, rfl, rfl⟩, ?_⟩
    refine ⟨_, _, (yields_handleWriteData_iff hended).mpr
      ⟨data, _, hdata, ⟨lead₂, b₃, hlead₂, hb₃, rfl⟩, rfl, rfl⟩, ?_⟩
    exact (yields_handleVirtAddr_iff hended).mpr
      ⟨addr, rest, haddr, ⟨lead₃, hlead₃, rfl⟩, rfl, rfl⟩
  | @mark lead line b command _ hlead hb _ ih =>
    have hmark : StartsWithWord [eofChar] f.rest (line ++ ch '\n' :: rest) :=
      ⟨lead, b, hlead, hb, by rw [hrest, List.append_assoc]; rfl⟩
    obtain ⟨htoken, hafter⟩ := hmark.nextToken_eq hended (by decide) (by decide)
    refine .mark hended (yields_readCommand.mpr (.inr (.inr ⟨htoken, rfl, rfl, rfl⟩))) ?_
    rw [hafter]
    exact ih hended rfl hreads

/-! ### Texts -/

theorem textOf_cons (line : List Byte) (lines : List (List Byte)) :
    textOf (line :: lines) = line ++ ch '\n' :: textOf lines := by
  rw [textOf, List.flatMap_cons, List.append_assoc]
  rfl

private theorem textOf_eq_nil {lines : List (List Byte)} (h : textOf lines = []) : lines = [] := by
  rcases lines with _ | ⟨line, lines⟩
  · rfl
  · rw [textOf_cons] at h
    simp at h

/-- What a text starts with, before a newline, its first line starts with. -/
private theorem exists_of_textOf_eq_append {front after : List Byte} {lines : List (List Byte)}
    (hnl : ch '\n' ∉ front) (hne : front ++ after ≠ []) (h : front ++ after = textOf lines) :
    ∃ line lines', lines = (front ++ line) :: lines' ∧ after = textOf (line :: lines') := by
  rcases lines with _ | ⟨line, lines⟩
  · exact absurd h hne
  · rw [textOf_cons] at h
    rcases List.append_eq_append_iff.mp h with ⟨line', hline, hafter⟩ | ⟨line', hfront, hrest⟩
    · exact ⟨line', lines, by rw [hline], by rw [hafter, textOf_cons]⟩
    · rcases line' with _ | ⟨c, line'⟩
      · refine ⟨[], lines, by rw [hfront, List.append_nil, List.append_nil], ?_⟩
        rw [textOf_cons]
        exact hrest.symm
      · obtain ⟨rfl, -⟩ := List.cons.inj hrest
        exact absurd (hfront ▸ List.mem_append_right _ List.mem_cons_self) hnl

/-- The first line of a text, which its newline ends. -/
private theorem exists_of_textOf_eq_line {rest : List Byte} {lines : List (List Byte)}
    (hnl : ch '\n' ∉ line) (hlines : ∀ line ∈ lines, ch '\n' ∉ line)
    (h : line ++ ch '\n' :: rest = textOf lines) :
    ∃ lines', lines = line :: lines' ∧ rest = textOf lines' := by
  obtain ⟨tail, lines', rfl, hafter⟩ := exists_of_textOf_eq_append hnl (by simp) h
  rw [textOf_cons] at hafter
  rcases tail with _ | ⟨c, tail⟩
  · exact ⟨lines', by rw [List.append_nil], (List.cons.inj hafter).2⟩
  · obtain ⟨rfl, -⟩ := List.cons.inj hafter
    exact absurd (List.mem_append_right _ List.mem_cons_self) (hlines _ List.mem_cons_self)

/-- A text of blanks has no line. -/
private theorem lines_eq_nil_of_blanks {lines : List (List Byte)} (h : Blanks (textOf lines)) :
    lines = [] := by
  rcases lines with _ | ⟨line, lines⟩
  · rfl
  · have hnl : ch '\n' ∈ textOf (line :: lines) := by
      rw [textOf_cons]
      exact List.mem_append_right _ List.mem_cons_self
    exact absurd hnl (nl_not_blank h)

/-- **Completeness** for a text. -/
theorem readsAs_of_denotesAll {lines : List (List Byte)} {commands : List Command}
    (h : List.Forall₂ (Denotes parsedGrammar) lines commands) (hended : f.ended = false)
    (hfails : f.fails = false) (hrest : f.rest = textOf lines) : ReadsAs f commands := by
  induction h generalizing f with
  | nil =>
    obtain ⟨htoken, hafter⟩ := nextToken_nil hrest hended
    refine .mark hended (yields_readCommand.mpr (.inr (.inr ⟨htoken, rfl, rfl, rfl⟩))) ?_
    rw [hafter]
    rw [File.ended, Bool.or_eq_false_iff] at hended
    refine .done (atEnd_ended f) ?_
    rw [File.atEnd, hfails]
    exact hended.2
  | @cons line command lines commands hline _ ih =>
    rw [textOf_cons] at hrest
    exact readsAs_of_denotes hline hended hrest (ih hended hfails rfl)

/-- **Soundness** for a text. -/
theorem denotesAll_of_readsAs {lines : List (List Byte)} {commands : List Command}
    (h : ReadsAs f commands) (hended : f.ended = true → f.rest = []) (hrest : f.rest = textOf lines)
    (hlines : ∀ line ∈ lines, ch '\n' ∉ line) :
    List.Forall₂ (Denotes parsedGrammar) lines commands := by
  induction h generalizing lines with
  | done hend _ =>
    rw [hended hend] at hrest
    rw [textOf_eq_nil hrest.symm]
    exact .nil
  | @command f f' newC commands hopen hparse hcheck _ ih =>
    obtain ⟨line, rest, htext, rfl, hdenotes⟩ := denotes_of_readCommand hparse hcheck
    obtain ⟨lines, rfl, hrestLines⟩ := exists_of_textOf_eq_line
      (hdenotes.nl_notMem (by decide)) hlines (htext.symm.trans hrest)
    exact .cons hdenotes (ih (fun hend => absurd (hopen.symm.trans hend) (by decide)) hrestLines
      (List.forall_mem_cons.mp hlines).2)
  | @mark f f' newC commands hopen hparse _ ih =>
    rcases yields_readCommand.mp hparse with ⟨-, hvalid, -⟩ | ⟨-, hvalid, -⟩ | ⟨htoken, -, -, rfl⟩
    · cases hvalid
    · cases hvalid
    · obtain ⟨-, ⟨hblank, hafter⟩ | ⟨rest, hstarts⟩⟩ := startsWithMark_of_nextToken htoken
      · -- only the end of the text is left
        have hnil : lines = [] := lines_eq_nil_of_blanks (hrest ▸ hblank)
        rw [hafter] at ih
        exact ih (fun _ => atEnd_rest _) (by rw [hnil, atEnd_rest]; rfl) hlines
      · rw [(hstarts.nextToken_eq hopen (by decide) (by decide)).2] at ih
        obtain ⟨lead, b, hlead, hb, htext⟩ := hstarts
        have hfront : ch '\n' ∉ lead ++ [eofChar] ++ [b] := by
          simp only [List.mem_append, List.mem_singleton, not_or]
          exact ⟨⟨nl_not_blank hlead, by decide⟩, fun h => hb.2 h.symm⟩
        rw [htext, List.append_cons] at hrest
        obtain ⟨line, lines, rfl, hafter⟩ :=
          exists_of_textOf_eq_append hfront (by simp) hrest
        -- the mark and the rest of its line denote what the rest of the line does
        obtain ⟨hline, hrestLines⟩ := List.forall_mem_cons.mp hlines
        rw [List.mem_append, not_or] at hline
        have hall : List.Forall₂ (Denotes parsedGrammar) (line :: lines) _ :=
          ih (fun hend => absurd (hopen.symm.trans hend) (by decide)) hafter
            (List.forall_mem_cons.mpr ⟨hline.2, hrestLines⟩)
        rcases hall with _ | ⟨hdenotes, hall⟩
        refine .cons ?_ hall
        rw [List.append_assoc]
        exact .mark rfl hlead hb hdenotes

/-- **The parser and its grammar**: with memory to be had, `program_read` accepts the lines that
denote commands, up to `maxLines` of them, and reads those commands. -/
theorem programRead_lines_iff {realloc : ℕ → ℕ → Realloc} (halloc : ∀ n k, realloc n k ≠ none)
    {lines : List (List Byte)} (hlines : ∀ line ∈ lines, ch '\n' ∉ line) {commands : List Command} :
    (∃ program accesses, programRead true realloc (some (File.open (textOf lines))) =
        some { err := .errNone, program := some program, accesses := accesses } ∧
      program.commands = commands) ↔
    List.Forall₂ (Denotes parsedGrammar) lines commands ∧ lines.length ≤ maxLines := by
  rw [programRead_iff halloc]
  constructor
  · rintro ⟨hreads, hlength⟩
    have hall := denotesAll_of_readsAs hreads nofun rfl hlines
    exact ⟨hall, hall.length_eq ▸ hlength⟩
  · rintro ⟨hall, hlength⟩
    exact ⟨readsAs_of_denotesAll hall rfl rfl rfl, hall.length_eq ▸ hlength⟩

/-! ### The parser and the format -/

/-- The format is part of what the parser accepts. -/
theorem Denotes.parsed (h : Denotes grammar line command) :
    Denotes parsedGrammar line command := by
  have htypes : ∀ t ∈ grammar.types, t ∈ parsedGrammar.types := by decide
  induction h with
  | read hlead hsep₁ hsep₂ htype haddr hvaddr haligned =>
    exact .read hlead hsep₁ hsep₂ (htypes _ htype) ⟨Nat.zero_le _, haddr.2⟩ hvaddr haligned
  | write hlead hsep₁ hsep₂ hsep₃ htype hdata hvalue hfits haddr hvaddr haligned =>
    exact .write hlead hsep₁ hsep₂ hsep₃ (htypes _ htype)
      ⟨hdata.1, hdata.2.1.trans (by decide), hdata.2.2⟩ hvalue
      (fun hone => (hfits hone).trans (by decide)) ⟨Nat.zero_le _, haddr.2⟩ hvaddr haligned
  | mark hmarks => cases hmarks

theorem exists_forall₂_iff {G : Grammar} {lines : List (List Byte)} :
    (∃ commands, List.Forall₂ (Denotes G) lines commands) ↔
      ∀ line ∈ lines, ∃ command, Denotes G line command := by
  induction lines with
  | nil => simp
  | cons line lines ih =>
    simp only [List.forall₂_cons_left_iff, List.forall_mem_cons, ← ih]
    constructor
    · rintro ⟨_, command, commands, hline, hall, -⟩
      exact ⟨⟨command, hline⟩, commands, hall⟩
    · rintro ⟨⟨command, hline⟩, commands, hall⟩
      exact ⟨_, command, commands, hline, hall, rfl⟩

end MemoryHierarchy
