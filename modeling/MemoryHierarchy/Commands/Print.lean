import MemoryHierarchy.Commands.Grammar

/-!
# Printing a program

`program_print` of `commands.c`, as the text it writes to its stream. Each of the commands
`program_add_command` accepts is printed as a line that the parser's grammar gives back
(`denotes_printCommand`): values of bytes with as many digits as they need, words with eight,
addresses with all sixteen. So the text of a program reads back as the program. The counter of
the printing loop is an `int` and the number of lines a `size_t`: beyond `INT_MAX` lines there is
no text (`printLoop_eq_none_iff`), and the round trip holds up to there (`program_print_read`).
-/

namespace MemoryHierarchy

open Lib

/-- `print_word_t_as_word`. -/
def printWordTAsWord (word : Word) : List Byte :=
  [ch '0', ch 'x'] ++ printHex 8 word.toNat ++ [ch ' ']

/-- `print_word_t_as_byte`. -/
def printWordTAsByte (word : Word) : List Byte :=
  [ch '0', ch 'x'] ++ printHex 2 word.toNat ++ [ch ' ']

/-- `print_uint_64`. -/
def printUint64 (toPrint : BitVec 64) : List Byte :=
  [ch '0', ch 'x'] ++ printHex 16 toPrint.toNat ++ [ch '\n']

/-- The body of the loop of `program_print`: an error code, or what is printed for the command. -/
def printCommand (com : Command) : Except ErrorCode (List Byte) :=
  if ¬ (com.order = some .read ∨ com.order = some .write) then .error .errBadParameter
  else if ¬ (com.type = some .instruction ∨ com.type = some .data) then .error .errBadParameter
  else if ¬ (com.dataSize = 1 ∨ com.dataSize = 4) then .error .errBadParameter
  else
    let ord := if com.order = some .read then ch 'R' else ch 'W'
    let type := if com.type = some .instruction then ch 'I' else ch 'D'
    let size := if com.dataSize = 1 then ch 'B' else ch 'W'
    let addr := virtAddrToUint64 com.vaddr
    .ok <|
      [ord, ch ' ', type] ++
      (if type = ch 'D' then [size, ch ' '] else [ch ' ']) ++
      (if ord = ch 'W' ∧ type = ch 'D' then
        if size = ch 'B' then printWordTAsByte com.writeData else printWordTAsWord com.writeData
      else []) ++
      [ch '@'] ++ printUint64 addr

/-- `INT_MAX`. -/
abbrev intMax : ℕ := 2 ^ 31 - 1

/-- The loop of `program_print` from the `i`-th command on. The counter is an `int`: where its
increment overflows, the behaviour is undefined and there is no result. -/
def printLoop : ℕ → List Command → Option (ErrorCode × List Byte)
  | _, [] => some (.errNone, [])
  | i, com :: rest =>
    match printCommand com with
    | .error err => some (err, [])
    | .ok line =>
      if i = intMax then none
      else (printLoop (i + 1) rest).map fun (err, output) => (err, line ++ output)

/-- `program_print`: its error code and what it printed. -/
def programPrint (program : Program) : Option (ErrorCode × List Byte) :=
  printLoop 0 program.commands

variable {com : Command} {program : Program}

theorem virtAddrToUint64_lt (vaddr : VirtAddr) : (virtAddrToUint64 vaddr).toNat < 2 ^ 48 := by
  have hpage := virtAddrToVirtualPageNumber_lt vaddr
  have hoff := vaddr.pageOffset.isLt
  rw [virtAddrToUint64_toNat]
  omega

/-- The digits of a printed address. -/
private theorem printed_addr (vaddr : VirtAddr) (hreserved : vaddr.reserved = 0) :
    HexDigits 0 16 (printHex 16 (virtAddrToUint64 vaddr).toNat) ∧
      DenotesAddr (printHex 16 (virtAddrToUint64 vaddr).toNat) vaddr := by
  have hlt := virtAddrToUint64_lt vaddr
  refine ⟨⟨Nat.zero_le _, length_printHex_le le_rfl (hlt.trans (by decide)),
    fun _ => isHex_of_mem_printHex⟩, hreserved, ?_⟩
  rw [numeral_printHex, Nat.mod_eq_of_lt hlt]

/-- The digits of a printed value. -/
private theorem printed_data {width : ℕ} (value : Word) (hmin : 2 ≤ width) (hmax : width ≤ 9) :
    HexDigits 2 9 (printHex width value.toNat) ∧
      value.toNat = numeral 16 (printHex width value.toNat) % 2 ^ 32 := by
  refine ⟨⟨hmin.trans (le_length_printHex _ _),
    length_printHex_le hmax (value.isLt.trans (by decide)), fun _ => isHex_of_mem_printHex⟩, ?_⟩
  rw [numeral_printHex, Nat.mod_eq_of_lt value.isLt]

private theorem letters : ch 'I' ≠ ch 'D' ∧ ch 'R' ≠ ch 'W' ∧ ch 'W' ≠ ch 'B' := by decide

private theorem blank : Blanks [ch ' '] ∧ [ch ' '] ≠ [] :=
  ⟨fun _ hc => List.mem_singleton.mp hc ▸ by decide, List.cons_ne_nil _ _⟩

/-- A read is printed without a value. -/
private theorem denotes_printRead {word : List Byte} {type : MemAccess} {size : BitVec 64}
    {vaddr : VirtAddr} (htype : (word, type, size) ∈ typeWords)
    (haligned : vaddr.pageOffset.toNat % size.toNat = 0) (hreserved : vaddr.reserved = 0) :
    Denotes parsedGrammar ([ch 'R'] ++ [ch ' '] ++ word ++ [ch ' '] ++
        ([ch '@', ch '0', ch 'x'] ++ printHex 16 (virtAddrToUint64 vaddr).toNat))
      { order := some .read
        type := some type
        dataSize := size
        writeData := 0
        vaddr := vaddr } := by
  obtain ⟨haddr, hvaddr⟩ := printed_addr vaddr hreserved
  exact .read (show Blanks [] from List.forall_mem_nil _) blank blank htype haddr hvaddr
    ((hvaddr.aligned_iff (typeWords_size htype).2).mp haligned)

/-- A write is printed with its value. -/
private theorem denotes_printWrite {word : List Byte} {size : BitVec 64} {value : Word} {width : ℕ}
    {vaddr : VirtAddr} (htype : (word, .data, size) ∈ typeWords) (hmin : 2 ≤ width)
    (hmax : width ≤ 9) (hfits : size = 1 → value.toNat < byteMax + 1)
    (haligned : vaddr.pageOffset.toNat % size.toNat = 0) (hreserved : vaddr.reserved = 0) :
    Denotes parsedGrammar ([ch 'W'] ++ [ch ' '] ++ word ++ [ch ' '] ++
        ([ch '0', ch 'x'] ++ printHex width value.toNat) ++ [ch ' '] ++
        ([ch '@', ch '0', ch 'x'] ++ printHex 16 (virtAddrToUint64 vaddr).toNat))
      { order := some .write
        type := some .data
        dataSize := size
        writeData := value
        vaddr := vaddr } := by
  obtain ⟨haddr, hvaddr⟩ := printed_addr vaddr hreserved
  obtain ⟨hdata, hvalue⟩ := printed_data value hmin hmax
  exact .write (show Blanks [] from List.forall_mem_nil _) blank blank blank htype hdata hvalue
    hfits haddr hvaddr ((hvaddr.aligned_iff (typeWords_size htype).2).mp haligned)

/-- **One command.** A command that passes its checks is printed as a line that denotes it. -/
theorem denotes_printCommand (hcheck : checkCommand com = .errNone)
    (hreserved : com.vaddr.reserved = 0) :
    ∃ line, printCommand com = .ok (line ++ [ch '\n']) ∧ Denotes parsedGrammar line com := by
  obtain ⟨order, type, size, value, vaddr⟩ := com
  obtain ⟨⟨type, rfl⟩, ⟨order, rfl⟩, hread, hbyte, hsize, hwrite, haligned⟩ :=
    checkCommand_eq_errNone_iff.mp hcheck
  simp only at hread hbyte hsize hwrite haligned hreserved
  rcases order with _ | _
  · obtain rfl : value = 0 := BitVec.eq_of_toNat_eq (hread rfl)
    rcases type with _ | _
    · obtain rfl : size = 4 := by simpa using hsize
      refine ⟨_, ?_, denotes_printRead (show ([ch 'I'], _, _) ∈ typeWords by decide) haligned
        hreserved⟩
      simp [printCommand, printUint64, letters]
    · obtain rfl | rfl : size = 1 ∨ size = 4 := by simpa using hsize
      · refine ⟨_, ?_, denotes_printRead (show ([ch 'D', ch 'B'], _, _) ∈ typeWords by decide)
          haligned hreserved⟩
        simp [printCommand, printUint64, letters]
      · refine ⟨_, ?_, denotes_printRead (show ([ch 'D', ch 'W'], _, _) ∈ typeWords by decide)
          haligned hreserved⟩
        simp [printCommand, printUint64, letters]
  · rcases type with _ | _
    · exact absurd ⟨rfl, rfl⟩ hwrite
    · obtain rfl | rfl : size = 1 ∨ size = 4 := by simpa using hsize
      · have hfits : value.toNat < byteMax + 1 :=
          Nat.lt_succ_of_le (hbyte.resolve_right (by decide))
        refine ⟨_, ?_, denotes_printWrite (show ([ch 'D', ch 'B'], _, _) ∈ typeWords by decide)
          (le_refl 2) (by decide) (fun _ => hfits) haligned hreserved⟩
        simp [printCommand, printUint64, printWordTAsByte]
      · refine ⟨_, ?_, denotes_printWrite (show ([ch 'D', ch 'W'], _, _) ∈ typeWords by decide)
          (show 2 ≤ 8 by decide) (by decide) (fun h => absurd h (by decide)) haligned hreserved⟩
        simp [printCommand, printUint64, printWordTAsWord, letters]

/-- **The loop** prints the commands as lines, which denote them. -/
theorem denotes_printLoop {commands : List Command}
    (hchecks : ∀ com ∈ commands, checkCommand com = .errNone ∧ com.vaddr.reserved = 0) {i : ℕ}
    {err : ErrorCode} {output : List Byte} (hprint : printLoop i commands = some (err, output)) :
    err = .errNone ∧ (i ≤ intMax → i + commands.length ≤ intMax) ∧
      ∃ lines, output = textOf lines ∧ List.Forall₂ (Denotes parsedGrammar) lines commands := by
  induction commands generalizing i output with
  | nil =>
    cases hprint
    exact ⟨rfl, fun h => h, [], rfl, .nil⟩
  | cons com commands ih =>
    obtain ⟨⟨hcheck, hreserved⟩, hrest⟩ := List.forall_mem_cons.mp hchecks
    obtain ⟨line, hline, hdenotes⟩ := denotes_printCommand hcheck hreserved
    rw [printLoop, hline] at hprint
    simp only at hprint
    split_ifs at hprint with hi
    obtain ⟨⟨err', output'⟩, hloop, heq⟩ := Option.map_eq_some_iff.mp hprint
    cases heq
    obtain ⟨rfl, hlength, lines, rfl, hall⟩ := ih hrest hloop
    refine ⟨rfl, fun hle => ?_, line :: lines, ?_, .cons hdenotes hall⟩
    · rw [List.length_cons]
      omega
    · rw [textOf_cons, List.append_assoc]
      rfl

/-- **The counter** of the loop runs over on more than `INT_MAX` commands, and on no fewer. -/
theorem printLoop_eq_none_iff {commands : List Command}
    (hchecks : ∀ com ∈ commands, checkCommand com = .errNone ∧ com.vaddr.reserved = 0) {i : ℕ}
    (hi : i ≤ intMax) : printLoop i commands = none ↔ intMax < i + commands.length := by
  induction commands generalizing i with
  | nil => exact iff_of_false (Option.some_ne_none _) (Nat.not_lt.mpr hi)
  | cons com commands ih =>
    obtain ⟨⟨hcheck, hreserved⟩, hrest⟩ := List.forall_mem_cons.mp hchecks
    obtain ⟨line, hline, -⟩ := denotes_printCommand hcheck hreserved
    rw [printLoop, hline, List.length_cons]
    simp only
    split_ifs with hlast
    · exact iff_of_true rfl (by omega)
    · rw [Option.map_eq_none_iff, ih hrest (by omega)]
      omega

/-- The command is one `program_add_command` accepts, for some program. -/
def Accepted (command : Command) : Prop :=
  ∃ realloc program program', programAddCommand realloc program command = some (.errNone, program')

theorem Accepted.checkCommand (h : Accepted com) : checkCommand com = .errNone := by
  obtain ⟨realloc, program, program', hadd⟩ := h
  by_contra hcheck
  rw [programAddCommand, if_pos hcheck, Option.some.injEq, Prod.mk.injEq] at hadd
  exact hcheck hadd.1

/-- The program is printed to the end, and what is printed is read back as a program of the same
commands. -/
def RoundTrips (realloc : ℕ → ℕ → Realloc) (program : Program) : Prop :=
  ∃ text program' accesses, programPrint program = some (.errNone, text) ∧
    programRead true realloc (some (File.open text)) =
      some { err := .errNone, program := some program', accesses := accesses } ∧
    program'.nbLines = program.nbLines ∧ program'.commands = program.commands

/-- **Round trip.** A program of accepted commands is printed and read back exactly when its
lines can be counted in an `int`. -/
theorem program_print_read (program : Program)
    (haccepted : ∀ command ∈ program.commands, Accepted command)
    (hreserved : ∀ command ∈ program.commands, command.vaddr.reserved = 0)
    (realloc : ℕ → ℕ → Realloc) (halloc : ∀ n k, realloc n k ≠ none) :
    RoundTrips realloc program ↔ program.nbLines ≤ intMax := by
  have hchecks : ∀ com ∈ program.commands, checkCommand com = .errNone ∧ com.vaddr.reserved = 0 :=
    fun com hcom => ⟨(haccepted com hcom).checkCommand, hreserved com hcom⟩
  have hnone : programPrint program = none ↔ intMax < program.nbLines := by
    rw [programPrint, printLoop_eq_none_iff hchecks (Nat.zero_le _), Nat.zero_add, length_commands]
  constructor
  · rintro ⟨text, -, -, hprint, -⟩
    exact Nat.not_lt.mp fun hlt => Option.some_ne_none _ (hprint.symm.trans (hnone.mpr hlt))
  · intro hle
    obtain ⟨⟨err, text⟩, hprint⟩ := Option.ne_none_iff_exists'.mp
      fun h => Nat.not_lt.mpr hle (hnone.mp h)
    obtain ⟨rfl, -, lines, rfl, hall⟩ := denotes_printLoop hchecks hprint
    have hnl : ∀ line ∈ lines, ch '\n' ∉ line := by
      intro line hline
      obtain ⟨command, hdenotes⟩ := exists_forall₂_iff.mp ⟨_, hall⟩ line hline
      exact hdenotes.nl_notMem (by decide)
    have hroom : lines.length ≤ maxLines := by
      rw [hall.length_eq, length_commands]
      exact hle.trans (by decide)
    obtain ⟨program', accesses, hread, hcommands⟩ :=
      (programRead_lines_iff halloc hnl).mpr ⟨hall, hroom⟩
    refine ⟨_, program', accesses, hprint, hread, ?_, hcommands⟩
    rw [← length_commands, ← length_commands, hcommands]

/-- `W DB 0x7F @0x0000000000000013`. -/
theorem program_print_read_byte :
    ∃ program' accesses, programRead true (fun _ _ => some fun _ => zeroCommand)
        (some (File.open [ch 'W', ch ' ', ch 'D', ch 'B', ch ' ', ch '0', ch 'x', ch '7', ch 'F',
          ch ' ', ch '@', ch '0', ch 'x', ch '0', ch '0', ch '0', ch '0', ch '0', ch '0', ch '0',
          ch '0', ch '0', ch '0', ch '0', ch '0', ch '0', ch '0', ch '1', ch '3', ch '\n'])) =
        some { err := .errNone, program := some program', accesses := accesses } ∧
      program'.nbLines = 1 ∧
      program'.commands = [⟨some .write, some .data, 1, 0x7F, ⟨0, 0, 0, 0, 0, 0x13⟩⟩] := by
  have haccepted : Accepted ⟨some .write, some .data, 1, 0x7F, ⟨0, 0, 0, 0, 0, 0x13⟩⟩ :=
    ⟨fun _ => none, { listing := fun _ => zeroCommand, nbLines := 0, allocated := 320 }, _, rfl⟩
  have htext : programPrint
      { listing := fun _ => ⟨some .write, some .data, 1, 0x7F, ⟨0, 0, 0, 0, 0, 0x13⟩⟩
        nbLines := 1
        allocated := 320 } =
      some (.errNone, [ch 'W', ch ' ', ch 'D', ch 'B', ch ' ', ch '0', ch 'x', ch '7', ch 'F',
        ch ' ', ch '@', ch '0', ch 'x', ch '0', ch '0', ch '0', ch '0', ch '0', ch '0', ch '0',
        ch '0', ch '0', ch '0', ch '0', ch '0', ch '0', ch '0', ch '1', ch '3', ch '\n']) := by
    decide +kernel
  obtain ⟨text, program', accesses, hprint, hread, hlines⟩ := (program_print_read
    { listing := fun _ => ⟨some .write, some .data, 1, 0x7F, ⟨0, 0, 0, 0, 0, 0x13⟩⟩
      nbLines := 1
      allocated := 320 }
    (List.forall_mem_singleton.mpr haccepted) (List.forall_mem_singleton.mpr rfl)
    (fun _ _ => some fun _ => zeroCommand) fun _ _ => Option.some_ne_none _).mpr (by decide)
  rw [htext, Option.some.injEq, Prod.mk.injEq] at hprint
  exact ⟨program', accesses, hprint.2 ▸ hread, hlines⟩

/-- `2 ^ 31` times `R I @0x0000000000000000`. -/
theorem not_program_print_read :
    ¬ ∀ (program : Program), (∀ command ∈ program.commands, Accepted command) →
      (∀ command ∈ program.commands, command.vaddr.reserved = 0) →
      ∀ realloc : ℕ → ℕ → Realloc, (∀ n k, realloc n k ≠ none) → RoundTrips realloc program := by
  intro h
  have haccepted : Accepted ⟨some .read, some .instruction, 4, 0, ⟨0, 0, 0, 0, 0, 0⟩⟩ :=
    ⟨fun _ => none, { listing := fun _ => zeroCommand, nbLines := 0, allocated := 320 }, _, rfl⟩
  have hcommands : ∀ command ∈ Program.commands
      { listing := fun _ => ⟨some .read, some .instruction, 4, 0, ⟨0, 0, 0, 0, 0, 0⟩⟩
        nbLines := 2 ^ 31
        allocated := 2 ^ 31 * 32 },
      command = ⟨some .read, some .instruction, 4, 0, ⟨0, 0, 0, 0, 0, 0⟩⟩ := by
    intro command hcommand
    obtain ⟨i, -, rfl⟩ := List.mem_map.mp hcommand
    rfl
  have hroundTrips := h _ (fun command hcommand => hcommands command hcommand ▸ haccepted)
    (fun command hcommand => hcommands command hcommand ▸ rfl)
    (fun _ _ => some fun _ => zeroCommand) fun _ _ => Option.some_ne_none _
  obtain ⟨text, -, -, hprint, -⟩ := hroundTrips
  have hlong : intMax < 0 + (Program.commands
      { listing := fun _ => ⟨some .read, some .instruction, 4, 0, ⟨0, 0, 0, 0, 0, 0⟩⟩
        nbLines := 2 ^ 31
        allocated := 2 ^ 31 * 32 }).length := by
    rw [length_commands]
    decide
  have hnone := (printLoop_eq_none_iff (fun command hcommand =>
    hcommands command hcommand ▸ ⟨haccepted.checkCommand, rfl⟩) (Nat.zero_le intMax)).mpr hlong
  exact Option.some_ne_none _ (hprint.symm.trans hnone)

end MemoryHierarchy
