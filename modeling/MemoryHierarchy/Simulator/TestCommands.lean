import MemoryHierarchy.Commands.Buffers
import MemoryHierarchy.Commands.Checked
import MemoryHierarchy.Commands.Print
import MemoryHierarchy.Lib.Legible

/-!
# The program printer

`test-commands.c`: the program is read, and printed. What it prints is read back as the same
commands (`exists_read_output`), so it is a canonical form: it is printed again as it is
(`main_idempotent`), and two files are printed alike exactly if they are read as the same commands
(`main_output_eq_iff`). The addresses it prints have sixteen digits, so reading its output takes
token buffers with room for the terminator.
-/

namespace MemoryHierarchy.TestCommands

open Lib

/-- `main` with one argument, where token buffers have `room` characters: its exit code, and what it
prints. It has no result where the file cannot be opened, because the program is then freed without
having been initialised, where a token buffer is overrun, and where the counter of `program_print`
overflows. -/
def main (room : ℕ) (calloc : Bool) (realloc : ℕ → ℕ → Realloc) (file : Option File) :
    Option (ℕ × List Byte) := do
  let input ← file
  let read ← programReadIn room calloc realloc (some input)
  if read.err = .errNone then
    -- it is not missing where no error is reported
    let pgm ← read.program
    let (_, output) ← programPrint pgm
    some (0, output)
  else some (0, [])

variable {room : ℕ} {calloc : Bool} {realloc realloc' : ℕ → ℕ → Realloc} {f : File}
  {command : Command} {commands : List Command} {line output : List Byte}

/-- A line denotes a command without reserved bits. -/
theorem reserved_of_denotes {G : Grammar} (h : Denotes G line command) :
    command.vaddr.reserved = 0 := by
  induction h with
  | read _ _ _ _ _ hvaddr _ => exact hvaddr.1
  | write _ _ _ _ _ _ _ _ _ hvaddr _ => exact hvaddr.1
  | mark _ _ _ _ ih => exact ih

/-- The commands that are read can be printed. -/
theorem printable_of_readsAs (h : ReadsAs f commands) :
    ∀ command ∈ commands, checkCommand command = .errNone ∧ command.vaddr.reserved = 0 := by
  induction h with
  | done => exact List.forall_mem_nil _
  | command _ hparse hcheck _ ih =>
    obtain ⟨line, rest, -, -, hdenotes⟩ := denotes_of_readCommand hparse hcheck
    exact List.forall_mem_cons.mpr ⟨⟨hcheck, reserved_of_denotes hdenotes⟩, ih⟩
  | mark _ _ _ ih => exact ih

/-- So the commands of a program that is read can be. -/
theorem printable_of_programReadIn {pgm : Program} {accesses : List ℕ}
    (h : programReadIn room calloc realloc (some f) =
      some { err := .errNone, program := some pgm, accesses := accesses }) :
    ∀ command ∈ pgm.commands, checkCommand command = .errNone ∧ command.vaddr.reserved = 0 := by
  obtain ⟨program, hprogram, hreads⟩ :=
    readsAs_of_programRead (programReadIn_eq_some_iff.mp h).1 rfl
  obtain rfl := Option.some.inj hprogram
  exact printable_of_readsAs hreads

/-- **What is printed** for commands that can be printed is read as these commands. -/
theorem exists_read_output
    (hcommands : ∀ command ∈ commands,
      checkCommand command = .errNone ∧ command.vaddr.reserved = 0)
    {err : ErrorCode} (hprint : printLoop 0 commands = some (err, output))
    (halloc : ∀ n k, realloc n k ≠ none) :
    ∃ program accesses, programRead true realloc (some (File.open output)) =
        some { err := .errNone, program := some program, accesses := accesses } ∧
      program.commands = commands := by
  obtain ⟨-, hlength, lines, rfl, hall⟩ := denotes_printLoop hcommands hprint
  have hnl : ∀ line ∈ lines, ch '\n' ∉ line := by
    intro line hline
    obtain ⟨_, hdenotes⟩ := exists_forall₂_iff.mp ⟨_, hall⟩ line hline
    exact hdenotes.nl_notMem (by decide)
  have hroom : lines.length ≤ maxLines := by
    have hle := hlength (by decide)
    rw [Nat.zero_add, ← hall.length_eq] at hle
    exact hle.trans (by decide)
  exact (programRead_lines_iff halloc hnl).mpr ⟨hall, hroom⟩

/-- A run that reads its file prints the commands. -/
theorem main_eq {pgm : Program} {accesses : List ℕ}
    (hread : programReadIn room calloc realloc (some f) =
      some { err := .errNone, program := some pgm, accesses := accesses }) :
    main room calloc realloc (some f) = (printLoop 0 pgm.commands).map fun x => (0, x.2) := by
  simp only [main, hread, Option.bind_eq_bind, Option.bind_some, if_true, programPrint]
  cases printLoop 0 pgm.commands <;> rfl

/-- What any run prints are commands. -/
theorem exists_of_main {code : ℕ} (h : main room calloc realloc (some f) = some (code, output)) :
    code = 0 ∧ ∃ commands err, (∀ command ∈ commands,
        checkCommand command = .errNone ∧ command.vaddr.reserved = 0) ∧
      printLoop 0 commands = some (err, output) := by
  obtain ⟨read, hread⟩ : ∃ read, programReadIn room calloc realloc (some f) = some read := by
    by_contra hnone
    rw [main, Option.bind_eq_bind, Option.bind_some,
      Option.eq_none_iff_forall_ne_some.mpr fun read hread => hnone ⟨read, hread⟩] at h
    cases h
  by_cases herr : read.err = .errNone
  · obtain ⟨pgm, hpgm, -⟩ := readsAs_of_programRead (programReadIn_eq_some_iff.mp hread).1 herr
    obtain ⟨err, program, accesses⟩ := read
    obtain rfl : err = .errNone := herr
    obtain rfl : program = some pgm := hpgm
    rw [main_eq hread, Option.map_eq_some_iff] at h
    obtain ⟨⟨err, text⟩, hprint, heq⟩ := h
    cases heq
    exact ⟨rfl, pgm.commands, err, printable_of_programReadIn hread, hprint⟩
  · simp only [main, hread, Option.bind_eq_bind, Option.bind_some, if_neg herr] at h
    cases h
    exact ⟨rfl, [], .errNone, List.forall_mem_nil _, rfl⟩

/-- **A canonical form.** Whatever the file holds that was printed, and whether it was read to its
end or not: what is printed is printed again as it is, where there is room for the terminator of an
address of sixteen digits. -/
theorem main_idempotent (room room' : ℕ) (calloc : Bool) (realloc realloc' : ℕ → ℕ → Realloc)
    (f : File) (code : ℕ) (output : List Byte)
    (h : main room calloc realloc (some f) = some (code, output))
    (hroom : maxSizeBuffer < room') (halloc : ∀ n k, realloc' n k ≠ none) :
    main room' true realloc' (some (File.open output)) = some (code, output) := by
  obtain ⟨rfl, commands, err, hcommands, hprint⟩ := exists_of_main h
  obtain ⟨pgm, accesses, hread, rfl⟩ := exists_read_output hcommands hprint halloc
  rw [main_eq ((programReadIn_of_lt hroom).trans hread), hprint]
  rfl

/-- The canonical form of `W DB 0x7f @0x13`, which the buffers of the source have room for. -/
theorem main_idempotent_byte :
    main (maxSizeBuffer + 1) true (fun _ _ => some fun _ => zeroCommand)
        (some (File.open (chars "W DB 0x7F @0x0000000000000013\n"))) =
      some (0, chars "W DB 0x7F @0x0000000000000013\n") := by
  have hmain : main maxSizeBuffer true (fun _ _ => some fun _ => zeroCommand)
      (some (File.open (textOf [chars "W DB 0x7f @0x13"]))) =
        some (0, chars "W DB 0x7F @0x0000000000000013\n") := by
    decide +kernel
  exact main_idempotent maxSizeBuffer _ true _ _ _ 0 _ hmain (Nat.lt_succ_self _) fun _ _ =>
    Option.some_ne_none _

/-- A file that is read, from what it is read as. -/
private theorem exists_read (room : ℕ) (realloc : ℕ → ℕ → Realloc) (text : List Byte)
    (commands : List Command)
    (h : ((programReadIn room true realloc (some (File.open text))).map fun read =>
      (read.err, read.program.map Program.commands)) = some (.errNone, some commands)) :
    ∃ pgm accesses, programReadIn room true realloc (some (File.open text)) =
        some { err := .errNone, program := some pgm, accesses := accesses } ∧
      pgm.commands = commands := by
  obtain ⟨⟨err, program, accesses⟩, hread, heq⟩ := Option.map_eq_some_iff.mp h
  obtain ⟨rfl, hprogram⟩ := Prod.mk.inj heq
  obtain ⟨pgm, rfl, hcommands⟩ := Option.map_eq_some_iff.mp hprogram
  exact ⟨pgm, accesses, hread, hcommands⟩

/-- The text is read without an error, and `output` is printed. -/
def Prints (room : ℕ) (realloc : ℕ → ℕ → Realloc) (text output : List Byte) : Prop :=
  ∃ pgm accesses, programReadIn room true realloc (some (File.open text)) =
      some { err := .errNone, program := some pgm, accesses := accesses } ∧
    main room true realloc (some (File.open text)) = some (0, output)

/-- What is printed for one command. -/
def commandText (command : Command) : List Byte :=
  match printCommand command with
  | .ok line => line
  | .error _ => []

/-- The loop prints one command after the other. -/
theorem printLoop_eq
    (hcommands : ∀ command ∈ commands,
      checkCommand command = .errNone ∧ command.vaddr.reserved = 0)
    {i : ℕ} (hroom : i + commands.length ≤ intMax) :
    printLoop i commands = some (.errNone, commands.flatMap commandText) := by
  induction commands generalizing i with
  | nil => rfl
  | cons command commands ih =>
    obtain ⟨⟨hcheck, hreserved⟩, hrest⟩ := List.forall_mem_cons.mp hcommands
    obtain ⟨line, hline, -⟩ := denotes_printCommand hcheck hreserved
    rw [List.length_cons] at hroom
    have hi : i ≠ intMax := by omega
    simp only [printLoop, hline, if_neg hi, ih hrest (i := i + 1) (by omega), Option.map_some,
      List.flatMap_cons, commandText]

theorem prints_iff (halloc : ∀ n k, realloc n k ≠ none) {lines : List (List Byte)}
    (hbuffer : HasRoom room lines) (hnl : ∀ line ∈ lines, ch '\n' ∉ line)
    (hroom : lines.length ≤ intMax) :
    Prints room realloc (textOf lines) output ↔
      ∃ commands, List.Forall₂ (Denotes parsedGrammar) lines commands ∧
        output = commands.flatMap commandText := by
  constructor
  · rintro ⟨pgm, accesses, hread, hmain⟩
    obtain ⟨hall, -⟩ := (programRead_lines_iff halloc hnl).mp
      ⟨pgm, accesses, (programReadIn_eq_some_iff.mp hread).1, rfl⟩
    refine ⟨pgm.commands, hall, ?_⟩
    rw [main_eq hread, printLoop_eq (printable_of_programReadIn hread)
      (by rw [Nat.zero_add, ← hall.length_eq]; exact hroom)] at hmain
    cases hmain
    rfl
  · rintro ⟨commands, hall, rfl⟩
    obtain ⟨pgm, accesses, hread, rfl⟩ := (programRead_lines_iff halloc hnl).mpr
      ⟨hall, hroom.trans (by decide)⟩
    have hread := programReadIn_of_hasRoom hbuffer hnl hread
    refine ⟨pgm, accesses, hread, ?_⟩
    rw [main_eq hread, printLoop_eq (printable_of_programReadIn hread)
      (by rw [Nat.zero_add, ← hall.length_eq]; exact hroom)]
    rfl

/-- **Files can be put together.** With memory to be had, and token buffers that have room for the
lines, two files of lines one after the other are read without an error exactly if both are, and
then the outputs are printed one after the other. -/
theorem main_append (room : ℕ) (realloc : ℕ → ℕ → Realloc) (halloc : ∀ n k, realloc n k ≠ none)
    (lines lines' : List (List Byte)) (hbuffer : HasRoom room (lines ++ lines'))
    (hnl : ∀ line ∈ lines, ch '\n' ∉ line) (hnl' : ∀ line ∈ lines', ch '\n' ∉ line)
    (hroom : lines.length + lines'.length ≤ intMax) (output : List Byte) :
    Prints room realloc (textOf lines ++ textOf lines') output ↔
      ∃ front back, Prints room realloc (textOf lines) front ∧
        Prints room realloc (textOf lines') back ∧ output = front ++ back := by
  have htext : textOf lines ++ textOf lines' = textOf (lines ++ lines') :=
    List.flatMap_append.symm
  have hlines : ∀ line ∈ lines ++ lines', ch '\n' ∉ line :=
    List.forall_mem_append.mpr ⟨hnl, hnl'⟩
  obtain ⟨hbuffer₁, hbuffer₂⟩ := hasRoom_append.mp hbuffer
  rw [htext, prints_iff halloc hbuffer hlines (by rwa [List.length_append])]
  simp only [prints_iff halloc hbuffer₁ hnl (show lines.length ≤ intMax by omega),
    prints_iff halloc hbuffer₂ hnl' (show lines'.length ≤ intMax by omega)]
  constructor
  · rintro ⟨commands, hall, rfl⟩
    have hfront := List.forall₂_take_append commands lines lines' hall.flip
    have hback := List.forall₂_drop_append commands lines lines' hall.flip
    refine ⟨_, _, ⟨_, hfront.flip, rfl⟩, ⟨_, hback.flip, rfl⟩, ?_⟩
    rw [← List.flatMap_append, List.take_append_drop]
  · rintro ⟨front, back, ⟨commands, hall, rfl⟩, ⟨commands', hall', rfl⟩, rfl⟩
    exact ⟨commands ++ commands', List.rel_append hall hall', List.flatMap_append.symm⟩

/-- A file with one line, and the same line behind a blank, in the buffers of the source. -/
theorem main_append_blank :
    Prints maxSizeBuffer (fun _ _ => some fun _ => zeroCommand)
      (textOf [chars "W DB 0x7f @0x13"] ++ textOf [chars " W DB 0x7f @0x13"])
      (chars "W DB 0x7F @0x0000000000000013\n" ++ chars "W DB 0x7F @0x0000000000000013\n") := by
  obtain ⟨pgm, accesses, hread, -⟩ := exists_read maxSizeBuffer
    (fun _ _ => some fun _ => zeroCommand) (textOf [chars "W DB 0x7f @0x13"])
    [⟨some .write, some .data, 1, 0x7F, ⟨0, 0, 0, 0, 0, 0x13⟩⟩] (by decide +kernel)
  obtain ⟨pgm', accesses', hread', -⟩ := exists_read maxSizeBuffer
    (fun _ _ => some fun _ => zeroCommand) (textOf [chars " W DB 0x7f @0x13"])
    [⟨some .write, some .data, 1, 0x7F, ⟨0, 0, 0, 0, 0, 0x13⟩⟩] (by decide +kernel)
  exact (main_append maxSizeBuffer (fun _ _ => some fun _ => zeroCommand)
    (fun _ _ => Option.some_ne_none _) [chars "W DB 0x7f @0x13"] [chars " W DB 0x7f @0x13"]
    (.inr ⟨le_rfl, by decide⟩) (by decide) (by decide) (by decide) _).mpr
    ⟨_, _, ⟨pgm, accesses, hread, by decide +kernel⟩, ⟨pgm', accesses', hread', by decide +kernel⟩,
      rfl⟩

end MemoryHierarchy.TestCommands
