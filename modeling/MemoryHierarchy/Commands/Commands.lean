import MemoryHierarchy.Cache.CacheMng

/-!
# Programs

The types of `commands.h` and the functions of `commands.c` that manage the array of commands of a
program. Sizes are of type `size_t`: natural numbers, with the wrap-around at `2 ^ 64` written out
where an expression could reach it (`sizeT`). What an allocation returns is an argument of the
functions that allocate.
-/

namespace MemoryHierarchy

open Function

/-- `command_word_t`. -/
inductive CommandWord
  | read
  | write
  deriving DecidableEq

/-- `command_t`. A field of an enumerated type may hold a number that is none of the enumerators;
it is then `none`. -/
structure Command where
  order : Option CommandWord
  type : Option MemAccess
  dataSize : BitVec 64
  writeData : Word
  vaddr : VirtAddr
  deriving DecidableEq

/-- `program_t`. The array has `allocated / sizeof(command_t)` slots; of what `listing` holds, only
those count. -/
structure Program where
  listing : ℕ → Command
  nbLines : ℕ
  allocated : ℕ

/-- The commands of a program: the first `nb_lines` slots of its array. -/
def Program.commands (program : Program) : List Command :=
  (List.range program.nbLines).map program.listing

/-- `sizeof(command_t)`. -/
abbrev commandSize : ℕ := 32

/-- `SIZE_MAX`. -/
abbrev sizeMax : ℕ := 2 ^ 64 - 1

/-- The value a `size_t` holds for `n`. -/
def sizeT (n : ℕ) : ℕ := n % 2 ^ 64

/-- `START_COMMANDS_ALLOCATED`. -/
abbrev startCommandsAllocated : ℕ := 10

/-- The command with all its bytes zero. -/
def zeroCommand : Command where
  order := some .read
  type := some .instruction
  dataSize := 0
  writeData := 0
  vaddr := ⟨0, 0, 0, 0, 0, 0⟩

/-- `program_init`; `calloc` tells whether the allocation succeeded. Its failure is caught by
`M_REQUIRE_NON_NULL`, before the check that would return `ERR_MEM`. -/
def programInit (calloc : Bool) : Except ErrorCode Program :=
  if calloc then
    .ok
      { listing := fun _ => zeroCommand
        nbLines := 0
        allocated := startCommandsAllocated * commandSize }
  else .error .errBadParameter

/-- What a call of `realloc` did: it failed, or returned a block that holds these commands behind
the ones copied from the old block. -/
abbrev Realloc := Option (ℕ → Command)

/-- `program_resize`. -/
def programResize (realloc : Realloc) (prog : Program) (newSize : ℕ) : ErrorCode × Program :=
  let allocated := sizeT (newSize * commandSize)
  if newSize > sizeMax / commandSize then (.errMem, prog)
  else
    match realloc with
    | none => (.errMem, prog)
    | some fresh =>
      (.errNone,
        { prog with
          listing := fun i =>
            if i < min prog.allocated allocated / commandSize then prog.listing i else fresh i
          allocated := allocated })

/-- The loop of `program_shrink`; `realloc k` is what the allocation of the `k`-th pass does.
Without result, the loop does not end within `fuel` passes. -/
def shrinkLoop (realloc : ℕ → Realloc) :
    ℕ → ℕ → Program → Option (ErrorCode × Program)
  | 0, _, _ => none
  | fuel + 1, k, program =>
    if program.allocated / commandSize > program.nbLines then
      let (err, program) := programResize (realloc k) program program.nbLines
      if err = .errNone then shrinkLoop realloc fuel (k + 1) program else some (.errMem, program)
    else some (.errNone, program)

/-- A bound on the passes of the two loops: an array of at least one slot that doubles with every
pass outgrows `SIZE_MAX` before. -/
abbrev maxPasses : ℕ := 65

/-- `program_shrink`. -/
def programShrink (realloc : ℕ → Realloc) (program : Program) : Option (ErrorCode × Program) :=
  if program.nbLines > 0 then shrinkLoop realloc maxPasses 0 program
  else
    let (err, program) := programResize (realloc 0) program startCommandsAllocated
    some (if err = .errNone then .errNone else .errMem, program)

/-- `BYTE_MAX`. -/
abbrev byteMax : ℕ := 32767

/-- The checks `program_add_command` makes on the command, in the order of the source. -/
def checkCommand (command : Command) : ErrorCode :=
  if command.type = none then .errBadParameter
  else if command.order = none then .errBadParameter
  else if command.order = some .read ∧ command.writeData.toNat > 0 then .errBadParameter
  else if ¬ (command.writeData.toNat ≤ byteMax ∨ command.dataSize = 4) then .errBadParameter
  else if ¬ (if command.type = some .instruction then command.dataSize = 4
      else command.dataSize = 1 ∨ command.dataSize = 4) then .errBadParameter
  else if command.type = some .instruction ∧ command.order = some .write then .errBadParameter
  else if command.vaddr.pageOffset.toNat % command.dataSize.toNat ≠ 0 then .errBadParameter
  else .errNone

/-- The loop of `program_add_command`, which doubles the array until there is a free slot. -/
def growLoop (realloc : ℕ → Realloc) : ℕ → ℕ → Program → Option (ErrorCode × Program)
  | 0, _, _ => none
  | fuel + 1, k, program =>
    if sizeT (program.nbLines * commandSize) ≥ program.allocated then
      let (err, program) :=
        programResize (realloc k) program (sizeT (2 * (program.allocated / commandSize)))
      if err = .errNone then growLoop realloc fuel (k + 1) program else some (.errMem, program)
    else some (.errNone, program)

/-- The last two statements of `program_add_command`. The number of lines cannot wrap, being below
`SIZE_MAX` there. -/
def Program.store (program : Program) (command : Command) : Program :=
  { program with
    listing := update program.listing program.nbLines command
    nbLines := program.nbLines + 1 }

/-- `program_add_command`. -/
def programAddCommand (realloc : ℕ → Realloc) (program : Program) (command : Command) :
    Option (ErrorCode × Program) :=
  if checkCommand command ≠ .errNone then some (checkCommand command, program)
  else if ¬ program.nbLines < sizeMax / commandSize then some (.errSize, program)
  else
    (growLoop realloc maxPasses 0 program).map fun (err, program) =>
      if err = .errNone then (.errNone, program.store command) else (err, program)

/-- A call of one of the two functions that change a program. -/
inductive ProgramOp
  | addCommand (command : Command)
  | shrink

/-- One call: its error code and the program it leaves. -/
def programCall (program : Program) : ProgramOp → (ℕ → Realloc) → Option (ErrorCode × Program)
  | .addCommand command, realloc => programAddCommand realloc program command
  | .shrink, realloc => programShrink realloc program

/-- A sequence of calls, each with what its allocations do. -/
def runProgram (program : Program) (calls : List (ProgramOp × (ℕ → Realloc))) : Option Program :=
  calls.foldlM (fun program call => (programCall program call.1 call.2).map Prod.snd) program

/-- The commands a sequence of calls accepts. -/
def acceptedCommands : Program → List (ProgramOp × (ℕ → Realloc)) → List Command
  | _, [] => []
  | program, (op, realloc) :: calls =>
    match programCall program op realloc with
    | none => []
    | some (err, program') =>
      (match op with
        | .addCommand command => if err = .errNone then [command] else []
        | .shrink => []) ++ acceptedCommands program' calls

end MemoryHierarchy
