import MemoryHierarchy.Addr.PageWalk
import MemoryHierarchy.Cache.System
import MemoryHierarchy.Commands.Container

/-!
# Commands that execute as written

`execute_command` of `test-cache.c` translates the address of a command and calls the cache
operation its fields select. The checks of `program_add_command` are what this relies on: the
operation is one on an aligned address, and the byte written is the value of the command. The
checks give all of it but the last, their bound on the value of a byte being that of 15 bits
(`executable_iff`); so a program is executable as written exactly when no call has stored a wider
byte (`stored_commands_executable`).
-/

namespace MemoryHierarchy

/-- The cache operation `execute_command` calls, after the page walk. -/
def executedOp (command : Command) (paddr : PhyAddr) : Option CacheOp :=
  match command.order with
  | some .read =>
    command.type.map fun access =>
      if command.dataSize = 4 then .read access paddr else .readByte access paddr
  | some .write =>
    some (if command.dataSize = 4 then .write paddr command.writeData
      else .writeByte paddr (command.writeData.setWidth 8))
  | none => none

/-- A command that can be executed and does then what it says. -/
structure Command.Executable (command : Command) : Prop where
  instruction : command.type = some .instruction →
    command.order = some .read ∧ command.dataSize = 4
  size : command.dataSize = 1 ∨ command.dataSize = 4
  read : command.order = some .read → command.writeData = 0
  byte : command.order = some .write → command.dataSize = 1 →
    command.writeData.toNat ≤ 0xFF ∧
      (command.writeData.setWidth 8).setWidth 32 = command.writeData
  offset : command.vaddr.pageOffset.toNat % command.dataSize.toNat = 0
  executes : ∀ (s : CacheState) (paddr : PhyAddr), pageWalk s.memSpace command.vaddr = .ok paddr →
    ∃ op, executedOp command paddr = some op ∧ (executeCommand s op).2.err = .errNone

/-- A write of a byte, of a value that takes more than a byte and passes the checks. -/
def Command.WideByteWrite (command : Command) : Prop :=
  command.order = some .write ∧ command.type = some .data ∧ command.dataSize = 1 ∧
    0xFF < command.writeData.toNat ∧ command.writeData.toNat ≤ 0x7FFF

instance (command : Command) : Decidable command.WideByteWrite :=
  inferInstanceAs (Decidable (_ ∧ _ ∧ _ ∧ _ ∧ _))

variable {program : Program} {command : Command}

/-- A guard that returns an error code. -/
theorem guard_eq_errNone_iff {p : Prop} [Decidable p] {err : ErrorCode} :
    (if p then .errBadParameter else err) = ErrorCode.errNone ↔ ¬ p ∧ err = .errNone := by
  split_ifs with hp <;> simp [hp]

/-- The checks of `program_add_command`, as one condition. -/
theorem checkCommand_eq_errNone_iff :
    checkCommand command = .errNone ↔
      (∃ access, command.type = some access) ∧ (∃ order, command.order = some order) ∧
        (command.order = some .read → command.writeData.toNat = 0) ∧
        (command.writeData.toNat ≤ byteMax ∨ command.dataSize = 4) ∧
        (if command.type = some .instruction then command.dataSize = 4
          else command.dataSize = 1 ∨ command.dataSize = 4) ∧
        ¬ (command.type = some .instruction ∧ command.order = some .write) ∧
        command.vaddr.pageOffset.toNat % command.dataSize.toNat = 0 := by
  simp only [checkCommand, guard_eq_errNone_iff, ← ne_eq, Option.ne_none_iff_exists', not_and,
    Nat.pos_iff_ne_zero, not_not, and_true]

/-- The address of the operation is that of the command, in its page. -/
theorem executedOp_aligned {paddr : PhyAddr} {op : CacheOp}
    (hoffset : paddr.pageOffset.toNat % command.dataSize.toNat = 0)
    (hop : executedOp command paddr = some op) : op.Aligned := by
  have hword : command.dataSize = 4 → paddr.pageOffset.toNat % 4 = 0 := by
    intro h
    rwa [h] at hoffset
  rcases horder : command.order with _ | _ | _
  · simp [executedOp, horder] at hop
  · obtain ⟨access, -, rfl⟩ : ∃ access, command.type = some access ∧
        (if command.dataSize = 4 then CacheOp.read access paddr else .readByte access paddr) =
          op := by
      simpa [executedOp, horder] using hop
    split_ifs with h
    · exact hword h
    · exact wordAligned_aligned paddr
  · simp only [executedOp, horder, Option.some_inj] at hop
    subst hop
    split_ifs with h
    · exact hword h
    · exact wordAligned_aligned paddr

/-- **What the checks give**: everything, except for a byte write of a wide value. -/
theorem executable_iff (h : checkCommand command = .errNone) :
    command.Executable ↔ ¬ command.WideByteWrite := by
  obtain ⟨⟨access, htype⟩, ⟨order, horder⟩, hread, hwide, hsize, hinstr, hoffset⟩ :=
    checkCommand_eq_errNone_iff.mp h
  have hsize' : command.dataSize = 1 ∨ command.dataSize = 4 := by
    split_ifs at hsize with hi
    · exact .inr hsize
    · exact hsize
  constructor
  · intro hexec hbyte
    obtain ⟨hwrite, -, hone, hlarge, -⟩ := hbyte
    exact absurd (hexec.byte hwrite hone).1 (Nat.not_le_of_gt hlarge)
  · intro hnot
    refine ⟨fun hi => ?_, hsize', fun hr => BitVec.eq_of_toNat_eq (hread hr), fun hw hone => ?_,
      hoffset, fun s paddr hwalk => ?_⟩
    · rw [if_pos hi] at hsize
      refine ⟨?_, hsize⟩
      cases order with
      | read => exact horder
      | write => exact absurd ⟨hi, horder⟩ hinstr
    · -- a byte is data, and its value passed the bound
      have hdata : command.type = some .data := by
        cases access with
        | instruction => exact absurd ⟨htype, hw⟩ hinstr
        | data => exact htype
      have hbound : command.writeData.toNat ≤ 0x7FFF :=
        hwide.resolve_right (by rw [hone]; decide)
      have hle : command.writeData.toNat ≤ 0xFF :=
        Nat.le_of_not_gt fun hlarge => hnot ⟨hw, hdata, hone, hlarge, hbound⟩
      refine ⟨hle, BitVec.eq_of_toNat_eq ?_⟩
      rw [BitVec.toNat_setWidth, BitVec.toNat_setWidth]
      omega
    · have hpaddr : paddr.pageOffset = command.vaddr.pageOffset := by
        rw [pageWalk_eq, Except.ok.injEq] at hwalk
        rw [← hwalk]
      obtain ⟨op, hop⟩ : ∃ op, executedOp command paddr = some op := by
        cases order <;> simp [executedOp, horder, htype]
      exact ⟨op, hop, executeCommand_err (executedOp_aligned (hpaddr ▸ hoffset) hop)⟩

/-! ### Programs -/

/-- The command that a call accepted is the one it was asked to add, in a state that accepts it. -/
theorem mem_acceptedBy_iff (h : program.Sound) {op : ProgramOp} {realloc : ℕ → Realloc}
    {err : ErrorCode} {program' : Program} (hcall : programCall program op realloc =
      some (err, program')) :
    command ∈ acceptedBy op err ↔
      op = .addCommand command ∧ program.Accepts (realloc 0) command := by
  rcases op with command' | _
  · rcases programAddCommand_cases h realloc command' with
      ⟨hno, err', herr, hcall'⟩ | ⟨haccepts, program', hcall', -⟩
    · obtain rfl : err = err' := (Prod.mk.inj (Option.some.inj (hcall.symm.trans hcall'))).1
      simp only [acceptedBy, if_neg herr, List.not_mem_nil, false_iff, not_and]
      rintro heq haccepts
      exact hno (ProgramOp.addCommand.inj heq ▸ haccepts)
    · obtain rfl : err = .errNone := (Prod.mk.inj (Option.some.inj (hcall.symm.trans hcall'))).1
      simp only [acceptedBy, if_true, List.mem_singleton]
      refine ⟨fun heq => ?_, fun heq => (ProgramOp.addCommand.inj heq.1).symm⟩
      rw [heq]
      exact ⟨rfl, haccepts⟩
  · simp [acceptedBy]

/-- A command is among those accepted if some call added it in a state that accepted it. -/
theorem mem_acceptedCommands (h : program.Sound) {calls : List (ProgramOp × (ℕ → Realloc))} :
    command ∈ acceptedCommands program calls ↔
      ∃ before realloc after program', calls = before ++ (.addCommand command, realloc) :: after ∧
        runProgram program before = some program' ∧
        program'.Accepts (realloc 0) command := by
  induction calls generalizing program with
  | nil => simp [acceptedCommands]
  | cons call calls ih =>
    obtain ⟨op, realloc⟩ := call
    obtain ⟨err, program₁, hcall, hsound, -⟩ := programCall_cases h op realloc
    have hrun : ∀ before, runProgram program ((op, realloc) :: before) =
        runProgram program₁ before := by
      intro before
      rw [runProgram, List.foldlM_cons, hcall]
      rfl
    rw [acceptedCommands_cons hcall, List.mem_append, mem_acceptedBy_iff h hcall, ih hsound]
    constructor
    · rintro (⟨rfl, haccepts⟩ | ⟨before, realloc', after, program', rfl, hrun', haccepts⟩)
      · exact ⟨[], realloc, calls, program, rfl, rfl, haccepts⟩
      · exact ⟨(op, realloc) :: before, realloc', after, program', rfl, (hrun before).trans hrun',
          haccepts⟩
    · rintro ⟨before, realloc', after, program', heq, hrun', haccepts⟩
      cases before with
      | nil =>
        obtain ⟨hcall', -⟩ := List.cons.inj heq
        obtain ⟨rfl, rfl⟩ := Prod.mk.inj hcall'
        obtain rfl := Option.some.inj hrun'
        exact .inl ⟨rfl, haccepts⟩
      | cons call before =>
        obtain ⟨rfl, rfl⟩ := List.cons.inj heq
        exact .inr ⟨before, realloc', after, program', rfl, (hrun before).symm.trans hrun',
          haccepts⟩

/-- A slot can be found or made for one more line. -/
def Program.HasRoom (program : Program) (realloc : Realloc) : Prop :=
  program.nbLines < sizeMax / commandSize ∧ program.HasSlot realloc

/-- A wide byte passes the checks if its offset does, which every offset of a byte does. -/
theorem checkCommand_of_wideByteWrite (h : command.WideByteWrite) :
    checkCommand command = .errNone := by
  obtain ⟨hwrite, hdata, hone, -, hle⟩ := h
  refine checkCommand_eq_errNone_iff.mpr ⟨⟨_, hdata⟩, ⟨_, hwrite⟩, ?_, .inl hle, ?_, ?_, ?_⟩
  · rw [hwrite]
    exact nofun
  · rw [hdata, if_neg (by decide)]
    exact .inl hone
  · rw [hdata]
    exact fun hi => nomatch hi.1
  · rw [hone]
    exact Nat.mod_one _

/-- **Stored commands execute as written** exactly when no call was for a byte write of a value
above `0xFF` that passes the check of its value and found room. -/
theorem stored_commands_executable (init program : Program) (hinit : programInit true = .ok init)
    (calls : List (ProgramOp × (ℕ → Realloc))) (hrun : runProgram init calls = some program) :
    (∀ command ∈ program.commands, command.Executable) ↔
      ∀ before command realloc after program',
        calls = before ++ (.addCommand command, realloc) :: after →
        runProgram init before = some program' →
        ¬ (command.WideByteWrite ∧ program'.HasRoom (realloc 0)) := by
  obtain ⟨hsound, hempty⟩ := sound_programInit hinit
  obtain ⟨program₁, hrun₁, -, hcommands⟩ := exists_runProgram hsound calls
  obtain rfl := Option.some.inj (hrun₁.symm.trans hrun)
  rw [hcommands, hempty, List.nil_append]
  constructor
  · rintro h before command realloc after program' hcalls hbefore ⟨hwide, hroom⟩
    have hcheck := checkCommand_of_wideByteWrite hwide
    have hmem : command ∈ acceptedCommands init calls :=
      (mem_acceptedCommands hsound).mpr
        ⟨before, realloc, after, program', hcalls, hbefore, hcheck, hroom⟩
    exact (executable_iff hcheck).mp (h command hmem) hwide
  · intro h command hmem
    obtain ⟨before, realloc, after, program', hcalls, hbefore, hcheck, hroom⟩ :=
      (mem_acceptedCommands hsound).mp hmem
    exact (executable_iff hcheck).mpr fun hwide =>
      h before command realloc after program' hcalls hbefore ⟨hwide, hroom⟩

/-- The program with the single command `W DB 0xFF @0`. -/
theorem stored_commands_executable_byte :
    ∃ program, runProgram { listing := fun _ => zeroCommand, nbLines := 0, allocated := 320 }
        [(.addCommand ⟨some .write, some .data, 1, 0xFF, ⟨0, 0, 0, 0, 0, 0⟩⟩, fun _ => none)] =
          some program ∧
      ∀ command ∈ program.commands, command.Executable := by
  refine ⟨_, rfl, (stored_commands_executable _ _ rfl
    [(.addCommand ⟨some .write, some .data, 1, 0xFF, ⟨0, 0, 0, 0, 0, 0⟩⟩, fun _ => none)]
    rfl).mpr ?_⟩
  rintro before command realloc after program' hcalls - ⟨hwide, -⟩
  have hmem : (ProgramOp.addCommand command, realloc) ∈
      before ++ (.addCommand command, realloc) :: after := by simp
  rw [← hcalls, List.mem_singleton, Prod.mk.injEq, ProgramOp.addCommand.injEq] at hmem
  rw [hmem.1] at hwide
  exact absurd hwide (by decide)

/-- `W DB 0x100 @0` is stored, and written as the byte zero. -/
theorem not_stored_commands_executable :
    ¬ ∀ (init program : Program) (calls : List (ProgramOp × (ℕ → Realloc))),
      programInit true = .ok init → runProgram init calls = some program →
      ∀ command ∈ program.commands, command.Executable := by
  intro h
  have hexec := h _ _
    [(.addCommand ⟨some .write, some .data, 1, 0x100, ⟨0, 0, 0, 0, 0, 0⟩⟩, fun _ => none)] rfl rfl
    ⟨some .write, some .data, 1, 0x100, ⟨0, 0, 0, 0, 0, 0⟩⟩ (by decide +kernel)
  exact absurd (hexec.byte rfl rfl).1 (by decide)

end MemoryHierarchy
