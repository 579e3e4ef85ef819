import MemoryHierarchy.Commands.Executable
import MemoryHierarchy.Commands.Read

/-!
# Programs that have been read

What the simulators rely on: `program_read` always comes to an end, and the commands of a program
it has read pass the checks of `program_add_command`, whatever the allocations did on the way. Such
a command selects a cache operation, on an aligned address once it is translated.
-/

namespace MemoryHierarchy

open Lib Lib.Traced

variable {realloc : ℕ → ℕ → Realloc} {f : File} {command : Command}

/-- The commands of a stream have passed the checks. -/
theorem ReadsAs.checked {commands : List Command} (h : ReadsAs f commands) :
    ∀ command ∈ commands, checkCommand command = .errNone := by
  induction h with
  | done => exact nofun
  | command _ _ hcheck _ ih => exact List.forall_mem_cons.mpr ⟨hcheck, ih⟩
  | mark _ _ _ ih => exact ih

/-- **`program_read` comes to an end.** -/
theorem exists_programRead (calloc : Bool) (realloc : ℕ → ℕ → Realloc) (file : Option File) :
    ∃ read, programRead calloc realloc file = some read := by
  rcases file with _ | input
  · exact ⟨_, rfl⟩
  · rw [programRead]
    rcases calloc with _ | _
    · exact ⟨_, rfl⟩
    · have hsound := (sound_of_programInit rfl).1
      refine loop_of_invariant (I := fun s : ReadState => s.program.Sound)
        (Q := fun result => ∃ read, result = some read) (fun s t hs hpass => ?_)
        (fun s result hs hpass => ?_) hsound
      · rcases readPass_cases hs realloc with ⟨-, hleave⟩ | ⟨-, newC, f', -, hagain⟩ |
          ⟨-, newC, f', -, -, program', -, hsound', -, hagain⟩ | ⟨err, program, -, hleave⟩
        · cases hleave.symm.trans hpass
        · cases hagain.symm.trans hpass
          exact hs
        · cases hagain.symm.trans hpass
          exact hsound'
        · cases hleave.symm.trans hpass
      · rcases readPass_cases hs realloc with ⟨-, hleave⟩ | ⟨-, newC, f', -, hagain⟩ |
          ⟨-, newC, f', -, -, program', -, -, -, hagain⟩ | ⟨err, program, -, hleave⟩
        · cases hleave.symm.trans hpass
          rw [finishRead]
          split_ifs
          · exact ⟨_, rfl⟩
          · obtain ⟨-, hshrink⟩ | ⟨program', hshrink, -⟩ :=
              programShrink_cases hs (realloc s.adds)
            · exact ⟨_, by rw [hshrink]; rfl⟩
            · exact ⟨_, by rw [hshrink]; rfl⟩
        · cases hagain.symm.trans hpass
        · cases hagain.symm.trans hpass
        · cases hleave.symm.trans hpass
          exact ⟨_, rfl⟩

/-- **A program that was read** is there, and holds the commands of the stream. -/
theorem readsAs_of_programRead {calloc : Bool} {read : ProgramRead}
    (h : programRead calloc realloc (some f) = some read) (herr : read.err = .errNone) :
    ∃ program, read.program = some program ∧ ReadsAs f program.commands := by
  obtain ⟨err, program, accesses⟩ := read
  obtain rfl : err = .errNone := herr
  cases calloc with
  | false => cases h
  | true =>
    obtain ⟨program, rfl⟩ := exists_program_of_programRead h rfl
    obtain ⟨hsound, hdoubled, hempty, -⟩ := sound_of_programInit rfl
    obtain ⟨commands, hcommands, hreads, -⟩ := readsAs_of_readLoop hsound hdoubled h
    refine ⟨program, rfl, ?_⟩
    rwa [hcommands, hempty, List.nil_append]

/-- Its commands have passed the checks. -/
theorem checked_of_programRead {calloc : Bool} {file : Option File} {read : ProgramRead}
    (h : programRead calloc realloc file = some read) (herr : read.err = .errNone) :
    ∃ program, read.program = some program ∧
      ∀ command ∈ program.commands, checkCommand command = .errNone := by
  cases file with
  | none =>
    cases h
    cases herr
  | some f =>
    obtain ⟨program, hprogram, hreads⟩ := readsAs_of_programRead h herr
    exact ⟨program, hprogram, hreads.checked⟩

/-- **A command that passes the checks** selects an operation, aligned in its page. -/
theorem exists_executedOp (h : checkCommand command = .errNone) (paddr : PhyAddr)
    (hpaddr : paddr.pageOffset = command.vaddr.pageOffset) :
    ∃ op, executedOp command paddr = some op ∧ op.Aligned := by
  obtain ⟨⟨access, htype⟩, ⟨order, horder⟩, -, -, -, -, hoffset⟩ :=
    checkCommand_eq_errNone_iff.mp h
  obtain ⟨op, hop⟩ : ∃ op, executedOp command paddr = some op := by
    cases order <;> simp [executedOp, horder, htype]
  exact ⟨op, hop, executedOp_aligned (hpaddr ▸ hoffset) hop⟩

end MemoryHierarchy
