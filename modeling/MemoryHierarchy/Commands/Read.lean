import MemoryHierarchy.Commands.Container
import MemoryHierarchy.Commands.Parse

/-!
# Reading a program

`program_read` of `commands.c`: its loop reads a command after the other until the stream has
ended. The result is an error code, the program and the log of the accesses to token buffers.

`programRead_iff` says what a successful call reads when memory never runs out, in terms of the
relation `ReadsAs` between the stream and a list of commands: those parsed one after the other,
marks of the end of the file being skipped. There is room for `maxLines` commands.
-/

namespace MemoryHierarchy

open Lib Lib.Traced

/-- What a call of `program_read` leaves: its error code, the program, if it was initialised, and
the indices at which token buffers were accessed. -/
structure ProgramRead where
  err : ErrorCode
  program : Option Program
  accesses : List ℕ

/-- The local variables of `program_read`; `adds` counts its calls of `program_add_command`. -/
structure ReadState where
  input : File
  program : Program
  accesses : List ℕ
  adds : ℕ

/-- The part of `program_read` after its loop, where its local `err` is `ERR_NONE`. -/
def finishRead (realloc : ℕ → Realloc) (s : ReadState) : Option ProgramRead :=
  if s.input.error then some { err := .errIo, program := some s.program, accesses := s.accesses }
  else
    (programShrink realloc s.program).map fun (err, program) =>
      { err := err, program := some program, accesses := s.accesses }

/-- One pass of the loop of `program_read`. `realloc n` gives the allocations of the `n`-th call of
`program_add_command`, and after the loop those of `program_shrink`. Leaving without a result means
that one of these calls does not return. -/
def readPass (realloc : ℕ → ℕ → Realloc) (s : ReadState) : Pass ReadState (Option ProgramRead) :=
  if s.input.ended then .leave (finishRead (realloc s.adds) s)
  else
    let run := readCommand zeroCommand s.input
    let accesses := s.accesses ++ run.accesses
    match run.result with
    | .error err =>
      .leave (some { err := err, program := some s.program, accesses := accesses })
    | .ok (newC, validCommand) =>
      if validCommand then
        match programAddCommand (realloc s.adds) s.program newC with
        | none => .leave none
        | some (err, program) =>
          if err = .errNone then
            .again
              { input := run.state, program := program, accesses := accesses, adds := s.adds + 1 }
          else .leave (some { err := err, program := some program, accesses := accesses })
      else .again { s with input := run.state, accesses := accesses }

variable (realloc : ℕ → ℕ → Realloc) {s t : ReadState} {newC : Command} {f f' : File}

theorem readPass_ended (hended : s.input.ended = true) :
    readPass realloc s = .leave (finishRead (realloc s.adds) s) := by
  rw [readPass, if_pos hended]

/-- A pass that parses a command adds it to the program. -/
theorem readPass_command (hended : s.input.ended = false)
    (h : Yields (readCommand zeroCommand) s.input (newC, true) f') :
    readPass realloc s =
      match programAddCommand (realloc s.adds) s.program newC with
      | none => .leave none
      | some (err, program) =>
        let accesses := s.accesses ++ (readCommand zeroCommand s.input).accesses
        if err = .errNone then
          .again { input := f', program := program, accesses := accesses, adds := s.adds + 1 }
        else .leave (some { err := err, program := some program, accesses := accesses }) := by
  rw [readPass, if_neg (by simp [hended])]
  simp only [h.1, h.2, if_true]

/-- A pass that parses a mark of the end of the file changes nothing else. -/
theorem readPass_mark (hended : s.input.ended = false)
    (h : Yields (readCommand zeroCommand) s.input (newC, false) f') :
    readPass realloc s = .again
      { s with
        input := f'
        accesses := s.accesses ++ (readCommand zeroCommand s.input).accesses } := by
  rw [readPass, if_neg (by simp [hended])]
  simp only [h.1, h.2, Bool.false_eq_true, if_false]

/-- A pass that parses nothing leaves the loop with an error. -/
theorem readPass_error (hended : s.input.ended = false)
    (h : ∀ newC valid f', ¬ Yields (readCommand zeroCommand) s.input (newC, valid) f') :
    ∃ err, err ≠ .errNone ∧ readPass realloc s = .leave (some
      { err := err
        program := some s.program
        accesses := s.accesses ++ (readCommand zeroCommand s.input).accesses }) := by
  rcases hresult : (readCommand zeroCommand s.input).result with err | ⟨newC, valid⟩
  · refine ⟨err, errorsIn_readCommand err hresult, ?_⟩
    rw [readPass, if_neg (by simp [hended])]
    simp only [hresult]
  · exact absurd ⟨hresult, rfl⟩ (h newC valid _)

variable {realloc}

theorem readPass_left (h : readPass realloc s = .again t) : t.input.left < s.input.left := by
  rcases hended : s.input.ended with _ | _
  · by_cases hparse : ∃ newC valid f', Yields (readCommand zeroCommand) s.input (newC, valid) f'
    · obtain ⟨newC, valid, f', hyields⟩ := hparse
      have hlt := left_of_readCommand hended hyields
      rcases valid with _ | _
      · rw [readPass_mark realloc hended hyields] at h
        cases h
        exact hlt
      · rw [readPass_command realloc hended hyields] at h
        split at h
        · cases h
        · dsimp only at h
          split_ifs at h
          cases h
          exact hlt
    · simp only [not_exists] at hparse
      obtain ⟨err, -, hleave⟩ := readPass_error realloc hended hparse
      cases hleave.symm.trans h
  · rw [readPass_ended realloc hended] at h
    cases h

/-- The loop of `program_read`. -/
def readLoop (realloc : ℕ → ℕ → Realloc) (s : ReadState) : Option ProgramRead :=
  loop (readPass realloc) (fun s => s.input.left) (fun _ _ => readPass_left) s

/-- `program_read`, where `file` is what `fopen` returns. The stream delivers its bytes and then
the end of the file or a read error. -/
def programRead (calloc : Bool) (realloc : ℕ → ℕ → Realloc) (file : Option File) :
    Option ProgramRead :=
  match file with
  | none => some { err := .errBadParameter, program := none, accesses := [] }
  | some input =>
    match programInit calloc with
    | .error err => some { err := err, program := none, accesses := [] }
    | .ok program =>
      readLoop realloc { input := input, program := program, accesses := [], adds := 0 }

/-! ### Room for the commands -/

/-- The array starts with `START_COMMANDS_ALLOCATED` slots and only ever doubles. -/
def Program.Doubled (program : Program) : Prop :=
  ∃ k ≤ 55, program.allocated = startCommandsAllocated * 2 ^ k * commandSize

/-- The slots of the largest array a program is read into. -/
abbrev maxLines : ℕ := startCommandsAllocated * 2 ^ 55

variable {program program' : Program} {command : Command} {alloc : ℕ → Realloc}

theorem Program.Doubled.nbLines_le (h : program.Doubled) (hsound : program.Sound) :
    program.nbLines ≤ maxLines := by
  obtain ⟨k, hk, hallocated⟩ := h
  have hfits := hsound.fits
  have hpow : 2 ^ k ≤ 2 ^ 55 := Nat.pow_le_pow_right (by decide) hk
  rw [hallocated] at hfits
  exact (Nat.le_of_mul_le_mul_right hfits (by decide)).trans (Nat.mul_le_mul_left _ hpow)

/-- Doubling an array with one of the sizes. -/
private theorem doubled_programResize {realloc : Realloc} (h : program.Doubled)
    (hresize : programResize realloc program (sizeT (2 * (program.allocated / commandSize))) =
      (.errNone, program')) : program'.Doubled := by
  obtain ⟨k, hk, hallocated⟩ := h
  have hslots : program.allocated / commandSize = startCommandsAllocated * 2 ^ k := by
    rw [hallocated, Nat.mul_div_cancel _ (by decide)]
  have hpow : 2 ^ k ≤ 2 ^ 55 := Nat.pow_le_pow_right (by decide) hk
  have hsize : sizeT (2 * (program.allocated / commandSize)) =
      startCommandsAllocated * 2 ^ (k + 1) := by
    rw [hslots, sizeT, pow_succ, Nat.mod_eq_of_lt (by simp only [startCommandsAllocated]; omega)]
    ring
  rw [hsize] at hresize
  rcases programResize_cases realloc program (startCommandsAllocated * 2 ^ (k + 1)) with
    ⟨-, hno⟩ | ⟨hn, fresh, -, hyes⟩
  · cases hno.symm.trans hresize
  · cases hyes.symm.trans hresize
    refine ⟨k + 1, ?_, rfl⟩
    have hlt : 2 ^ (k + 1) < 2 ^ 56 := by
      simp only [startCommandsAllocated, sizeMax, commandSize] at hn
      omega
    exact Nat.le_of_lt_succ ((Nat.pow_lt_pow_iff_right (by decide)).mp hlt)

private theorem doubled_growLoop (h : program.Doubled) (fuel k : ℕ)
    (hgrow : growLoop alloc fuel k program = some (.errNone, program')) : program'.Doubled := by
  induction fuel generalizing program k with
  | zero => cases hgrow
  | succ fuel ih =>
    rw [growLoop] at hgrow
    split_ifs at hgrow with hfull
    · rcases hresize : programResize (alloc k) program
        (sizeT (2 * (program.allocated / commandSize))) with ⟨err, program₁⟩
      simp only [hresize] at hgrow
      split_ifs at hgrow with herr
      · exact ih (doubled_programResize h (herr ▸ hresize)) (k + 1) hgrow
      · cases hgrow
    · cases hgrow
      exact h

theorem doubled_programAddCommand (h : program.Doubled)
    (hadd : programAddCommand alloc program command = some (.errNone, program')) :
    program'.Doubled := by
  rw [programAddCommand] at hadd
  split_ifs at hadd with hcheck hlines
  · simp only [Option.some.injEq, Prod.mk.injEq] at hadd
    exact absurd hadd.1 hcheck
  · rcases hgrow : growLoop alloc maxPasses 0 program with _ | ⟨err, program₁⟩
    · rw [hgrow] at hadd
      cases hadd
    · simp only [hgrow, Option.map_some, Option.some.injEq] at hadd
      split_ifs at hadd with herr
      · cases hadd
        obtain ⟨k, hk, hallocated⟩ := doubled_growLoop h _ _ (herr ▸ hgrow)
        exact ⟨k, hk, hallocated⟩
      · cases hadd
        exact absurd rfl herr
  · cases hadd

/-- With memory to be had a command is accepted exactly when it passes its checks and there are
fewer than `maxLines` commands. -/
theorem Program.Doubled.accepts_iff (h : program.Doubled) (hsound : program.Sound)
    (halloc : alloc 0 ≠ none) :
    program.Accepts (alloc 0) command ↔
      checkCommand command = .errNone ∧ program.nbLines < maxLines := by
  obtain ⟨k, hk, hallocated⟩ := h
  have hslots : program.allocated / commandSize = startCommandsAllocated * 2 ^ k := by
    rw [hallocated, Nat.mul_div_cancel _ (by decide)]
  have hfits := hsound.fits
  have hpow : 2 ^ k ≤ 2 ^ 55 := Nat.pow_le_pow_right (by decide) hk
  rw [Program.Accepts, Program.HasSlot, hslots]
  refine and_congr_right fun _ => ?_
  simp only [hallocated, commandSize, startCommandsAllocated, sizeMax, maxLines] at hfits ⊢
  refine ⟨?_, fun hlt => ⟨by omega, ?_⟩⟩
  · rintro ⟨-, hfree | ⟨hdouble, -⟩⟩
    · omega
    · omega
  · by_cases hfree : program.nbLines * 32 < 10 * 2 ^ k * 32
    · exact .inl hfree
    · have hlt55 : 2 ^ k < 2 ^ 55 := by omega
      have hk55 : k < 55 := (Nat.pow_lt_pow_iff_right (by decide)).mp hlt55
      have hpow54 : 2 ^ k ≤ 2 ^ 54 := Nat.pow_le_pow_right (by decide) (Nat.le_of_lt_succ hk55)
      exact .inr ⟨by omega, halloc⟩

/-! ### What is read -/

/-- The stream is read to its end as the given commands, all of which pass their checks. -/
inductive ReadsAs : File → List Command → Prop
  | done {f : File} (hended : f.ended = true) (herror : f.error = false) : ReadsAs f []
  | command {f f' : File} {newC : Command} {commands : List Command} (hended : f.ended = false)
      (hparse : Yields (readCommand zeroCommand) f (newC, true) f')
      (hcheck : checkCommand newC = .errNone) (hrest : ReadsAs f' commands) :
      ReadsAs f (newC :: commands)
  | mark {f f' : File} {newC : Command} {commands : List Command} (hended : f.ended = false)
      (hparse : Yields (readCommand zeroCommand) f (newC, false) f')
      (hrest : ReadsAs f' commands) : ReadsAs f commands

/-- The invariant of the loop: the commands read so far are in the program, and what is left of the
stream is to be read as the rest. -/
private structure Reading (s t : ReadState) : Prop where
  sound : t.program.Sound
  doubled : t.program.Doubled
  reads : ∃ before, t.program.commands = s.program.commands ++ before ∧
    ∀ after, ReadsAs t.input after → ReadsAs s.input (before ++ after)

theorem length_commands (program : Program) : program.commands.length = program.nbLines := by
  rw [Program.commands, List.length_map, List.length_range]

/-- The state after a pass that reads up to `input`. -/
def ReadState.next (s : ReadState) (input : File) (program : Program) (adds : ℕ) :
    ReadState :=
  { input := input
    program := program
    accesses := s.accesses ++ (readCommand zeroCommand s.input).accesses
    adds := adds }

/-- **One pass**: the end of the loop, a mark, a command that is accepted, or an error. -/
theorem readPass_cases (hsound : s.program.Sound) (realloc : ℕ → ℕ → Realloc) :
    (s.input.ended = true ∧ readPass realloc s = .leave (finishRead (realloc s.adds) s)) ∨
    (s.input.ended = false ∧ ∃ newC f', Yields (readCommand zeroCommand) s.input (newC, false) f' ∧
      readPass realloc s = .again (s.next f' s.program s.adds)) ∨
    (s.input.ended = false ∧ ∃ newC f', Yields (readCommand zeroCommand) s.input (newC, true) f' ∧
      checkCommand newC = .errNone ∧ ∃ program',
        programAddCommand (realloc s.adds) s.program newC = some (.errNone, program') ∧
        program'.Sound ∧ program'.commands = s.program.commands ++ [newC] ∧
        readPass realloc s = .again (s.next f' program' (s.adds + 1))) ∨
    ∃ err program, err ≠ .errNone ∧ readPass realloc s = .leave (some
      { err := err
        program := some program
        accesses := s.accesses ++ (readCommand zeroCommand s.input).accesses }) := by
  rcases hended : s.input.ended with _ | _
  · right
    by_cases hparse : ∃ newC valid f', Yields (readCommand zeroCommand) s.input (newC, valid) f'
    · obtain ⟨newC, _ | _, f', hyields⟩ := hparse
      · exact .inl ⟨rfl, newC, f', hyields, readPass_mark realloc hended hyields⟩
      · right
        have hpass := readPass_command realloc hended hyields
        rcases programAddCommand_cases hsound (realloc s.adds) newC with
          ⟨-, err, herr, hadd⟩ | ⟨haccepts, program', hadd, hsound', -, hcommands, -⟩
        · simp only [hadd, if_neg herr] at hpass
          exact .inr ⟨err, _, herr, hpass⟩
        · simp only [hadd, if_true] at hpass
          exact .inl ⟨rfl, newC, f', hyields, haccepts.1, program', hadd, hsound', hcommands,
            hpass⟩
    · simp only [not_exists] at hparse
      obtain ⟨err, herr, hleave⟩ := readPass_error realloc hended hparse
      exact .inr (.inr ⟨err, _, herr, hleave⟩)
  · exact .inl ⟨rfl, readPass_ended realloc hended⟩

private theorem reading_again (h : Reading s t) {u : ReadState}
    (hpass : readPass realloc t = .again u) : Reading s u := by
  obtain ⟨hsound, hdoubled, before, hcommands, hreads⟩ := h
  rcases readPass_cases hsound realloc with ⟨-, hleave⟩ | ⟨hended, newC, f', hyields, hagain⟩ |
    ⟨hended, newC, f', hyields, hcheck, program', hadd, hsound', hcommands', hagain⟩ |
    ⟨err, program, -, hleave⟩
  · cases hleave.symm.trans hpass
  · cases hagain.symm.trans hpass
    exact ⟨hsound, hdoubled, before, hcommands, fun after hafter =>
      hreads after (.mark hended hyields hafter)⟩
  · cases hagain.symm.trans hpass
    refine ⟨hsound', doubled_programAddCommand hdoubled hadd, before ++ [newC], ?_,
      fun after hafter => ?_⟩
    · exact hcommands'.trans (by rw [hcommands, List.append_assoc])
    · rw [List.append_assoc]
      exact hreads _ (.command hended hyields hcheck hafter)
  · cases hleave.symm.trans hpass

/-- What `ReadsAs` makes of a result of the loop. -/
private def ReadWell (s : ReadState) (result : Option ProgramRead) : Prop :=
  ∀ program accesses, result =
      some { err := .errNone, program := some program, accesses := accesses } →
    ∃ commands, program.commands = s.program.commands ++ commands ∧ ReadsAs s.input commands ∧
      program.nbLines ≤ maxLines

private theorem readWell_of_err {err : ErrorCode} {program : Option Program} {accesses : List ℕ}
    (herr : err ≠ .errNone) :
    ReadWell s (some { err := err, program := program, accesses := accesses }) := by
  intro program' accesses' hresult
  rw [Option.some.injEq, ProgramRead.mk.injEq] at hresult
  exact absurd hresult.1 herr

private theorem reading_leave (h : Reading s t) {result : Option ProgramRead}
    (hpass : readPass realloc t = .leave result) : ReadWell s result := by
  obtain ⟨hsound, hdoubled, before, hcommands, hreads⟩ := h
  rcases readPass_cases hsound realloc with ⟨hended, hleave⟩ | ⟨-, newC, f', -, hagain⟩ |
    ⟨-, newC, f', -, -, program', -, -, -, hagain⟩ | ⟨err, program, herr, hleave⟩
  · cases hleave.symm.trans hpass
    rw [finishRead]
    split_ifs with herror
    · exact readWell_of_err (by decide)
    · rcases programShrink_cases hsound (realloc t.adds) with
        ⟨-, hshrink⟩ | ⟨program', hshrink, -, hcommands', hlines⟩
      · rw [hshrink]
        exact readWell_of_err (by decide)
      · intro program accesses hresult
        rw [hshrink, Option.map_some, Option.some.injEq, ProgramRead.mk.injEq] at hresult
        obtain rfl := Option.some.inj hresult.2.1
        refine ⟨before, hcommands'.trans hcommands, ?_, hlines ▸ hdoubled.nbLines_le hsound⟩
        simpa using hreads [] (.done hended (Bool.eq_false_iff.mpr herror))
  · cases hagain.symm.trans hpass
  · cases hagain.symm.trans hpass
  · cases hleave.symm.trans hpass
    exact readWell_of_err herr

/-- **Soundness.** A program that was read is what `ReadsAs` says. -/
theorem readsAs_of_readLoop {accesses : List ℕ} (hsound : s.program.Sound)
    (hdoubled : s.program.Doubled)
    (h : readLoop realloc s =
      some { err := .errNone, program := some program, accesses := accesses }) :
    ∃ commands, program.commands = s.program.commands ++ commands ∧ ReadsAs s.input commands ∧
      program.nbLines ≤ maxLines :=
  have hwell : ReadWell s (readLoop realloc s) :=
    loop_of_invariant (I := Reading s) (fun _ _ h => reading_again h)
      (fun _ _ h => reading_leave h)
      ⟨hsound, hdoubled, [], (List.append_nil _).symm, fun _ hafter => hafter⟩
  hwell program accesses h

/-- **Completeness.** With memory to be had, and room in the array, such a stream is read. -/
theorem exists_readLoop {commands : List Command} (hreads : ReadsAs s.input commands)
    (halloc : ∀ n k, realloc n k ≠ none) (hsound : s.program.Sound) (hdoubled : s.program.Doubled)
    (hroom : s.program.nbLines + commands.length ≤ maxLines) :
    ∃ program accesses, readLoop realloc s =
        some { err := .errNone, program := some program, accesses := accesses } ∧
      program.commands = s.program.commands ++ commands := by
  obtain ⟨input, program, accesses, adds⟩ := s
  simp only at hreads hsound hdoubled hroom ⊢
  induction hreads generalizing program accesses adds with
  | done hended herror =>
    obtain ⟨program', hshrink, -, hcommands, -⟩ :=
      (programShrink_cases hsound (realloc adds)).resolve_left fun h => halloc adds 0 h.1
    refine ⟨program', accesses, ?_, by rw [hcommands, List.append_nil]⟩
    rw [readLoop, loop_leave (readPass_ended realloc hended), finishRead, if_neg (by simp [herror]),
      hshrink]
    rfl
  | @command f f' newC commands hended hparse hcheck hrest ih =>
    have hlt : program.nbLines < maxLines := by
      rw [List.length_cons] at hroom
      omega
    have haccepts := (hdoubled.accepts_iff hsound (halloc adds 0)).mpr ⟨hcheck, hlt⟩
    rcases programAddCommand_cases hsound (realloc adds) newC with
      ⟨hrefused, -⟩ | ⟨-, program', hadd, hsound', hlines, hcommands, -⟩
    · exact absurd haccepts hrefused
    · have hpass := readPass_command realloc
        (s := { input := f, program := program, accesses := accesses, adds := adds }) hended hparse
      simp only [hadd, if_true] at hpass
      rw [List.length_cons] at hroom
      obtain ⟨program₁, accesses₁, hloop, hcommands₁⟩ := ih program' _ (adds + 1) hsound'
        (doubled_programAddCommand hdoubled hadd) (by omega)
      refine ⟨program₁, accesses₁, ?_, ?_⟩
      · rw [readLoop, loop_again hpass]
        exact hloop
      · rw [hcommands₁, hcommands, List.append_assoc]
        rfl
  | @mark f f' newC commands hended hparse hrest ih =>
    have hpass := readPass_mark realloc
      (s := { input := f, program := program, accesses := accesses, adds := adds }) hended hparse
    obtain ⟨program₁, accesses₁, hloop, hcommands₁⟩ := ih program _ adds hsound hdoubled hroom
    refine ⟨program₁, accesses₁, ?_, hcommands₁⟩
    rw [readLoop, loop_again hpass]
    exact hloop

theorem sound_of_programInit {init : Program} (h : programInit true = .ok init) :
    init.Sound ∧ init.Doubled ∧ init.commands = [] ∧ init.nbLines = 0 := by
  obtain ⟨hsound, hempty⟩ := sound_programInit h
  obtain rfl := Except.ok.inj h
  exact ⟨hsound, ⟨0, by decide, rfl⟩, hempty, rfl⟩

/-- Whatever the loop ends with has a program. -/
private theorem exists_program_of_readPass {read : ProgramRead}
    (h : readPass realloc t = .leave (some read)) : ∃ program, read.program = some program := by
  rw [readPass] at h
  split_ifs at h
  · rw [Pass.leave.injEq, finishRead] at h
    split_ifs at h
    · cases h
      exact ⟨_, rfl⟩
    · obtain ⟨⟨err, program⟩, -, rfl⟩ := Option.map_eq_some_iff.mp h
      exact ⟨program, rfl⟩
  · dsimp only at h
    split at h
    · cases h
      exact ⟨_, rfl⟩
    · split_ifs at h
      split at h
      · cases h
      · split_ifs at h
        cases h
        exact ⟨_, rfl⟩

/-- A program was initialised unless `program_read` fails. -/
theorem exists_program_of_programRead {file : Option File} {read : ProgramRead}
    (h : programRead true realloc file = some read) (herr : read.err = .errNone) :
    ∃ program, read.program = some program := by
  rcases file with _ | f
  · cases h
    cases herr
  · have hloop : ∀ s : ReadState, ∀ read, readLoop realloc s = some read →
        ∃ program, read.program = some program := fun s =>
      loop_of_invariant (I := fun _ => True) (Q := fun result => ∀ read, result = some read →
          ∃ program, read.program = some program) (fun _ _ _ _ => trivial)
        (fun _ _ _ hpass _ hread => exists_program_of_readPass (hread ▸ hpass)) trivial
    exact hloop _ _ h

/-- **What `program_read` reads** when memory never runs out. -/
theorem programRead_iff (halloc : ∀ n k, realloc n k ≠ none) {commands : List Command} :
    (∃ program accesses, programRead true realloc (some f) =
        some { err := .errNone, program := some program, accesses := accesses } ∧
      program.commands = commands) ↔
    ReadsAs f commands ∧ commands.length ≤ maxLines := by
  obtain ⟨init, hinit⟩ : ∃ init, programInit true = .ok init := ⟨_, rfl⟩
  obtain ⟨hsound, hdoubled, hempty, hlines⟩ := sound_of_programInit hinit
  have hread : programRead true realloc (some f) =
      readLoop realloc { input := f, program := init, accesses := [], adds := 0 } := by
    rw [programRead, hinit]
  rw [hread]
  constructor
  · rintro ⟨program, accesses, hloop, rfl⟩
    obtain ⟨commands, hcommands, hreads, hbound⟩ := readsAs_of_readLoop hsound hdoubled hloop
    rw [hempty, List.nil_append] at hcommands
    rw [length_commands, hcommands]
    exact ⟨hreads, hbound⟩
  · rintro ⟨hreads, hbound⟩
    obtain ⟨program, accesses, hloop, hcommands⟩ :=
      exists_readLoop (s := { input := f, program := init, accesses := [], adds := 0 }) hreads
        halloc hsound hdoubled (by rwa [hlines, Nat.zero_add])
    exact ⟨program, accesses, hloop, by rw [hcommands, hempty, List.nil_append]⟩

end MemoryHierarchy
