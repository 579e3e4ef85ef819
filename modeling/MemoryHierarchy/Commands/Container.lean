import MemoryHierarchy.Commands.Commands

/-!
# The array of a program

Over any sequence of additions and shrinks, whatever the allocations do, the array of a program has
at least one slot and room for its lines (`Program.Sound`). This is what ends the two loops: an
array of at least one slot doubles into a larger one, so one pass of `program_add_command` makes
the slot it needs. A call that fails changes nothing, and the lines are the commands accepted, in
order (`program_container`).
-/

namespace MemoryHierarchy

open Function

/-- The array has a slot, is made of whole slots, and has room for the lines. -/
structure Program.Sound (program : Program) : Prop where
  pos : 0 < program.allocated
  dvd : commandSize ∣ program.allocated
  fits : program.nbLines * commandSize ≤ program.allocated
  lt : program.allocated < 2 ^ 64

variable {program : Program} {realloc : ℕ → Realloc} {command : Command}

theorem Program.Sound.slots (h : program.Sound) :
    0 < program.allocated / commandSize ∧
      program.allocated / commandSize * commandSize = program.allocated := by
  have hmul := Nat.div_mul_cancel h.dvd
  exact ⟨Nat.pos_of_mul_pos_right (hmul.symm ▸ h.pos), hmul⟩

/-- The lines of a sound program do not wrap around as a number of bytes. -/
theorem Program.Sound.sizeT_lines (h : program.Sound) :
    sizeT (program.nbLines * commandSize) = program.nbLines * commandSize :=
  Nat.mod_eq_of_lt (h.fits.trans_lt h.lt)

theorem sound_programInit (h : programInit true = .ok program) :
    program.Sound ∧ program.commands = [] := by
  obtain rfl := Except.ok.inj h
  exact ⟨⟨by decide, by decide, by decide, by decide⟩, rfl⟩

/-! ### Resizing -/

theorem lt_of_le_sizeMax_div {n : ℕ} (h : n ≤ sizeMax / commandSize) :
    n * commandSize < 2 ^ 64 := by
  simp only [sizeMax, commandSize] at h ⊢
  omega

/-- The program with an array of `n` slots, the new ones as `fresh` has them. -/
def Program.resized (program : Program) (fresh : ℕ → Command) (n : ℕ) : Program :=
  { program with
    listing := fun i =>
      if i < min program.allocated (n * commandSize) / commandSize then program.listing i
      else fresh i
    allocated := n * commandSize }

/-- **`program_resize`** fails and changes nothing, or has the size asked for. -/
theorem programResize_cases (realloc : Realloc) (program : Program) (n : ℕ) :
    (¬ (n ≤ sizeMax / commandSize ∧ realloc ≠ none) ∧
      programResize realloc program n = (.errMem, program)) ∨
    (n ≤ sizeMax / commandSize ∧ ∃ fresh, realloc = some fresh ∧
      programResize realloc program n = (.errNone, program.resized fresh n)) := by
  by_cases hn : n > sizeMax / commandSize
  · left
    exact ⟨fun h => Nat.not_le_of_gt hn h.1, by simp only [programResize, if_pos hn]⟩
  · have hsize : sizeT (n * commandSize) = n * commandSize :=
      Nat.mod_eq_of_lt (lt_of_le_sizeMax_div (Nat.le_of_not_gt hn))
    rcases hrealloc : realloc with _ | fresh
    · left
      exact ⟨fun h => h.2 rfl, by simp only [programResize, if_neg hn]⟩
    · right
      refine ⟨Nat.le_of_not_gt hn, fresh, rfl, ?_⟩
      simp only [programResize, if_neg hn, hsize, Program.resized]

theorem commands_congr {program' : Program} (hlines : program'.nbLines = program.nbLines)
    (h : ∀ i < program.nbLines, program'.listing i = program.listing i) :
    program'.commands = program.commands := by
  rw [Program.commands, Program.commands, hlines]
  exact List.map_congr_left fun i hi => h i (List.mem_range.mp hi)

/-- Resizing to a size that has room for the lines keeps them. -/
theorem Program.Sound.resized (h : program.Sound) (fresh : ℕ → Command) {n : ℕ} (hpos : 0 < n)
    (hlines : program.nbLines ≤ n) (hn : n ≤ sizeMax / commandSize) :
    (program.resized fresh n).Sound ∧
      (program.resized fresh n).commands = program.commands := by
  have hfits := h.fits
  have hmin : program.nbLines ≤ min program.allocated (n * commandSize) / commandSize := by
    rw [Nat.le_div_iff_mul_le (by decide)]
    exact le_min hfits (Nat.mul_le_mul_right _ hlines)
  refine ⟨⟨Nat.mul_pos hpos (by decide), Nat.dvd_mul_left _ _, Nat.mul_le_mul_right _ hlines,
    ?_⟩, ?_⟩
  · exact lt_of_le_sizeMax_div hn
  · refine commands_congr rfl fun i hi => ?_
    exact if_pos (hi.trans_le hmin)

/-! ### Adding a command -/

/-- There is a free slot, or the array can be doubled. -/
def Program.HasSlot (program : Program) (realloc : Realloc) : Prop :=
  program.nbLines * commandSize < program.allocated ∨
    2 * (program.allocated / commandSize) ≤ sizeMax / commandSize ∧ realloc ≠ none

instance (program : Program) (realloc : Realloc) : Decidable (program.HasSlot realloc) :=
  inferInstanceAs (Decidable (_ ∨ _ ∧ _))

/-- With a free slot the loop makes no pass. -/
theorem growLoop_of_lt (h : program.Sound)
    (hlt : program.nbLines * commandSize < program.allocated) (fuel k : ℕ) :
    growLoop realloc (fuel + 1) k program = some (.errNone, program) := by
  rw [growLoop, h.sizeT_lines, if_neg (Nat.not_le_of_gt hlt)]

/-- **The growth loop** ends within two passes: it finds or makes a free slot, or changes
nothing. -/
theorem growLoop_cases (h : program.Sound) (realloc : ℕ → Realloc) (fuel k : ℕ) :
    (¬ program.HasSlot (realloc k) ∧
      growLoop realloc (fuel + 2) k program = some (.errMem, program)) ∨
    (program.HasSlot (realloc k) ∧ ∃ program',
      growLoop realloc (fuel + 2) k program = some (.errNone, program') ∧ program'.Sound ∧
        program'.nbLines = program.nbLines ∧ program'.commands = program.commands ∧
        program'.nbLines * commandSize < program'.allocated) := by
  by_cases hlt : program.nbLines * commandSize < program.allocated
  · right
    exact ⟨.inl hlt, program, growLoop_of_lt h hlt (fuel + 1) k, h, rfl, rfl, hlt⟩
  obtain ⟨hslots, hmul⟩ := h.slots
  have hfits := h.fits
  have hdouble : sizeT (2 * (program.allocated / commandSize)) =
      2 * (program.allocated / commandSize) := by
    have hlt64 := h.lt
    refine Nat.mod_eq_of_lt ?_
    simp only [commandSize]
    omega
  have hpass : growLoop realloc (fuel + 2) k program =
      (if (programResize (realloc k) program (2 * (program.allocated / commandSize))).1 = .errNone
        then growLoop realloc (fuel + 1) (k + 1)
          (programResize (realloc k) program (2 * (program.allocated / commandSize))).2
        else some (.errMem,
          (programResize (realloc k) program (2 * (program.allocated / commandSize))).2)) := by
    rw [growLoop, h.sizeT_lines, if_pos (Nat.le_of_not_gt hlt), hdouble]
  rcases programResize_cases (realloc k) program (2 * (program.allocated / commandSize)) with
    ⟨hno, hresize⟩ | ⟨hn, fresh, hrealloc, hresize⟩
  · left
    refine ⟨fun hslot => hno (hslot.resolve_left hlt), ?_⟩
    rw [hpass, hresize]
    rfl
  · right
    have hlines : program.nbLines ≤ program.allocated / commandSize :=
      (Nat.le_div_iff_mul_le (by decide)).mpr hfits
    have hsound := h.resized fresh (n := 2 * (program.allocated / commandSize)) (by omega)
      (by omega) hn
    -- the lines fill the old array, which has at least one slot
    have hfree : program.nbLines * commandSize <
        2 * (program.allocated / commandSize) * commandSize :=
      Nat.mul_lt_mul_of_pos_right (by omega) (by decide)
    refine ⟨.inr ⟨hn, by rw [hrealloc]; exact Option.some_ne_none _⟩,
      program.resized fresh (2 * (program.allocated / commandSize)), ?_, hsound.1, rfl, hsound.2,
      hfree⟩
    rw [hpass, hresize, if_pos rfl]
    exact growLoop_of_lt hsound.1 hfree fuel (k + 1)

/-- The conditions under which a command is accepted. -/
def Program.Accepts (program : Program) (realloc : Realloc) (command : Command) : Prop :=
  checkCommand command = .errNone ∧ program.nbLines < sizeMax / commandSize ∧
    program.HasSlot realloc

instance (program : Program) (realloc : Realloc) (command : Command) :
    Decidable (program.Accepts realloc command) :=
  inferInstanceAs (Decidable (_ ∧ _ ∧ _))

/-- Storing in the slot after the last line appends a line. -/
theorem commands_store (program : Program) (command : Command) :
    (program.store command).commands = program.commands ++ [command] := by
  rw [Program.commands, Program.commands, Program.store, List.range_succ, List.map_append,
    List.map_singleton]
  refine congrArg₂ (· ++ ·) (List.map_congr_left fun i hi => ?_) ?_
  · exact update_of_ne (Nat.ne_of_lt (List.mem_range.mp hi)) _ _
  · exact congrArg ([·]) (update_self _ _ _)

/-- **`program_add_command`** appends the command, in a slot of the array, or fails and changes
nothing. -/
theorem programAddCommand_cases (h : program.Sound) (realloc : ℕ → Realloc) (command : Command) :
    (¬ program.Accepts (realloc 0) command ∧ ∃ err ≠ .errNone,
      programAddCommand realloc program command = some (err, program)) ∨
    (program.Accepts (realloc 0) command ∧ ∃ program',
      programAddCommand realloc program command = some (.errNone, program') ∧ program'.Sound ∧
        program'.nbLines = program.nbLines + 1 ∧
        program'.commands = program.commands ++ [command] ∧
        program.nbLines < program'.allocated / commandSize) := by
  by_cases hcheck : checkCommand command = .errNone
  swap
  · left
    refine ⟨fun haccept => hcheck haccept.1, checkCommand command, hcheck, ?_⟩
    rw [programAddCommand, if_pos hcheck]
  by_cases hlines : program.nbLines < sizeMax / commandSize
  swap
  · left
    refine ⟨fun haccept => hlines haccept.2.1, .errSize, by decide, ?_⟩
    rw [programAddCommand, if_neg (not_not.mpr hcheck), if_pos hlines]
  rcases growLoop_cases h realloc 63 0 with ⟨hno, hgrow⟩ |
    ⟨hslot, program', hgrow, hsound, hsame, hcommands, hfree⟩
  · left
    refine ⟨fun haccept => hno haccept.2.2, .errMem, by decide, ?_⟩
    rw [programAddCommand, if_neg (not_not.mpr hcheck), if_neg (not_not.mpr hlines), hgrow]
    rfl
  · right
    refine ⟨⟨hcheck, hlines, hslot⟩, program'.store command, ?_, ?_, ?_, ?_, ?_⟩
    · rw [programAddCommand, if_neg (not_not.mpr hcheck), if_neg (not_not.mpr hlines), hgrow,
        Option.map_some]
      rfl
    · obtain ⟨-, hmul⟩ := hsound.slots
      refine ⟨hsound.pos, hsound.dvd, ?_, hsound.lt⟩
      rw [← hmul] at hfree
      exact hmul ▸ Nat.mul_le_mul_right _ (Nat.lt_of_mul_lt_mul_right hfree)
    · rw [Program.store, hsame]
    · rw [commands_store, hcommands]
    · rw [← hsame]
      refine (Nat.lt_div_iff_mul_lt' hsound.dvd _).mpr ?_
      rwa [Nat.mul_comm]

/-! ### Shrinking -/

/-- **`program_shrink`** keeps the lines, or finds no memory and changes nothing. -/
theorem programShrink_cases (h : program.Sound) (realloc : ℕ → Realloc) :
    (realloc 0 = none ∧ programShrink realloc program = some (.errMem, program)) ∨
    ∃ program', programShrink realloc program = some (.errNone, program') ∧ program'.Sound ∧
      program'.commands = program.commands ∧ program'.nbLines = program.nbLines := by
  have hfits := h.fits
  have hsmall : program.nbLines ≤ sizeMax / commandSize := by
    have hlt := h.lt
    simp only [sizeMax, commandSize] at hfits ⊢
    omega
  by_cases hlines : program.nbLines > 0
  · by_cases hmore : program.allocated / commandSize > program.nbLines
    · rcases programResize_cases (realloc 0) program program.nbLines with
        ⟨hno, hresize⟩ | ⟨hn, fresh, -, hresize⟩
      · left
        refine ⟨of_not_not fun halloc => hno ⟨hsmall, halloc⟩, ?_⟩
        rw [programShrink, if_pos hlines, shrinkLoop, if_pos hmore, hresize]
        rfl
      · right
        have hsound := h.resized fresh hlines le_rfl hn
        refine ⟨_, ?_, hsound.1, hsound.2, rfl⟩
        have hdone : ¬ (program.resized fresh program.nbLines).allocated / commandSize >
            (program.resized fresh program.nbLines).nbLines := by
          change ¬ program.nbLines * commandSize / commandSize > program.nbLines
          rw [Nat.mul_div_cancel _ (by decide)]
          exact lt_irrefl _
        rw [programShrink, if_pos hlines, shrinkLoop, if_pos hmore, hresize]
        change shrinkLoop realloc 64 1 _ = _
        rw [shrinkLoop, if_neg hdone]
    · right
      refine ⟨program, ?_, h, rfl, rfl⟩
      rw [programShrink, if_pos hlines, shrinkLoop, if_neg hmore]
  · rcases programResize_cases (realloc 0) program startCommandsAllocated with
      ⟨hno, hresize⟩ | ⟨hn, fresh, -, hresize⟩
    · left
      refine ⟨of_not_not fun halloc => hno ⟨by decide, halloc⟩, ?_⟩
      rw [programShrink, if_neg hlines, hresize]
      rfl
    · right
      have hsound := h.resized fresh (n := startCommandsAllocated) (by decide) (by omega) hn
      refine ⟨_, ?_, hsound.1, hsound.2, rfl⟩
      rw [programShrink, if_neg hlines, hresize]
      rfl

/-! ### Sequences of calls -/

/-- The command one call accepts, if it accepts one. -/
def acceptedBy (op : ProgramOp) (err : ErrorCode) : List Command :=
  match op with
  | .addCommand command => if err = .errNone then [command] else []
  | .shrink => []

/-- **One call** ends, keeps the array sound, and appends what it accepts; if it fails it changes
nothing. -/
theorem programCall_cases (h : program.Sound) (op : ProgramOp) (realloc : ℕ → Realloc) :
    ∃ err program', programCall program op realloc = some (err, program') ∧ program'.Sound ∧
      program'.commands = program.commands ++ acceptedBy op err ∧
      (err ≠ .errNone → program' = program) ∧
      ∀ command, op = .addCommand command → err = .errNone →
        program.nbLines < program'.allocated / commandSize := by
  rcases op with command | _
  · rcases programAddCommand_cases h realloc command with
      ⟨-, err, herr, hcall⟩ | ⟨-, program', hcall, hsound, -, hcommands, hslot⟩
    · refine ⟨err, program, hcall, h, ?_, fun _ => rfl, fun _ _ hnone => absurd hnone herr⟩
      rw [acceptedBy, if_neg herr, List.append_nil]
    · exact ⟨.errNone, program', hcall, hsound, hcommands, fun herr => absurd rfl herr,
        fun _ _ _ => hslot⟩
  · rcases programShrink_cases h realloc with ⟨-, hcall⟩ | ⟨program', hcall, hsound, hcommands, -⟩
    · exact ⟨.errMem, program, hcall, h, (List.append_nil _).symm, fun _ => rfl, nofun⟩
    · refine ⟨.errNone, program', hcall, hsound, ?_, fun herr => absurd rfl herr, nofun⟩
      rw [hcommands, acceptedBy, List.append_nil]

theorem acceptedCommands_cons {op : ProgramOp} {err : ErrorCode} {program' : Program}
    (h : programCall program op realloc = some (err, program'))
    (calls : List (ProgramOp × (ℕ → Realloc))) :
    acceptedCommands program ((op, realloc) :: calls) =
      acceptedBy op err ++ acceptedCommands program' calls := by
  simp only [acceptedCommands, h]
  cases op <;> rfl

/-- **A sequence of calls** ends, in a sound program whose lines are those it started with and the
commands accepted. -/
theorem exists_runProgram (h : program.Sound) (calls : List (ProgramOp × (ℕ → Realloc))) :
    ∃ program', runProgram program calls = some program' ∧ program'.Sound ∧
      program'.commands = program.commands ++ acceptedCommands program calls := by
  induction calls generalizing program with
  | nil => exact ⟨program, rfl, h, (List.append_nil _).symm⟩
  | cons call calls ih =>
    obtain ⟨op, realloc⟩ := call
    obtain ⟨err, program₁, hcall, hsound, hcommands, -⟩ := programCall_cases h op realloc
    obtain ⟨program', hrun, hsound', hcommands'⟩ := ih hsound
    refine ⟨program', ?_, hsound', ?_⟩
    · rw [runProgram, List.foldlM_cons, hcall]
      exact hrun
    · rw [hcommands', hcommands, acceptedCommands_cons hcall, List.append_assoc]

/-- **The container invariant.** After any calls on an initialised program the array has a positive
number of whole slots and room for the lines, which are the commands accepted, in order. Any
further call ends, stores inside the array, and changes nothing if it fails. -/
theorem program_container (init : Program) (hinit : programInit true = .ok init)
    (calls : List (ProgramOp × (ℕ → Realloc))) :
    ∃ program, runProgram init calls = some program ∧
      (∃ slots > 0, program.allocated = slots * commandSize ∧
        program.nbLines * commandSize ≤ program.allocated) ∧
      program.commands = acceptedCommands init calls ∧
      ∀ op realloc, ∃ err program', programCall program op realloc = some (err, program') ∧
        (err ≠ .errNone → program' = program) ∧
        ∀ command, op = .addCommand command → err = .errNone →
          program.nbLines < program'.allocated / commandSize := by
  obtain ⟨hsound, hempty⟩ := sound_programInit hinit
  obtain ⟨program, hrun, hsound', hcommands⟩ := exists_runProgram hsound calls
  refine ⟨program, hrun, ⟨program.allocated / commandSize, hsound'.slots.1,
    hsound'.slots.2.symm, hsound'.fits⟩, ?_, fun op realloc => ?_⟩
  · rw [hcommands, hempty, List.nil_append]
  · obtain ⟨err, program', hcall, -, -, hsame, hslot⟩ := programCall_cases hsound' op realloc
    exact ⟨err, program', hcall, hsame, hslot⟩

/-- Three calls on a new program: one command accepted, one refused, one shrink that finds no
memory. -/
theorem program_container_calls :
    ∃ program, runProgram
        { listing := fun _ => zeroCommand, nbLines := 0, allocated := 320 }
        [(.addCommand ⟨some .write, some .data, 1, 7, ⟨0, 0, 0, 0, 0, 0⟩⟩, fun _ => none),
          (.addCommand zeroCommand, fun _ => none), (.shrink, fun _ => none)] = some program ∧
      program.commands = [⟨some .write, some .data, 1, 7, ⟨0, 0, 0, 0, 0, 0⟩⟩] := by
  obtain ⟨program, hrun, -, hcommands, -⟩ := program_container _ rfl
    [(.addCommand ⟨some .write, some .data, 1, 7, ⟨0, 0, 0, 0, 0, 0⟩⟩, fun _ => none),
      (.addCommand zeroCommand, fun _ => none), (.shrink, fun _ => none)]
  exact ⟨program, hrun, hcommands.trans (by decide +kernel)⟩

end MemoryHierarchy
