import MemoryHierarchy.Cache.Dump
import MemoryHierarchy.Cache.WriteThrough
import MemoryHierarchy.Commands.Buffers
import MemoryHierarchy.Commands.Checked
import MemoryHierarchy.Commands.Grammar
import MemoryHierarchy.Lib.Machine
import MemoryHierarchy.Memory.DescriptionText

/-!
# The cache simulator

`test-cache.c`: the memory is loaded, the program is read, and its commands are executed one after
the other through flushed caches, which are dumped after every command. The addresses of a command
are virtual, and are translated by a walk through the memory as it is then, so that a program may
write its own page tables.

Commands are executed over all the bytes of the machine here. The program only has those of the
block it has loaded, so `main` is without result where a walk or a line leaves the block; elsewhere
no assertion of the simulator ever fails (`main_returns`). A program whose writes find the only copy
of their line runs as if there were no caches (`program_flat`).
-/

namespace MemoryHierarchy.TestCache

open Lib

/-! ### Commands -/

/-- The cache operation a command comes to, in a memory that translates its address. -/
def operation (memSpace : Mem) (command : Command) : Option CacheOp :=
  match pageWalk memSpace command.vaddr with
  | .error _ => none
  | .ok paddr => executedOp command paddr

/-- `execute_command`. Without result, an assertion fails. -/
def executeCommand : Machine CacheState Command Reply := fun s command =>
  (operation s.memSpace command).map (MemoryHierarchy.executeCommand s)

/-- What is printed after a command. -/
def report (s : CacheState) : List Byte :=
  chars "L1_ICACHE: \n\n" ++ cacheDump s.l1Icache ++
    chars "L1_DCACHE: \n\n" ++ cacheDump s.l1Dcache ++
    chars "L2_CACHE: \n\n" ++ cacheDump s.l2Cache ++
    chars "\n=======================================\n\n"

/-- One pass of the loop of `main`, with what it prints. -/
def executeLine : Machine CacheState Command (List Byte) := executeCommand.observe report

/-! ### The block -/

/-- The line of an address lies in the first `size` bytes of the memory. -/
def LineInside (size : ℕ) (paddr : PhyAddr) : Prop :=
  4 * (computeAddrLineAligned (phyToInt paddr) + wordsPerLine) ≤ size

instance (size : ℕ) (paddr : PhyAddr) : Decidable (LineInside size paddr) :=
  inferInstanceAs (Decidable (_ ≤ _))

/-- A read of the address is served by a cache. -/
def Found (s : CacheState) (access : MemAccess) (paddr : PhyAddr) : Prop :=
  (cacheHit (s.l1 access) paddr).2.isSome ∨ (cacheHit s.l2Cache paddr).2.isSome

instance (s : CacheState) (access : MemAccess) (paddr : PhyAddr) :
    Decidable (Found s access paddr) :=
  inferInstanceAs (Decidable (_ ∨ _))

/-- What an operation accesses of the memory lies there: the line of its address, or nothing for a
read that a cache serves. -/
def OpInside (size : ℕ) (s : CacheState) : CacheOp → Prop
  | .read access paddr => Found s access paddr ∨ LineInside size paddr
  | .readByte access paddr =>
    Found s access (wordAligned paddr) ∨ LineInside size (wordAligned paddr)
  | .write paddr _ => LineInside size paddr
  | .writeByte paddr _ => LineInside size (wordAligned paddr)

instance (size : ℕ) (s : CacheState) : DecidablePred (OpInside size s)
  | .read _ _ => inferInstanceAs (Decidable (_ ∨ _))
  | .readByte _ _ => inferInstanceAs (Decidable (_ ∨ _))
  | .write _ _ => inferInstanceAs (Decidable (LineInside _ _))
  | .writeByte _ _ => inferInstanceAs (Decidable (LineInside _ _))

/-- What `execute_command` accesses of the memory lies there. -/
def Inside (size : ℕ) (s : CacheState) (command : Command) : Prop :=
  WalkInside s.memSpace size command.vaddr ∧
    ∀ op ∈ operation s.memSpace command, OpInside size s op

instance (size : ℕ) (s : CacheState) (command : Command) : Decidable (Inside size s command) :=
  inferInstanceAs (Decidable (_ ∧ _))

/-! ### The program -/

/-- The first two arguments: the kind of the memory file, and what opening it gives. -/
inductive MemoryFile
  | dump (file : Option (BitVec 64 × List Byte))
  | desc (file : Option File)

/-- The loader that is called. -/
def MemoryFile.load (env : LoadEnv) : MemoryFile → Option LoadResult
  | .dump file => some (memInitFromDumpfile env file none 0)
  | .desc file => memInitFromDescriptionInside env file none 0

/-- `main`, once its arguments have been told apart, where token buffers have `room` characters: its
exit code, and what it prints. Without result, an assertion fails, or an access leaves the memory
or a token buffer. -/
def main (room : ℕ) (env : LoadEnv) (calloc : Bool) (realloc : ℕ → ℕ → Realloc)
    (memory : MemoryFile) (commands : Option File) : Option (ℕ × List Byte) := do
  let load ← memory.load env
  if load.err = .errNone then do
    let read ← programReadIn room calloc realloc commands
    if read.err = .errNone then do
      -- neither is missing where no error is reported
      let memSpace ← load.memory
      let pgm ← read.program
      let (_, reports) ← (executeLine.guarded (Inside load.memCapacityInBytes.toNat)).run
        (flushed (wordsOf memSpace)) pgm.commands
      some (0, reports.flatten)
    else some (3, [])
  else some (3, [])

/-! ### Every run ends -/

variable {s : CacheState} {command : Command} {commands : List Command}

/-- **A command that passes the checks** is executed, whatever the memory. -/
theorem exists_executeCommand (h : checkCommand command = .errNone) (s : CacheState) :
    ∃ t r, executeCommand s command = some (t, r) ∧ r.err = .errNone := by
  obtain ⟨op, hop, haligned⟩ :=
    exists_executedOp h ⟨pageFrame s.memSpace command.vaddr, command.vaddr.pageOffset⟩ rfl
  have hoperation : operation s.memSpace command = some op := by
    rw [operation, pageWalk_eq]
    exact hop
  refine ⟨(MemoryHierarchy.executeCommand s op).1, (MemoryHierarchy.executeCommand s op).2, ?_,
    executeCommand_err haligned⟩
  rw [executeCommand, hoperation, Option.map_some]

/-- A run of checked commands comes to its end, and none of them fails. -/
theorem exists_run_executeCommand (h : ∀ command ∈ commands, checkCommand command = .errNone)
    (s : CacheState) :
    ∃ t rs, executeCommand.run s commands = some (t, rs) ∧ rs.length = commands.length ∧
      ∀ r ∈ rs, r.err = .errNone := by
  obtain ⟨t, rs, hrun, -, hlength, hrs⟩ := Machine.exists_run (m := executeCommand)
    (I := fun _ => True) (P := fun r : Reply => r.err = .errNone)
    (fun s command hcommand _ => by
      obtain ⟨t, r, hstep, hr⟩ := exists_executeCommand (h command hcommand) s
      exact ⟨t, r, hstep, trivial, hr⟩) (s := s) trivial
  exact ⟨t, rs, hrun, hlength, hrs⟩

/-- The loop of `main` over checked commands. -/
theorem exists_run_executeLine (h : ∀ command ∈ commands, checkCommand command = .errNone)
    (s : CacheState) :
    ∃ t reports, executeLine.run s commands = some (t, reports) ∧
      reports.length = commands.length := by
  obtain ⟨t, rs, hrun, -, hlength, -⟩ := Machine.exists_run (m := executeLine)
    (I := fun _ => True) (P := fun _ => True)
    (fun s command hcommand _ => by
      obtain ⟨t, r, hstep, -⟩ := exists_executeCommand (h command hcommand) s
      refine ⟨t, report t, ?_, trivial, trivial⟩
      rw [executeLine, Machine.observe, hstep, Option.map_some]) (s := s) trivial
  exact ⟨t, rs, hrun, hlength⟩

/-- A loader that reports no error has memory. -/
theorem MemoryFile.loaded {env : LoadEnv} {memory : MemoryFile} {load : LoadResult}
    (h : memory.load env = some load) : load.Loaded := by
  cases memory with
  | dump file =>
    cases h
    exact loaded_memInitFromDumpfile env file none 0
  | desc file =>
    rw [← (memInitFromDescriptionInside_eq_some_iff.mp h).1]
    exact loaded_memInitFromDescription env file none 0

section Main

variable {room : ℕ} {env : LoadEnv} {calloc : Bool} {realloc : ℕ → ℕ → Realloc}
  {memory : MemoryFile} {file : Option File} {load : LoadResult} {read : ProgramRead}

/-- A run of `main` whose inputs are read: the loop is the unguarded one where it keeps to the
block. -/
theorem exists_main_eq (hload : memory.load env = some load) (herr : load.err = .errNone)
    (hread : programReadIn room calloc realloc file = some read) (hreaderr : read.err = .errNone) :
    ∃ memSpace pgm t reports, load.memory = some memSpace ∧ read.program = some pgm ∧
      executeLine.run (flushed (wordsOf memSpace)) pgm.commands = some (t, reports) ∧
      reports.length = pgm.commands.length ∧
      main room env calloc realloc memory file =
        if executeLine.Meets (Inside load.memCapacityInBytes.toNat) (flushed (wordsOf memSpace))
          pgm.commands then some (0, reports.flatten) else none := by
  obtain ⟨memSpace, hmemory⟩ := Option.ne_none_iff_exists'.mp (MemoryFile.loaded hload herr)
  obtain ⟨pgm, hpgm, hchecked⟩ :=
    checked_of_programRead (programReadIn_eq_some_iff.mp hread).1 hreaderr
  obtain ⟨t, reports, hrun, hlength⟩ :=
    exists_run_executeLine hchecked (flushed (wordsOf memSpace))
  refine ⟨memSpace, pgm, t, reports, hmemory, hpgm, hrun, hlength, ?_⟩
  simp only [main, hload, herr, hread, hreaderr, hmemory, hpgm, Machine.run_guarded, hrun, if_true,
    Option.bind_eq_bind, Option.bind_some]
  split_ifs
  · rfl
  · rfl

theorem main_of_load_err (hload : memory.load env = some load) (herr : load.err ≠ .errNone) :
    main room env calloc realloc memory file = some (3, []) := by
  simp only [main, hload, herr, if_false, Option.bind_eq_bind, Option.bind_some]

theorem main_of_read_err (hload : memory.load env = some load) (herr : load.err = .errNone)
    (hread : programReadIn room calloc realloc file = some read) (hreaderr : read.err ≠ .errNone) :
    main room env calloc realloc memory file = some (3, []) := by
  simp only [main, hload, herr, hread, hreaderr, if_true, if_false, Option.bind_eq_bind,
    Option.bind_some]

/-- No access of the run is out of bounds: loading the memory keeps to the block, reading the
program to the token buffers, and every command that is executed to the block. -/
def InBounds (room : ℕ) (env : LoadEnv) (calloc : Bool) (realloc : ℕ → ℕ → Realloc)
    (memory : MemoryFile) (file : Option File) : Prop :=
  ∃ load, memory.load env = some load ∧ (load.err = .errNone →
    ∃ read, programReadIn room calloc realloc file = some read ∧ (read.err = .errNone →
      ∀ memSpace pgm, load.memory = some memSpace → read.program = some pgm →
        executeLine.Meets (Inside load.memCapacityInBytes.toNat) (flushed (wordsOf memSpace))
          pgm.commands))

/-- The memory is loaded and the program read, both without an error. -/
def InputsRead (room : ℕ) (env : LoadEnv) (calloc : Bool) (realloc : ℕ → ℕ → Realloc)
    (memory : MemoryFile) (file : Option File) : Prop :=
  (∃ load, memory.load env = some load ∧ load.err = .errNone) ∧
    ∃ read, programReadIn room calloc realloc file = some read ∧ read.err = .errNone

/-- **A run of `main`**: an access out of bounds, an input that is not read, or the reports. -/
theorem main_cases (room : ℕ) (env : LoadEnv) (calloc : Bool) (realloc : ℕ → ℕ → Realloc)
    (memory : MemoryFile) (file : Option File) :
    (¬ InBounds room env calloc realloc memory file ∧
      main room env calloc realloc memory file = none) ∨
    (InBounds room env calloc realloc memory file ∧
      ¬ InputsRead room env calloc realloc memory file ∧
      main room env calloc realloc memory file = some (3, [])) ∨
    (InBounds room env calloc realloc memory file ∧
      InputsRead room env calloc realloc memory file ∧
      ∃ output, main room env calloc realloc memory file = some (0, output)) := by
  rcases hload : memory.load env with _ | load
  · refine .inl ⟨?_, ?_⟩
    · rintro ⟨_, h, -⟩
      cases hload.symm.trans h
    · simp only [main, hload, Option.bind_eq_bind, Option.bind_none]
  by_cases herr : load.err = .errNone
  · rcases hread : programReadIn room calloc realloc file with _ | read
    · refine .inl ⟨?_, ?_⟩
      · rintro ⟨_, h, hbounds⟩
        cases hload.symm.trans h
        obtain ⟨_, h, -⟩ := hbounds herr
        cases hread.symm.trans h
      · simp only [main, hload, herr, hread, if_true, Option.bind_eq_bind, Option.bind_some,
          Option.bind_none]
    by_cases hreaderr : read.err = .errNone
    · obtain ⟨memSpace, pgm, -, reports, hmemory, hpgm, -, -, hmain⟩ :=
        exists_main_eq hload herr hread hreaderr
      have hbounds : InBounds room env calloc realloc memory file ↔
          executeLine.Meets (Inside load.memCapacityInBytes.toNat) (flushed (wordsOf memSpace))
            pgm.commands := by
        constructor
        · rintro ⟨_, h, hbounds⟩
          cases hload.symm.trans h
          obtain ⟨_, h, hbounds⟩ := hbounds herr
          cases hread.symm.trans h
          exact hbounds hreaderr memSpace pgm hmemory hpgm
        · refine fun hmeets => ⟨load, hload, fun _ => ⟨read, hread, ?_⟩⟩
          rintro - _ _ h h'
          cases hmemory.symm.trans h
          cases hpgm.symm.trans h'
          exact hmeets
      rw [hmain, hbounds]
      split_ifs with hmeets
      · exact .inr (.inr ⟨hmeets, ⟨⟨load, hload, herr⟩, read, hread, hreaderr⟩, _, rfl⟩)
      · exact .inl ⟨hmeets, rfl⟩
    · refine .inr (.inl ⟨⟨load, hload, fun _ => ⟨read, hread, fun h => absurd h hreaderr⟩⟩, ?_,
        main_of_read_err hload herr hread hreaderr⟩)
      rintro ⟨-, _, h, h'⟩
      cases hread.symm.trans h
      exact hreaderr h'
  · refine .inr (.inl ⟨⟨load, hload, fun h => absurd h herr⟩, ?_, main_of_load_err hload herr⟩)
    rintro ⟨⟨_, h, h'⟩, -⟩
    cases hload.symm.trans h
    exact herr h'

end Main

/-- **The simulator never aborts.** Whatever its files hold and its allocations do, it returns
exactly if all its accesses are in bounds: `0` if the memory is loaded and the program is read, and
else `3`, having printed nothing. -/
theorem main_returns (room : ℕ) (env : LoadEnv) (calloc : Bool) (realloc : ℕ → ℕ → Realloc)
    (memory : MemoryFile) (file : Option File) :
    ((∃ code output, main room env calloc realloc memory file = some (code, output)) ↔
      InBounds room env calloc realloc memory file) ∧
    ∀ code output, main room env calloc realloc memory file = some (code, output) →
      (code = 0 ↔ InputsRead room env calloc realloc memory file) ∧
      (code ≠ 0 → code = 3 ∧ output = []) := by
  obtain ⟨hbounds, hmain⟩ | ⟨hbounds, hinputs, hmain⟩ | ⟨hbounds, hinputs, printed, hmain⟩ :=
    main_cases room env calloc realloc memory file
  · refine ⟨iff_of_false ?_ hbounds, fun code output h => nomatch hmain.symm.trans h⟩
    rintro ⟨code, output, h⟩
    cases hmain.symm.trans h
  · refine ⟨iff_of_true ⟨_, _, hmain⟩ hbounds, fun code output h => ?_⟩
    cases hmain.symm.trans h
    exact ⟨iff_of_false (by decide) hinputs, fun _ => ⟨rfl, rfl⟩⟩
  · refine ⟨iff_of_true ⟨_, _, hmain⟩ hbounds, fun code output h => ?_⟩
    cases hmain.symm.trans h
    exact ⟨iff_of_true rfl hinputs, fun h => absurd rfl h⟩

/-! ### What is printed -/

/-- The cache contents agree, but for what invalid entries hold. -/
def CachesAlike (s s' : CacheState) : Prop :=
  (∀ access, Cache.Alike (s.l1 access) (s'.l1 access)) ∧ Cache.Alike s.l2Cache s'.l2Cache

/-- A report shows the three caches. -/
private theorem legible_report : Legible CachesAlike report := by
  have hicache := legible_cacheDump.comp CacheState.l1Icache
  have hdcache := legible_cacheDump.comp CacheState.l1Dcache
  have hl2 := legible_cacheDump.comp CacheState.l2Cache
  have hall := (legible_const (chars "L1_ICACHE: \n\n")).append hicache
    |>.append (legible_const (chars "L1_DCACHE: \n\n")) |>.append hdcache
    |>.append (legible_const (chars "L2_CACHE: \n\n")) |>.append hl2
    |>.append (legible_const (chars "\n=======================================\n\n"))
  refine hall.mono ?_
  rintro s s' ⟨⟨⟨⟨⟨⟨-, hi⟩, -⟩, hd⟩, -⟩, h2⟩, -⟩
  refine ⟨fun access => ?_, h2⟩
  cases access with
  | instruction => exact hi
  | data => exact hd

private theorem report_congr {s' : CacheState} (h : CachesAlike s s') : report s' = report s := by
  have hi := (h.1 .instruction).cacheDump_eq
  have hd := (h.1 .data).cacheDump_eq
  change cacheDump s'.l1Icache = cacheDump s.l1Icache at hi
  change cacheDump s'.l1Dcache = cacheDump s.l1Dcache at hd
  rw [report, report, hi, hd, h.2.cacheDump_eq]

/-- **What the output shows**: two runs of a program print the same exactly if, after every command,
the same ways of the caches are valid and hold the same. -/
theorem output_eq_iff (s s' t t' : CacheState) (commands : List Command)
    (states states' : List CacheState)
    (h : (executeCommand.observe id).run s commands = some (t, states))
    (h' : (executeCommand.observe id).run s' commands = some (t', states')) :
    ((executeLine.run s' commands).map fun x => x.2.flatten) =
        ((executeLine.run s commands).map fun x => x.2.flatten) ↔
      List.Forall₂ CachesAlike states states' := by
  have hflat : ∀ {s t states}, (executeCommand.observe id).run s commands = some (t, states) →
      ((executeLine.run s commands).map fun x => x.2.flatten) = some (states.flatMap report) := by
    intro s t states h
    rw [executeLine, Machine.run_observe, h]
    exact congrArg some List.flatMap_def.symm
  have hlength : ∀ {s t states}, (executeCommand.observe id).run s commands = some (t, states) →
      states.length = commands.length := Machine.length_of_run
  rw [hflat h, hflat h', Option.some_inj]
  constructor
  · intro heq
    exact (legible_report.forall₂ ((hlength h).trans (hlength h').symm)
      (congrArg (· ++ []) heq.symm)).1
  · intro hall
    have hreports : List.Forall₂ Eq (states.map report) (states'.map report) :=
      List.forall₂_map_left_iff.mpr (List.forall₂_map_right_iff.mpr
        (hall.imp fun _ _ h => (report_congr h).symm))
    rw [List.forall₂_eq_eq_eq] at hreports
    rw [List.flatMap_def, List.flatMap_def, hreports]

/-- What the invalid entries of L2 hold is not printed, before or after a read. -/
theorem output_eq_iff_invalid :
    ((executeLine.run { flushed (fun _ => 0) with
            l2Cache := fun _ _ => { v := false, age := 3, tag := 5, line := fun _ => 7 } }
          [⟨some .read, some .data, 4, 0, ⟨0, 0, 0, 0, 0, 4⟩⟩]).map fun x => x.2.flatten) =
      ((executeLine.run (flushed fun _ => 0)
          [⟨some .read, some .data, 4, 0, ⟨0, 0, 0, 0, 0, 4⟩⟩]).map fun x => x.2.flatten) := by
  refine (output_eq_iff _ _ _ _ _ _ _ rfl rfl).mpr (.cons ?_ .nil)
  have halike : (flushed fun _ => 0).Alike { flushed (fun _ => 0) with
      l2Cache := fun _ _ => { v := false, age := 3, tag := 5, line := fun _ => 7 } } := by
    refine ⟨rfl, fun access => ?_, fun i w => CacheEntry.alike_of_invalid rfl rfl⟩
    cases access <;> exact .refl _
  have hread := (halike.executeCommand (.read .data ⟨0, 4⟩)).1
  exact ⟨hread.l1, hread.l2⟩

/-! ### From files to output -/

/-- **From the files to the dumps.** A description that is well formed and fits, and lines in the
format of commands that the token buffers have room for: the memory that is loaded holds the pages
described. If the commands the lines denote keep to it, the simulator returns `0`, and prints the
dumps of their run from flushed caches over that memory; if not, an access is out of bounds. -/
theorem main_desc (room : ℕ) (env : LoadEnv) (around : ByteMem) (realloc : ℕ → ℕ → Realloc)
    (d : Description) (lines : List (List Byte)) (commands : List Command)
    (hroom : HasRoom room lines) (hcalloc : env.calloc = some around)
    (halloc : ∀ n k, realloc n k ≠ none) (hwf : d.WellFormed) (hfits : d.Fits env.files)
    (hlines : List.Forall₂ (Denotes grammar) lines commands) (hlength : lines.length ≤ maxLines) :
    ∃ memSpace t reports,
      (memInitFromDescription env (some (File.open d.text)) none 0).memory = some memSpace ∧
      (∀ p ∈ d.pages memSpace, HoldsPage env.files memSpace p) ∧
      executeLine.run (flushed (wordsOf memSpace)) commands = some (t, reports) ∧
      reports.length = commands.length ∧
      main room env true realloc (.desc (some (File.open d.text)))
          (some (File.open (textOf lines))) =
        if executeLine.Meets (Inside d.capacity) (flushed (wordsOf memSpace)) commands then
          some (0, reports.flatten)
        else none := by
  have hcapacity := hwf.capacity_le
  have hload := memInitFromDescription_eq hwf hfits hcalloc none 0
  have hloadInside :
      (MemoryFile.desc (some (File.open d.text))).load env = some (memInitFromDescription env
        (some (File.open d.text)) none 0) :=
    memInitFromDescriptionInside_eq hwf hfits hcalloc none 0
  have hsize : (BitVec.ofNat 64 d.capacity).toNat = d.capacity := by
    rw [BitVec.toNat_ofNat, Nat.mod_eq_of_lt (by omega)]
  have hnl : ∀ line ∈ lines, ch '\n' ∉ line :=
    ((List.forall₂_and_left lines commands).mp
      (hlines.imp fun _ _ h => ⟨h.nl_notMem (by decide), h⟩)).1
  obtain ⟨pgm, accesses, hread, rfl⟩ := (programRead_lines_iff halloc hnl).mpr
    ⟨hlines.imp fun _ _ h => h.parsed, hlength⟩
  obtain ⟨memSpace, pgm', t, reports, hmemory, hpgm, hrun, hreports, hmain⟩ :=
    exists_main_eq hloadInside (congrArg LoadResult.err hload)
      (programReadIn_of_hasRoom hroom hnl hread) rfl
  obtain rfl := Option.some.inj hpgm
  refine ⟨memSpace, t, reports, hmemory, ?_, hrun, hreports, ?_⟩
  · obtain rfl := Option.some.inj ((congrArg LoadResult.memory hload).symm.trans hmemory)
    rw [pages_eq hfits (holdsTables_overlays hfits hwf.capacity_le (List.Sublist.refl _)
      (List.subset_append_left _ _) _)]
    exact (holds_overlays hfits hwf.capacity_le _).1
  · rw [hmain, congrArg LoadResult.memCapacityInBytes hload, hsize]

/-- `R DW @0x1000` in the memory of three pages, and in the buffers of the source. -/
theorem main_desc_three :
    ∃ reports : List (List Byte), reports.length = 1 ∧
      main maxSizeBuffer ⟨threeFiles, some fun _ => 1, fun _ => []⟩ true
          (fun _ _ => some fun _ => zeroCommand) (.desc (some (File.open threePages.text)))
          (some (File.open (textOf [chars "R DW @0x1000"]))) = some (0, reports.flatten) := by
  have hblank : Blanks [ch ' '] ∧ [ch ' '] ≠ [] :=
    ⟨fun c hc => List.mem_singleton.mp hc ▸ by decide, by decide⟩
  have hline : Denotes grammar (chars "R DW @0x1000")
      ⟨some .read, some .data, 4, 0, ⟨0, 0, 0, 0, 1, 0⟩⟩ :=
    .read (show Blanks [] from List.forall_mem_nil _) hblank hblank
      (show ([ch 'D', ch 'W'], MemAccess.data, 4) ∈ grammar.types by decide)
      (show HexDigits 1 16 [ch '1', ch '0', ch '0', ch '0'] from
        ⟨by decide, by decide, by decide⟩)
      ⟨rfl, by decide +kernel⟩ (by decide)
  obtain ⟨memSpace, -, reports, hmemory, -, -, hreports, hmain⟩ := main_desc maxSizeBuffer
    ⟨threeFiles, some fun _ => 1, fun _ => []⟩ (fun _ => 1) (fun _ _ => some fun _ => zeroCommand)
    threePages [chars "R DW @0x1000"] _ (.inr ⟨le_rfl, by decide⟩) rfl
    (fun _ _ => Option.some_ne_none _) threePages_wellFormed threePages_fits (.cons hline .nil)
    (by decide)
  have hmeets : (memInitFromDescription ⟨threeFiles, some fun _ => 1, fun _ => []⟩
      (some (File.open threePages.text)) none 0).memory.all (fun memSpace =>
        executeLine.Meets (Inside 12288) (flushed (wordsOf memSpace))
          [⟨some .read, some .data, 4, 0, ⟨0, 0, 0, 0, 1, 0⟩⟩]) = true := by
    decide +kernel
  rw [hmemory, Option.all_some, decide_eq_true_eq] at hmeets
  exact ⟨reports, hreports, hmain.trans (if_pos hmeets)⟩

end MemoryHierarchy.TestCache
