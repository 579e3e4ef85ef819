import MemoryHierarchy.Addr.Print
import MemoryHierarchy.Commands.Buffers
import MemoryHierarchy.Commands.Checked
import MemoryHierarchy.Lib.Machine
import MemoryHierarchy.Memory.Success
import MemoryHierarchy.Tlb.L1Tables

/-!
# The simulator of the TLB hierarchy

`test-tlb_hrchy.c`: the program is read, the memory is loaded, and the addresses of the program are
searched one after the other, with all tables printed after every search. Everything printed is a
function of the searches so far and of the memory: the addresses are those of the page walk, and
hits and tables are given by the page numbers alone (`main_prints`). There is no result where a walk
leaves the memory that was loaded; as every page is walked for at its first search, this is where
the walk of some command does (`meets_inside_iff`).
-/

namespace MemoryHierarchy.TlbHrchy.TestTlbHrchy

open Lib

/-! ### The program -/

variable {t : TlbT}

/-- `print_all_tlb_entries`. -/
def printAllTlbEntries (tlb : Table t) : List Byte :=
  chars "\n\n" ++ (List.finRange t.lines).flatMap fun i =>
    if (tlb i).v then
      printDec (tlb i).v.toNat ++ chars "; " ++ printHex 8 (tlb i).tag.toNat ++ chars "; " ++
        printHex 5 (tlb i).phyPageNum.toNat ++ chars ";\n"
    else printDec (tlb i).v.toNat ++ chars "; --------; -----;\n"

/-- The access of a command: data, or else instruction. -/
def accessOf (command : Command) : MemAccess :=
  if command.type = some .data then .data else .instruction

/-- The value of an enumerator of `mem_access_t`. -/
def accessCode : MemAccess → ℕ
  | .instruction => 0
  | .data => 1

/-- The rule drawn around the report of a line. -/
def rule : List Byte :=
  chars "-------------------------------------------------------------------\n"

/-- What is printed for one line of the program, given the texts of the tables. -/
def report (progLineIndex : ℕ) (access : MemAccess) (vaddr : VirtAddr) (paddr : PhyAddr)
    (hitOrMiss : ℕ) (l1Itlb l1Dtlb l2Tlb : List Byte) : List Byte :=
  chars "\n" ++ printDec progLineIndex ++ chars ": DATA/INSTRUCTION = " ++
    printDec (accessCode access) ++ chars "\n" ++ rule ++
    chars "After program line " ++ printDec progLineIndex ++ chars "...\n\n" ++
    chars "VA = " ++ printVirtualAddress vaddr ++ chars "; PA  = " ++ printPhysicalAddress paddr ++
    chars "\n\n" ++ (if hitOrMiss ≠ 0 then chars "HIT...\n\n" else chars "MISS...\n\n") ++
    chars "\n\nL1_ITLB:" ++ l1Itlb ++ chars "\n\nL1_DTLB:" ++ l1Dtlb ++
    chars "\n\nL2_TLB:" ++ l2Tlb ++ rule

/-- The variables of the loop of `main`. -/
structure LoopState where
  progLineIndex : ℕ
  paddr : PhyAddr
  tlbs : State

/-- One pass of the loop of `main`. What `tlb_search` returns is not looked at. -/
def searchLine (memSpace : Mem) : Machine LoopState Command (List Byte) := fun s command =>
  let search := tlbSearch memSpace command.vaddr (accessOf command) s.tlbs
  let paddr := search.paddr.getD s.paddr
  let tlbs := search.state
  some ({ progLineIndex := s.progLineIndex + 1, paddr := paddr, tlbs := tlbs },
    report s.progLineIndex (accessOf command) command.vaddr paddr search.hitOrMiss
      (printAllTlbEntries tlbs.l1Itlb) (printAllTlbEntries tlbs.l1Dtlb)
      (printAllTlbEntries tlbs.l2Tlb))

/-- The state the loop starts from. -/
def start : LoopState := { progLineIndex := 0, paddr := ⟨0, 0⟩, tlbs := flushed }

/-- The page walk of a search lies in the first `size` bytes of the memory. A search that hits makes
none. -/
def Inside (memSpace : Mem) (size : ℕ) (s : LoopState) (command : Command) : Prop :=
  (tlbSearch memSpace command.vaddr (accessOf command) s.tlbs).hitOrMiss = miss →
    WalkInside memSpace size command.vaddr

instance (memSpace : Mem) (size : ℕ) (s : LoopState) (command : Command) :
    Decidable (Inside memSpace size s command) :=
  inferInstanceAs (Decidable (_ → _))

/-- `main`, with three arguments, where token buffers have `room` characters: its exit code, and the
text of the output file if it has been opened. `output` tells whether it can be. There is no result
where a token buffer is overrun or a page walk leaves the memory. -/
def main (room : ℕ) (env : LoadEnv) (calloc : Bool) (realloc : ℕ → ℕ → Realloc)
    (commands : Option File) (memory : Option (BitVec 64 × List Byte)) (output : Bool) :
    Option (ℕ × Option (List Byte)) := do
  let read ← programReadIn room calloc realloc commands
  if read.err ≠ .errNone then some (2, none)
  else if !output then some (3, none)
  else
    let load := memInitFromDumpfile env memory none 0
    if load.err ≠ .errNone then some (4, some [])
    else
      -- neither is missing where no error is reported
      let memSpace ← load.memory
      let pgm ← read.program
      let inside := Inside (wordsOf memSpace) load.memCapacityInBytes.toNat
      let (_, reports) ← ((searchLine (wordsOf memSpace)).guarded inside).run start pgm.commands
      some (0, some reports.flatten)

/-! ### The program without its tables -/

/-- The row of a line that holds a page, or none. -/
def pageRow (t : TlbT) (memSpace : Mem) : Option ℕ → List Byte
  | some page =>
    chars "1; " ++ printHex 8 (page / t.lines) ++ chars "; " ++
      printHex 5 (frameOfPage memSpace page).toNat ++ chars ";\n"
  | none => chars "0; --------; -----;\n"

/-- The rows of a table that holds the given pages. -/
def pageRows (t : TlbT) (memSpace : Mem) (pages : Fin t.lines → Option ℕ) : List Byte :=
  chars "\n\n" ++ (List.finRange t.lines).flatMap fun i => pageRow t memSpace (pages i)

/-- The searches so far are all that is kept: the address is the one the walk computes, it is a hit
if the last search of its class was for its page, and the tables hold the last page searched of
every class, and what the L1 tables are left with. -/
def searchLineOf (memSpace : Mem) :
    Machine (List (VirtAddr × MemAccess)) Command (List Byte) := fun before command =>
  let calls := before ++ [(command.vaddr, accessOf command)]
  let page := pageOf command.vaddr
  let hitOrMiss := if lastIn (· % 64) (pagesOf before) (page % 64) = some page then hit else miss
  some (calls,
    report before.length (accessOf command) command.vaddr
      ⟨pageFrame memSpace command.vaddr, command.vaddr.pageOffset⟩ hitOrMiss
      (pageRows .l1Itlb memSpace fun i => l1Page .instruction i calls.reverse)
      (pageRows .l1Dtlb memSpace fun i => l1Page .data i calls.reverse)
      (pageRows .l2Tlb memSpace fun i => lastIn (· % 64) (pagesOf calls) i))

/-! ### Tables -/

variable {memSpace : Mem}

theorem lines_mul_two_pow_tagBits (t : TlbT) : 2 ^ t.tagBits * t.lines = 2 ^ 36 := by
  cases t <;> rfl

/-- The row of one line. -/
private theorem row_eq {tlb : Table t} (hframed : Framed memSpace tlb) (i : Fin t.lines) :
    (if (tlb i).v then
      printDec (tlb i).v.toNat ++ chars "; " ++ printHex 8 (tlb i).tag.toNat ++ chars "; " ++
        printHex 5 (tlb i).phyPageNum.toNat ++ chars ";\n"
    else printDec (tlb i).v.toNat ++ chars "; --------; -----;\n") =
      pageRow t memSpace (held tlb i) := by
  cases hv : (tlb i).v with
  | false =>
    rw [held, hv]
    rfl
  | true =>
    obtain ⟨page, hpage⟩ : ∃ page, held tlb i = some page := ⟨_, if_pos hv⟩
    obtain ⟨-, htag, hline⟩ := held_eq_some_iff.mp hpage
    have hlt : page < 2 ^ 36 := by
      have hdiv := Nat.div_add_mod page t.lines
      have hmod := Nat.mod_lt page t.lines_pos
      have htagLt := (tlb i).tag.isLt
      have hbound : (page / t.lines + 1) * t.lines ≤ 2 ^ 36 := by
        rw [← lines_mul_two_pow_tagBits t, ← htag]
        exact Nat.mul_le_mul_right _ htagLt
      rw [Nat.add_mul, Nat.mul_comm] at hbound
      omega
    have hframe : (tlb i).phyPageNum = frameOfPage memSpace page := by
      refine hframed i _ (hpage.trans (congrArg some ?_))
      rw [pageOf, virtAddrToVirtualPageNumber_virtAddr64 hlt, BitVec.toNat_ofNat]
      exact (Nat.mod_eq_of_lt (by omega)).symm
    rw [hpage, if_pos rfl, pageRow, htag, hframe]
    rfl

/-- **A table is printed from the pages it holds**, if its frames are those of the walk. -/
theorem printAllTlbEntries_eq {tlb : Table t} (hframed : Framed memSpace tlb)
    {pages : Fin t.lines → Option ℕ} (hheld : ∀ i, held tlb i = pages i) :
    printAllTlbEntries tlb = pageRows t memSpace pages := by
  rw [printAllTlbEntries, pageRows]
  refine congrArg _ (congrArg (List.flatMap · _) (funext fun i => ?_))
  rw [← hheld]
  exact row_eq hframed i

/-! ### The loop -/

/-- The tables go on translating. -/
theorem translates_runSearches (memSpace : Mem) (calls : List (VirtAddr × MemAccess)) :
    Translates memSpace (runSearches memSpace flushed calls) :=
  run_invariant_of_step (translates_flushed memSpace)
    (fun _ call hs => (hs.search call.1 call.2).2.2) calls

/-- A search hits or misses. -/
private theorem hit_or_miss (memSpace : Mem) (vaddr : VirtAddr) (access : MemAccess) (s : State) :
    (tlbSearch memSpace vaddr access s).hitOrMiss = hit ∨
      (tlbSearch memSpace vaddr access s).hitOrMiss = miss := by
  obtain ⟨paddr, -, hsearch⟩ | ⟨-, paddr, -, hsearch⟩ | ⟨-, -, paddr, -, hsearch⟩ :=
    tlbSearch_cases memSpace vaddr access s
  · rw [hsearch]
    exact .inl rfl
  · rw [hsearch]
    exact .inl fillL1_answer.2.2.1
  · rw [hsearch]
    exact .inr fillL1_answer.2.2.1

section Run

variable (memSpace : Mem) (calls : List (VirtAddr × MemAccess))

/-- It hits if the last search of its class was for its page. -/
theorem hitOrMiss_eq (vaddr : VirtAddr) (access : MemAccess) :
    (tlbSearch memSpace vaddr access (runSearches memSpace flushed calls)).hitOrMiss =
      if lastIn (· % 64) (pagesOf calls) (pageOf vaddr % 64) = some (pageOf vaddr) then hit
      else miss := by
  have hinclusive := inclusive_runSearches memSpace calls
  have hiff := (hinclusive.search memSpace vaddr access).1
  rw [hinclusive.l2_held, addrLine_eq, lastIn_lineOf_l2Tlb] at hiff
  split_ifs with hlast
  · exact hiff.mpr hlast
  · exact (hit_or_miss ..).resolve_left fun h => hlast (hiff.mp h)

theorem printL1Itlb_eq :
    printAllTlbEntries (runSearches memSpace flushed calls).l1Itlb =
      pageRows .l1Itlb memSpace fun i => l1Page .instruction i calls.reverse :=
  printAllTlbEntries_eq ((translates_runSearches memSpace calls).l1 .instruction)
    (held_l1_eq memSpace calls .instruction)

theorem printL1Dtlb_eq :
    printAllTlbEntries (runSearches memSpace flushed calls).l1Dtlb =
      pageRows .l1Dtlb memSpace fun i => l1Page .data i calls.reverse :=
  printAllTlbEntries_eq ((translates_runSearches memSpace calls).l1 .data)
    (held_l1_eq memSpace calls .data)

theorem printL2Tlb_eq :
    printAllTlbEntries (runSearches memSpace flushed calls).l2Tlb =
      pageRows .l2Tlb memSpace fun i => lastIn (· % 64) (pagesOf calls) i := by
  refine printAllTlbEntries_eq (translates_runSearches memSpace calls).l2Tlb fun i => ?_
  have hline : lineOf .l2Tlb i.val = i := Fin.ext (Nat.mod_eq_of_lt i.isLt)
  have hmod : i.val % 64 = i.val := Nat.mod_eq_of_lt i.isLt
  have hlast := lastIn_lineOf_l2Tlb (pagesOf calls) i
  rw [hline, hmod] at hlast
  rw [(inclusive_runSearches memSpace calls).l2_held, hlast]

end Run

/-- What the loop has done is to search the lines so far. -/
structure Follows (memSpace : Mem) (s : LoopState) (before : List (VirtAddr × MemAccess)) :
    Prop where
  progLineIndex : s.progLineIndex = before.length
  tlbs : s.tlbs = runSearches memSpace flushed before

/-- **One pass** prints what the searches so far say. -/
theorem simulates_searchLineOf (memSpace : Mem) :
    (searchLine memSpace).Simulates (searchLineOf memSpace) (fun _ _ => True)
      (Follows memSpace) := by
  rintro ⟨index, paddr, tlbs⟩ before command ⟨rfl, rfl⟩ -
  obtain ⟨-, ⟨answer, hanswer, hwalk⟩, -⟩ :=
    (translates_runSearches memSpace before).search command.vaddr (accessOf command)
  rw [pageWalk_eq] at hwalk
  obtain rfl := Except.ok.inj hwalk
  have hhit := hitOrMiss_eq memSpace before command.vaddr (accessOf command)
  -- the tables after the search
  have hafter := runSearches_concat memSpace flushed before (command.vaddr, accessOf command)
  have hitlb := printL1Itlb_eq memSpace (before ++ [(command.vaddr, accessOf command)])
  have hdtlb := printL1Dtlb_eq memSpace (before ++ [(command.vaddr, accessOf command)])
  have hl2 := printL2Tlb_eq memSpace (before ++ [(command.vaddr, accessOf command)])
  rw [hafter] at hitlb hdtlb hl2
  refine .some ⟨⟨?_, hafter.symm⟩, ?_⟩
  · rw [List.length_append]
    rfl
  · rw [hanswer, hhit, hitlb, hdtlb, hl2]
    rfl

/-- The loop over a whole program. -/
theorem exists_run_searchLine (memSpace : Mem) (commands : List Command) :
    ∃ s calls reports, (searchLine memSpace).run start commands = some (s, reports) ∧
      (searchLineOf memSpace).run [] commands = some (calls, reports) := by
  have hsteps : Machine.InStep (Follows memSpace) ((searchLine memSpace).run start commands)
      ((searchLineOf memSpace).run [] commands) :=
    (simulates_searchLineOf memSpace).run ⟨rfl, rfl⟩
      (Machine.meets_of_forall (fun _ _ _ => trivial) _)
  obtain ⟨s, reports, hrun⟩ : ∃ s reports,
      (searchLine memSpace).run start commands = some (s, reports) := by
    obtain ⟨s, reports, hrun, -⟩ := Machine.exists_run (m := searchLine memSpace)
      (I := fun _ => True) (P := fun _ => True)
      (fun _ _ _ _ => ⟨_, _, rfl, trivial, trivial⟩) (s := start) trivial
    exact ⟨s, reports, hrun⟩
  rw [hrun] at hsteps
  rcases hspec : (searchLineOf memSpace).run [] commands with _ | ⟨calls, reports'⟩
  · rw [hspec] at hsteps
    exact nomatch hsteps
  · rw [hspec] at hsteps
    rcases hsteps with ⟨-, rfl⟩ | _
    exact ⟨s, calls, reports, hrun, rfl⟩

/-- The walk of the next search lies in the memory, unless it makes none: the last search of its
class was for its page. -/
def InsideOf (memSpace : Mem) (size : ℕ) (before : List (VirtAddr × MemAccess))
    (command : Command) : Prop :=
  lastIn (· % 64) (pagesOf before) (pageOf command.vaddr % 64) ≠ some (pageOf command.vaddr) →
    WalkInside memSpace size command.vaddr

/-- The searches so far tell whether a walk is made. -/
theorem inside_iff {memSpace : Mem} {size : ℕ} {s : LoopState}
    {before : List (VirtAddr × MemAccess)} {command : Command} (hs : Follows memSpace s before) :
    Inside memSpace size s command ↔ InsideOf memSpace size before command := by
  have hmiss : hit ≠ miss := by decide
  rw [Inside, InsideOf, hs.tlbs, hitOrMiss_eq]
  by_cases hlast : lastIn (· % 64) (pagesOf before) (pageOf command.vaddr % 64) =
      some (pageOf command.vaddr)
  · rw [if_pos hlast]
    exact iff_of_true (fun h => absurd h hmiss) fun h => absurd hlast h
  · rw [if_neg hlast]
    exact ⟨fun h _ => h rfl, fun h _ => h hlast⟩

/-- Behind walks that lie in the memory, a walk that is not made would lie there too: it is for a
page that was walked for before. -/
theorem insideOf_iff {memSpace : Mem} {size : ℕ} {before : List (VirtAddr × MemAccess)}
    {command : Command} (hbefore : ∀ call ∈ before, WalkInside memSpace size call.1) :
    InsideOf memSpace size before command ↔ WalkInside memSpace size command.vaddr := by
  refine ⟨fun h => ?_, fun h _ => h⟩
  by_contra hout
  obtain ⟨call, hcall, hpage⟩ := List.mem_map.mp (mem_of_lastIn (not_ne_iff.mp (mt h hout)))
  exact hout ((hbefore call hcall).of_page (BitVec.eq_of_toNat_eq hpage))

/-- **The walks** of a run keep to the memory exactly if those of all its commands do. -/
theorem meets_inside_iff (memSpace : Mem) (size : ℕ) (commands : List Command) :
    (searchLine memSpace).Meets (Inside memSpace size) start commands ↔
      ∀ command ∈ commands, WalkInside memSpace size command.vaddr := by
  have hspec : ∀ before : List (VirtAddr × MemAccess),
      (∀ call ∈ before, WalkInside memSpace size call.1) →
      ((searchLineOf memSpace).Meets (InsideOf memSpace size) before commands ↔
        ∀ command ∈ commands, WalkInside memSpace size command.vaddr) := by
    induction commands with
    | nil => exact fun _ _ => iff_of_true trivial (List.forall_mem_nil _)
    | cons command commands ih =>
      intro before hbefore
      rw [List.forall_mem_cons]
      refine (and_congr_left' (insideOf_iff hbefore)).trans
        (and_congr_right fun hinside => ?_)
      have hnext := ih (before ++ [(command.vaddr, accessOf command)]) (List.forall_mem_append.mpr
        ⟨hbefore, List.forall_mem_singleton.mpr hinside⟩)
      refine ⟨fun h => hnext.mp (h _ _ rfl), ?_⟩
      rintro h _ _ ⟨⟩
      exact hnext.mpr h
  have hcond : ∀ (s : LoopState) (before : List (VirtAddr × MemAccess)) (command : Command),
      Follows memSpace s before →
      (Inside memSpace size s command ↔ InsideOf memSpace size before command) :=
    fun _ _ _ hs => inside_iff hs
  exact ((simulates_searchLineOf memSpace).meets_iff hcond ⟨rfl, rfl⟩).trans
    (hspec [] (List.forall_mem_nil _))

/-- **What the simulator prints.** Whatever its files hold and its allocations do, it returns,
unless a token buffer is overrun or the walk of a command leaves the memory. If the program is read,
the output file opened and the memory loaded, it returns `0`, having printed for every line what the
searches so far say: the address that the walk computes, a hit if the last search of its class
modulo 64 was for its page, and the tables as the history of the searches leaves them. Else its exit
code tells which of the three has failed. -/
theorem main_prints (room : ℕ) (env : LoadEnv) (calloc : Bool) (realloc : ℕ → ℕ → Realloc)
    (commands : Option File) (memory : Option (BitVec 64 × List Byte)) (output : Bool) :
    let load := memInitFromDumpfile env memory none 0
    let result := main room env calloc realloc commands memory output
    (programReadIn room calloc realloc commands = none → result = none) ∧
    ∀ read, programReadIn room calloc realloc commands = some read →
      (read.err ≠ .errNone → result = some (2, none)) ∧
      (read.err = .errNone → output = false → result = some (3, none)) ∧
      (read.err = .errNone → output = true → load.err ≠ .errNone → result = some (4, some [])) ∧
      (read.err = .errNone → output = true → load.err = .errNone →
        ∃ pgm memSpace calls reports, read.program = some pgm ∧ load.memory = some memSpace ∧
          (searchLineOf (wordsOf memSpace)).run [] pgm.commands = some (calls, reports) ∧
          result =
            if ∀ command ∈ pgm.commands,
              WalkInside (wordsOf memSpace) load.memCapacityInBytes.toNat command.vaddr
            then some (0, some reports.flatten) else none) := by
  dsimp only
  refine ⟨fun hnone => ?_, fun read hread => ?_⟩
  · simp only [main, hnone, Option.bind_eq_bind, Option.bind_none]
  simp only [main, hread, Option.bind_eq_bind, Option.bind_some]
  refine ⟨fun herr => by rw [if_pos herr], fun herr hout => ?_, fun herr hout hload => ?_,
    fun herr hout hload => ?_⟩
  · rw [if_neg (not_not_intro herr), hout]
    rfl
  · rw [if_neg (not_not_intro herr), hout, if_neg (by decide), if_pos hload]
  · obtain ⟨memSpace, hmemory⟩ :=
      Option.ne_none_iff_exists'.mp (loaded_memInitFromDumpfile env memory none 0 hload)
    obtain ⟨pgm, hpgm, -⟩ := checked_of_programRead (programReadIn_eq_some_iff.mp hread).1 herr
    obtain ⟨s, calls, reports, hrun, hspec⟩ :=
      exists_run_searchLine (wordsOf memSpace) pgm.commands
    refine ⟨pgm, memSpace, calls, reports, hpgm, hmemory, hspec, ?_⟩
    rw [if_neg (not_not_intro herr), hout, if_neg (by decide), if_neg (not_not_intro hload)]
    simp only [hmemory, hpgm, Option.bind_some, Machine.run_guarded, hrun, meets_inside_iff]
    split_ifs
    · rfl
    · rfl

end MemoryHierarchy.TlbHrchy.TestTlbHrchy
