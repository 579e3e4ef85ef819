import MemoryHierarchy.Commands.Buffers
import MemoryHierarchy.Commands.Checked
import MemoryHierarchy.Commands.Grammar
import MemoryHierarchy.Lib.Machine
import MemoryHierarchy.Memory.Success
import MemoryHierarchy.Tlb.ListOps
import MemoryHierarchy.Tlb.Slots

/-!
# The simulator of the fully associative TLB

`test-tlb_simple.c`: the program is read, the memory is loaded, a list of all line indices is made,
and the addresses of the program are searched one after the other, with the table and the list
printed after every search. An index for which there is no memory is left out of the list, without
a message; the TLB then has a line less, and with no line at all every search is refused. What is
printed is the run of a list of slots (`main_shows_slots`). There is no result where a walk leaves
the memory that was loaded, that is where the walk of some command does and searches are not refused
(`meets_inside_iff`).
-/

namespace MemoryHierarchy.Tlb.TestTlbSimple

open Lib

/-! ### The program -/

/-- `ERR_MESSAGES`. -/
def errMessages : ErrorCode → List Byte
  | .errNone => chars ""
  | .errMem => chars "Not enough memory"
  | .errIo => chars "IO error"
  | .errBadParameter => chars "Bad parameter"
  | .errEof => chars "End of file"
  | .errAddr => chars "Wrong address"
  | .errSize => chars "Wrong size"
  | .errPolicy => chars "Wrong size"

/-- The loop that fills the list with the first `n` line indices; `malloc i` is what the allocation
for index `i` returns, and what `push_back` returns is not looked at. -/
def fillLines (malloc : ℕ → Option Ptr) : ℕ → Option (Heap × ListT)
  | 0 => some (fun _ => none, initList)
  | n + 1 => do
    let (heap, ll) ← fillLines malloc n
    let (heap, ll, _) ← pushBack heap (malloc n) ll (BitVec.ofNat 32 n)
    some (heap, ll)

/-- The rule drawn around the report of a line. -/
def rule : List Byte :=
  chars "-------------------------------------------------------------------\n"

/-- The rows of the table. -/
def printTlb (tlb : Table) : List Byte :=
  (List.finRange tlbLines).flatMap fun i =>
    printDec (tlb i).v.toNat ++ chars "; " ++ printHexLower 1 (tlb i).tag.toNat ++ chars "; " ++
      printHex 5 (tlb i).phyPageNum.toNat ++ chars ";\n"

/-- What is printed for one line of the program, with what is printed about its search. -/
def report (progLineIndex : ℕ) (vaddr : VirtAddr) (search : List Byte) : List Byte :=
  rule ++ chars "After program line " ++ printDec progLineIndex ++ chars "...\n\n" ++
    chars "VA = " ++ printVirtualAddress vaddr ++ search ++ rule

/-- What is printed about a search that succeeds. -/
def found (paddr : PhyAddr) (hitOrMiss : ℕ) (tlb ll : List Byte) : List Byte :=
  chars "; PA  = " ++ printPhysicalAddress paddr ++ chars "\n\n" ++
    (if hitOrMiss ≠ 0 then chars "HIT...\n\n" else chars "MISS...\n\n") ++ tlb ++ ll

/-- What is printed about one that fails. -/
def failed (err : ErrorCode) : List Byte :=
  chars "error with tlb_search(): " ++ errMessages err ++ chars "\n"

/-- The variables of the loop of `main`. -/
structure LoopState where
  progLineIndex : ℕ
  paddr : PhyAddr
  tlb : State

/-- One pass of the loop of `main`. -/
def searchLine (memSpace : Mem) : Machine LoopState Command (List Byte) := fun s command => do
  let search ← tlbSearch tlbLines memSpace command.vaddr s.tlb
  let paddr := search.paddr.getD s.paddr
  let next := { progLineIndex := s.progLineIndex + 1, paddr := paddr, tlb := search.state }
  if search.err = .errNone then
    let ll ← printList tlbLines search.state.heap search.state.replacementPolicy.ll
    some (next, report s.progLineIndex command.vaddr
      (found paddr (search.hitOrMiss.getD 0) (printTlb search.state.tlb) ll.1))
  else some (next, report s.progLineIndex command.vaddr (failed search.err))

/-- The state the loop starts from. -/
def start (heap : Heap) (ll : ListT) : LoopState :=
  { progLineIndex := 0
    paddr := ⟨0, 0⟩
    tlb := { tlb := tlbFlush, heap := heap, replacementPolicy := listPolicy ll } }

/-- The page walk of a search lies in the first `size` bytes of the memory. A search that hits, or
is refused, makes none. -/
def Inside (memSpace : Mem) (size : ℕ) (s : LoopState) (command : Command) : Prop :=
  ∀ search ∈ tlbSearch tlbLines memSpace command.vaddr s.tlb, search.hitOrMiss = some 0 →
    WalkInside memSpace size command.vaddr

instance (memSpace : Mem) (size : ℕ) (s : LoopState) (command : Command) :
    Decidable (Inside memSpace size s command) :=
  inferInstanceAs (Decidable (∀ search ∈ tlbSearch tlbLines memSpace command.vaddr s.tlb,
    search.hitOrMiss = some 0 → WalkInside memSpace size command.vaddr))

/-- `main`, with three arguments, where token buffers have `room` characters: its exit code, and the
text of the output file if it has been opened. `output` tells whether it can be. There is no result
where a token buffer is overrun or a page walk leaves the memory. -/
def main (room : ℕ) (env : LoadEnv) (calloc : Bool) (realloc : ℕ → ℕ → Realloc)
    (malloc : ℕ → Option Ptr) (commands : Option File)
    (memory : Option (BitVec 64 × List Byte)) (output : Bool) :
    Option (ℕ × Option (List Byte)) := do
  let read ← programReadIn room calloc realloc commands
  if read.err ≠ .errNone then some (2, none)
  else if !output then some (3, none)
  else
    let load := memInitFromDumpfile env memory none 0
    if load.err ≠ .errNone then some (4, some [])
    else
      -- neither is missing where no error is reported
      let memSpace ← load.memory
      let pgm ← read.program
      let (heap, ll) ← fillLines malloc tlbLines
      let inside := Inside (wordsOf memSpace) load.memCapacityInBytes.toNat
      let (s, reports) ←
        ((searchLine (wordsOf memSpace)).guarded inside).run (start heap ll) pgm.commands
      let _ ← clearList tlbLines s.tlb.heap s.tlb.replacementPolicy.ll
      some (0, some reports.flatten)

/-! ### The program without its list -/

/-- The lines the list has memory for, in order. -/
def namedLines (malloc : ℕ → Option Ptr) : List (Fin tlbLines) :=
  (List.finRange tlbLines).filter fun i => (malloc i).isSome

/-- The pages searched so far are all that is kept: the address is the one the walk computes, it is
a hit if its page is recent, and table and list show the slots in order of use. -/
def searchLineOf (memSpace : Mem) (lines : List (Fin tlbLines)) :
    Machine (List (BitVec 36)) Command (List Byte) := fun before command =>
  let page := pageOf command.vaddr
  let after := before ++ [page]
  let slots := uses lines after
  let hitOrMiss := if page ∈ recent lines.length before then 1 else 0
  some (after, report before.length command.vaddr
    (if lines = [] then failed .errBadParameter
    else
      found ⟨pageFrame memSpace command.vaddr, command.vaddr.pageOffset⟩ hitOrMiss
        (printTlb fun i => entryOf memSpace (contents slots i))
        (listText (slots.map fun slot => BitVec.ofNat 32 slot.1)).1))

/-! ### The list -/

section Fill

variable {malloc : ℕ → Option Ptr}

/-- **The list is filled** with the indices there is memory for. -/
theorem exists_fillLines (hmalloc : ∀ i j p, malloc i = some p → malloc j = some p → i = j)
    (n : ℕ) :
    ∃ heap ll nodes, fillLines malloc n = some (heap, ll) ∧ ll.Represents heap nodes ∧
      nodes.map Prod.snd =
        ((List.range n).filter fun i => (malloc i).isSome).map (BitVec.ofNat 32) ∧
      ∀ node ∈ nodes, ∃ i < n, malloc i = some node.1 := by
  induction n with
  | zero =>
    exact ⟨_, _, [], rfl, represents_initList _, rfl, List.forall_mem_nil _⟩
  | succ n ih =>
    obtain ⟨heap, ll, nodes, hfill, hll, hvalues, haddrs⟩ := ih
    cases hn : malloc n with
    | none =>
      refine ⟨heap, ll, nodes, by simp [fillLines, hfill, hn, pushBack, createNode], hll, ?_,
        fun node hnode => ?_⟩
      · rw [List.range_succ, List.filter_append, List.filter_cons_of_neg (by simp [hn]),
          List.filter_nil, List.append_nil, hvalues]
      · obtain ⟨i, hi, haddr⟩ := haddrs node hnode
        exact ⟨i, hi.trans n.lt_succ_self, haddr⟩
    | some p =>
      have hfree : p ∉ nodes.map Prod.fst := by
        intro hmem
        obtain ⟨node, hnode, rfl⟩ := List.mem_map.mp hmem
        obtain ⟨i, hi, haddr⟩ := haddrs node hnode
        exact hi.ne (hmalloc i n node.1 haddr hn)
      obtain ⟨heap', ll', hpush, hll', -⟩ := hll.pushBack hfree (BitVec.ofNat 32 n)
      refine ⟨heap', ll', _, by simp [fillLines, hfill, hn, hpush], hll', ?_, fun node hnode => ?_⟩
      · rw [List.range_succ, List.filter_append, List.filter_cons_of_pos (by simp [hn]),
          List.filter_nil, List.map_append, List.map_append, hvalues]
        rfl
      · rcases List.mem_append.mp hnode with hnode | hnode
        · obtain ⟨i, hi, haddr⟩ := haddrs node hnode
          exact ⟨i, hi.trans n.lt_succ_self, haddr⟩
        · obtain rfl := List.mem_singleton.mp hnode
          exact ⟨n, n.lt_succ_self, hn⟩

theorem map_val_namedLines (malloc : ℕ → Option Ptr) :
    (namedLines malloc).map Fin.val = (List.range tlbLines).filter fun i => (malloc i).isSome := by
  rw [← List.map_coe_finRange_eq_range, List.filter_map]
  rfl

theorem nodup_namedLines (malloc : ℕ → Option Ptr) : (namedLines malloc).Nodup :=
  (List.nodup_finRange tlbLines).filter _

/-- The flushed table, and the list so filled, are slots that hold nothing. -/
theorem exists_refines_fillLines (memSpace : Mem)
    (hmalloc : ∀ i j p, malloc i = some p → malloc j = some p → i = j) :
    ∃ heap ll, fillLines malloc tlbLines = some (heap, ll) ∧
      Refines memSpace (start heap ll).tlb (uses (namedLines malloc) []) := by
  obtain ⟨heap, ll, nodes, hfill, hll, hvalues, -⟩ := exists_fillLines hmalloc tlbLines
  refine ⟨heap, ll, hfill, rfl, ⟨nodes, hll, ?_⟩, distinct_uses (nodup_namedLines malloc) [],
    fun i => ?_⟩
  · rw [hvalues, ← map_val_namedLines, uses, List.foldl_nil, List.map_map, List.map_map]
    rfl
  · have hnone : contents (uses (α := BitVec 36) (namedLines malloc) []) i = none := by
      have hheld : ∀ slot ∈ uses (namedLines malloc) ([] : List (BitVec 36)), slot.2 = none := by
        intro slot hslot
        obtain ⟨line, -, rfl⟩ := List.mem_map.mp hslot
        rfl
      rw [contents, Option.bind_eq_none_iff]
      exact fun slot hslot => hheld slot (List.mem_of_find?_eq_some hslot)
    rw [hnone]
    rfl

end Fill

/-! ### The loop -/

variable {memSpace : Mem} {lines : List (Fin tlbLines)}

/-- What the loop has done is to search the pages so far. -/
structure Follows (memSpace : Mem) (lines : List (Fin tlbLines)) (s : LoopState)
    (before : List (BitVec 36)) : Prop where
  progLineIndex : s.progLineIndex = before.length
  tlb : Refines memSpace s.tlb (uses lines before)

/-- A list of distinct lines is no longer than the TLB. -/
theorem length_le_tlbLines (hnodup : lines.Nodup) : lines.length ≤ tlbLines := by
  have hle := (List.subperm_of_subset hnodup fun i _ => List.mem_finRange i).length_le
  rwa [List.length_finRange] at hle

/-- The list is printed in order of use. -/
theorem printList_of_refines {s : State} {slots : Slots} (h : Refines memSpace s slots)
    (hlength : slots.length ≤ tlbLines) :
    printList tlbLines s.heap s.replacementPolicy.ll =
      some (listText (slots.map fun slot => BitVec.ofNat 32 slot.1)) := by
  obtain ⟨nodes, hlist, hnames⟩ := h.list
  rw [printList_of_visits hlist.visits_next, hnames]
  rwa [← List.length_map (f := Prod.snd), hnames, List.length_map]

/-- **One pass** prints what the pages searched so far say. -/
theorem simulates_searchLineOf (memSpace : Mem) (hnodup : lines.Nodup) :
    (searchLine memSpace).Simulates (searchLineOf memSpace lines) (fun _ _ => True)
      (Follows memSpace lines) := by
  rintro ⟨index, paddr, tlb⟩ before command ⟨rfl, hrefines⟩ -
  have hlines : lines.length ≤ tlbLines := length_le_tlbLines hnodup
  by_cases hnone : lines = []
  · -- no line at all
    subst hnone
    have hslots : ∀ history : List (BitVec 36), uses ([] : List (Fin tlbLines)) history = [] :=
      fun history => List.length_eq_zero_iff.mp (length_uses List.nodup_nil history)
    rw [hslots] at hrefines
    have hsearch := hrefines.search_nil tlbLines command.vaddr
    rw [searchLine]
    simp only [hsearch, Option.bind_eq_bind, Option.bind_some]
    refine .some ⟨⟨?_, ?_⟩, rfl⟩
    · rw [List.length_append]
      rfl
    · rw [hslots]
      exact hrefines
  · have hpos : 0 < lines.length := List.length_pos_iff.mpr hnone
    have hlength := length_uses hnodup before
    obtain ⟨tlb', hsearch, hrefines'⟩ := hrefines.search
      (List.ne_nil_of_length_pos (hlength.symm ▸ hpos)) (hlength.trans_le hlines) command.vaddr
    rw [← uses_concat] at hrefines'
    have hprint := printList_of_refines hrefines'
      ((length_uses hnodup (before ++ [pageOf command.vaddr])).trans_le hlines)
    have htlb : tlb'.tlb = fun i => entryOf memSpace
        (contents (uses lines (before ++ [pageOf command.vaddr])) i) := funext hrefines'.tlb
    simp only [exists_held_uses_iff hnodup hpos] at hsearch
    rw [searchLine]
    simp only [hsearch, Option.bind_eq_bind, Option.bind_some, if_true, hprint, htlb]
    refine .some ⟨⟨?_, hrefines'⟩, ?_⟩
    · rw [List.length_append]
      rfl
    · rw [if_neg hnone]
      rfl

/-- The loop over a whole program. -/
theorem exists_run_searchLine (hnodup : lines.Nodup) {start : LoopState}
    (hstart : Follows memSpace lines start []) (commands : List Command) :
    ∃ s before reports, (searchLine memSpace).run start commands = some (s, reports) ∧
      (searchLineOf memSpace lines).run [] commands = some (before, reports) ∧
      Follows memSpace lines s before := by
  have hsteps : Machine.InStep (Follows memSpace lines) ((searchLine memSpace).run start commands)
      ((searchLineOf memSpace lines).run [] commands) :=
    (simulates_searchLineOf memSpace hnodup).run hstart
      (Machine.meets_of_forall (fun _ _ _ => trivial) _)
  obtain ⟨before, reports, hspec⟩ : ∃ before reports,
      (searchLineOf memSpace lines).run [] commands = some (before, reports) := by
    obtain ⟨before, reports, hspec, -⟩ := Machine.exists_run (m := searchLineOf memSpace lines)
      (I := fun _ => True) (P := fun _ => True)
      (fun _ _ _ _ => ⟨_, _, rfl, trivial, trivial⟩) (s := ([] : List (BitVec 36))) trivial
    exact ⟨before, reports, hspec⟩
  rw [hspec] at hsteps
  rcases hrun : (searchLine memSpace).run start commands with _ | ⟨s, reports'⟩
  · rw [hrun] at hsteps
    exact nomatch hsteps
  · rw [hrun] at hsteps
    rcases hsteps with ⟨hfollows, rfl⟩ | _
    exact ⟨s, before, _, rfl, hspec, hfollows⟩

/-- The list is cleared at the end. -/
theorem exists_clearList {s : State} {slots : Slots} (h : Refines memSpace s slots)
    (hlength : slots.length ≤ tlbLines) :
    ∃ cleared, clearList tlbLines s.heap s.replacementPolicy.ll = some cleared := by
  obtain ⟨nodes, hlist, hnames⟩ := h.list
  have hnodes : nodes.length ≤ tlbLines := by
    rwa [← List.length_map (f := Prod.snd), hnames, List.length_map]
  obtain ⟨heap, ll, hclear, -⟩ := hlist.clearList hnodes
  exact ⟨(heap, ll), hclear⟩

/-- The walk of the next search lies in the memory, unless it makes none: it is refused, or its page
is recent. -/
def InsideOf (memSpace : Mem) (size : ℕ) (lines : List (Fin tlbLines)) (before : List (BitVec 36))
    (command : Command) : Prop :=
  lines = [] ∨ pageOf command.vaddr ∈ recent lines.length before ∨
    WalkInside memSpace size command.vaddr

/-- The slots tell whether a walk is made. -/
theorem inside_iff (hnodup : lines.Nodup) {size : ℕ} {s : LoopState} {before : List (BitVec 36)}
    {command : Command} (hs : Follows memSpace lines s before) :
    Inside memSpace size s command ↔ InsideOf memSpace size lines before command := by
  rw [InsideOf]
  by_cases hnone : lines = []
  · subst hnone
    have hslots : uses ([] : List (Fin tlbLines)) before = [] :=
      List.length_eq_zero_iff.mp (length_uses List.nodup_nil before)
    have hrefines := hs.tlb
    rw [hslots] at hrefines
    rw [Inside, hrefines.search_nil tlbLines command.vaddr]
    refine iff_of_true ?_ (.inl rfl)
    rintro _ ⟨⟩ h
    cases h
  · have hpos : 0 < lines.length := List.length_pos_iff.mpr hnone
    have hlength := length_uses hnodup before
    obtain ⟨tlb', hsearch, -⟩ := hs.tlb.search
      (List.ne_nil_of_length_pos (hlength.symm ▸ hpos))
      (hlength.trans_le (length_le_tlbLines hnodup)) command.vaddr
    simp only [exists_held_uses_iff hnodup hpos] at hsearch
    rw [Inside, hsearch, or_iff_right hnone]
    by_cases hrecent : pageOf command.vaddr ∈ recent lines.length before
    · rw [if_pos hrecent]
      refine iff_of_true ?_ (.inl hrecent)
      rintro _ ⟨⟩ h
      cases h
    · rw [if_neg hrecent, or_iff_right hrecent]
      refine ⟨fun h => h _ rfl rfl, ?_⟩
      rintro h _ ⟨⟩ -
      exact h

/-- Behind walks that lie in the memory, a walk that is not made would lie there too: it is for a
page that was walked for before. -/
theorem insideOf_iff (hlines : lines ≠ []) {size : ℕ} {before : List (BitVec 36)}
    {command : Command}
    (hbefore : ∀ page ∈ before, ∀ vaddr, pageOf vaddr = page → WalkInside memSpace size vaddr) :
    InsideOf memSpace size lines before command ↔ WalkInside memSpace size command.vaddr := by
  rw [InsideOf, or_iff_right hlines]
  refine or_iff_right_of_imp fun hrecent => ?_
  exact hbefore _ (mem_recency.mp (List.mem_of_mem_take hrecent)) _ rfl

/-- **The walks** of a run keep to the memory exactly if those of all its commands do, or all
searches are refused. -/
theorem meets_inside_iff (hnodup : lines.Nodup) (size : ℕ) {start : LoopState}
    (hstart : Follows memSpace lines start []) (commands : List Command) :
    (searchLine memSpace).Meets (Inside memSpace size) start commands ↔
      lines = [] ∨ ∀ command ∈ commands, WalkInside memSpace size command.vaddr := by
  have hspec : ∀ before : List (BitVec 36),
      (lines = [] ∨ ∀ page ∈ before, ∀ vaddr, pageOf vaddr = page →
        WalkInside memSpace size vaddr) →
      ((searchLineOf memSpace lines).Meets (InsideOf memSpace size lines) before commands ↔
        lines = [] ∨ ∀ command ∈ commands, WalkInside memSpace size command.vaddr) := by
    induction commands with
    | nil => exact fun _ _ => iff_of_true trivial (.inr (List.forall_mem_nil _))
    | cons command commands ih =>
      intro before hbefore
      by_cases hnone : lines = []
      · exact iff_of_true
          (Machine.meets_of_forall (fun _ _ _ => .inl hnone) before) (.inl hnone)
      have hbefore := hbefore.resolve_left hnone
      rw [or_iff_right hnone, List.forall_mem_cons]
      refine (and_congr_left' (insideOf_iff hnone hbefore)).trans
        (and_congr_right fun hinside => ?_)
      have hpage : ∀ vaddr, pageOf vaddr = pageOf command.vaddr →
          WalkInside memSpace size vaddr := fun vaddr hpage =>
        hinside.of_page (BitVec.eq_of_toNat_eq (by rw [← toNat_pageOf, ← toNat_pageOf, hpage]))
      have hnext := ih (before ++ [pageOf command.vaddr]) (.inr (List.forall_mem_append.mpr
        ⟨hbefore, List.forall_mem_singleton.mpr hpage⟩))
      rw [or_iff_right hnone] at hnext
      refine ⟨fun h => hnext.mp (h _ _ rfl), ?_⟩
      rintro h _ _ ⟨⟩
      exact hnext.mpr h
  rw [← hspec [] (.inr fun _ h => nomatch h)]
  have hcond : ∀ (s : LoopState) (before : List (BitVec 36)) (command : Command),
      Follows memSpace lines s before →
      (Inside memSpace size s command ↔ InsideOf memSpace size lines before command) :=
    fun _ _ _ hs => inside_iff hnodup hs
  exact (simulates_searchLineOf memSpace hnodup).meets_iff hcond hstart

/-- **What the simulator prints.** Whatever its files hold and its allocations do, it returns,
without following a link that leads nowhere, unless a token buffer is overrun or, searches not being
refused, the walk of a command leaves the memory. If the program is read, the output file opened and
the memory loaded, it returns `0`, having printed for every line what the pages searched so far say:
the address that the walk computes, a hit if its page is among the most recent ones, as many as
there are lines that the list had memory for, and those lines in order of use, with the pages they
hold. -/
theorem main_shows_slots (room : ℕ) (env : LoadEnv) (calloc : Bool) (realloc : ℕ → ℕ → Realloc)
    (malloc : ℕ → Option Ptr) (hmalloc : ∀ i j p, malloc i = some p → malloc j = some p → i = j)
    (commands : Option File) (memory : Option (BitVec 64 × List Byte)) (output : Bool) :
    let load := memInitFromDumpfile env memory none 0
    let result := main room env calloc realloc malloc commands memory output
    (programReadIn room calloc realloc commands = none → result = none) ∧
    ∀ read, programReadIn room calloc realloc commands = some read →
      (read.err ≠ .errNone → result = some (2, none)) ∧
      (read.err = .errNone → output = false → result = some (3, none)) ∧
      (read.err = .errNone → output = true → load.err ≠ .errNone → result = some (4, some [])) ∧
      (read.err = .errNone → output = true → load.err = .errNone →
        ∃ pgm memSpace before reports, read.program = some pgm ∧ load.memory = some memSpace ∧
          (searchLineOf (wordsOf memSpace) (namedLines malloc)).run [] pgm.commands =
            some (before, reports) ∧
          result =
            if namedLines malloc = [] ∨ ∀ command ∈ pgm.commands,
              WalkInside (wordsOf memSpace) load.memCapacityInBytes.toNat command.vaddr
            then some (0, some reports.flatten) else none) := by
  dsimp only
  refine ⟨fun hnone => ?_, fun read hread => ?_⟩
  · simp only [main, hnone, Option.bind_eq_bind, Option.bind_none]
  simp only [main, hread, Option.bind_eq_bind, Option.bind_some]
  refine ⟨fun herr => by rw [if_pos herr], fun herr hout => ?_, fun herr hout hload => ?_,
    fun herr hout hload => ?_⟩
  · rw [if_neg (not_not_intro herr), hout]
    rfl
  · rw [if_neg (not_not_intro herr), hout, if_neg (by decide), if_pos hload]
  · obtain ⟨memSpace, hmemory⟩ :=
      Option.ne_none_iff_exists'.mp (loaded_memInitFromDumpfile env memory none 0 hload)
    obtain ⟨pgm, hpgm, -⟩ := checked_of_programRead (programReadIn_eq_some_iff.mp hread).1 herr
    obtain ⟨heap, ll, hfill, hstart⟩ := exists_refines_fillLines (wordsOf memSpace) hmalloc
    have hnodup := nodup_namedLines malloc
    obtain ⟨s, before, reports, hrun, hspec, hfollows⟩ :=
      exists_run_searchLine hnodup ⟨rfl, hstart⟩ pgm.commands
    have hlength : (uses (namedLines malloc) before).length ≤ tlbLines :=
      (length_uses hnodup before).trans_le (length_le_tlbLines hnodup)
    obtain ⟨cleared, hclear⟩ := exists_clearList hfollows.tlb hlength
    refine ⟨pgm, memSpace, before, reports, hpgm, hmemory, hspec, ?_⟩
    rw [if_neg (not_not_intro herr), hout, if_neg (by decide), if_neg (not_not_intro hload)]
    simp only [hmemory, hpgm, hfill, Option.bind_some, Machine.run_guarded, hrun,
      meets_inside_iff hnodup _ ⟨rfl, hstart⟩]
    split_ifs
    · simp only [Option.bind_some, hclear]
    · rfl

/-- `R DW @0x1000` over a page of zeros, with memory for the first five indices. -/
theorem main_shows_slots_read :
    ∃ memSpace before reports,
      (searchLineOf memSpace (namedLines fun i => if i < 5 then some i else none)).run []
          [⟨some .read, some .data, 4, 0, ⟨0, 0, 0, 0, 1, 0⟩⟩] = some (before, reports) ∧
        main maxSizeBuffer ⟨fun _ => none, some fun _ => 1, fun _ => []⟩ true
            (fun _ _ => some fun _ => zeroCommand) (fun i => if i < 5 then some i else none)
            (some (File.open (textOf [chars "R DW @0x1000"])))
            (some (4096, List.replicate 4096 0)) true = some (0, some reports.flatten) := by
  have heval : ((programReadIn maxSizeBuffer true (fun _ _ => some fun _ => zeroCommand)
      (some (File.open (textOf [chars "R DW @0x1000"])))).map fun read =>
        (read.err, read.program.map Program.commands)) =
      some (.errNone, some [⟨some .read, some .data, 4, 0, ⟨0, 0, 0, 0, 1, 0⟩⟩]) := by
    decide +kernel
  obtain ⟨read, hread, hresult⟩ := Option.map_eq_some_iff.mp heval
  obtain ⟨herr, hprogram⟩ := Prod.mk.inj hresult
  have hload : memInitFromDumpfile ⟨fun _ => none, some fun _ => 1, fun _ => []⟩
      (some (4096, List.replicate 4096 0)) none 0 =
        { err := .errNone
          memory := some (storeBytes (fun i => if i < 4096 then 0 else 1) 0
            (List.replicate 4096 0))
          memCapacityInBytes := 4096 } := by
    have hlength : (List.replicate 4096 (0 : Byte)).length = (4096 : BitVec 64).toNat := by
      rw [List.length_replicate]
      decide
    simp only [memInitFromDumpfile, LoadEnv.callocBytes, Option.map_some]
    rw [if_neg (by decide), List.take_of_length_le hlength.le, if_neg (not_not_intro hlength)]
  have hinside : ∀ command ∈ ([⟨some .read, some .data, 4, 0, ⟨0, 0, 0, 0, 1, 0⟩⟩] : List Command),
      WalkInside (wordsOf (storeBytes (fun i => if i < 4096 then 0 else 1) 0
        (List.replicate 4096 0))) 4096 command.vaddr := by
    decide +kernel
  obtain ⟨-, hmain⟩ := main_shows_slots maxSizeBuffer
    ⟨fun _ => none, some fun _ => 1, fun _ => []⟩ true (fun _ _ => some fun _ => zeroCommand)
    (fun i => if i < 5 then some i else none)
    (fun i j p hi hj => by
      rw [Option.some_inj.mp (Option.ite_none_right_eq_some.mp hi).2,
        Option.some_inj.mp (Option.ite_none_right_eq_some.mp hj).2])
    (some (File.open (textOf [chars "R DW @0x1000"]))) (some (4096, List.replicate 4096 0)) true
  obtain ⟨-, -, -, hmain⟩ := hmain read hread
  obtain ⟨pgm, memSpace, before, reports, hpgm, hmemory, hrun, hresult⟩ :=
    hmain herr rfl (congrArg LoadResult.err hload)
  rw [hpgm, Option.map_some, Option.some_inj] at hprogram
  obtain rfl := Option.some.inj ((congrArg LoadResult.memory hload).symm.trans hmemory)
  rw [hprogram] at hrun hresult
  rw [congrArg LoadResult.memCapacityInBytes hload] at hresult
  exact ⟨_, before, reports, hrun, hresult.trans (if_pos (.inr hinside))⟩

end MemoryHierarchy.Tlb.TestTlbSimple
