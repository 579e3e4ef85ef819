import MemoryHierarchy.Lib.CText
import MemoryHierarchy.Memory.PageFile

/-!
# Dumping a page

`vmem_page_dump_with_options` of `memory.c`: the page is cut at the address and at the end of the
line that the address lies in, and the three pieces are printed one after the other. A pointer
is its distance from `mem_space`, in 64 bits; what is printed is the sequence of calls of
`printf` and `putchar`, each with what it prints, and `DumpItem.text` is their text.

The second cut is not compared with the end of the page. So the pieces are the page exactly when
the line of the address ends inside of it (`dumpsPage_iff`): with line sizes that divide the size
of a page it always does (`lineEndsInPage_of_dvd`), else the second piece may run past the page.
-/

namespace MemoryHierarchy

open Lib

/-- `addr_fmt_t`. -/
inductive AddrFmt
  | none
  | pointer
  | offset
  | offsetU
  deriving DecidableEq, Repr

/-- What one call of a printing function prints. -/
inductive DumpItem
  | address (showAddr : AddrFmt) (addr : BitVec 64)
  | byte (addr : BitVec 64) (value : Byte)
  | blank
  | newline
  deriving DecidableEq

/-- `address_print`. How `%p` shows a pointer is up to the platform. -/
def addressPrint (pointerText : BitVec 64 → List Byte) (showAddr : AddrFmt) (addr : BitVec 64)
    (sep : List Byte) : List Byte :=
  match showAddr with
  | .pointer => pointerText addr ++ [ch ':'] ++ sep
  | .offset => printHex 1 addr.toNat ++ [ch ':'] ++ sep
  | .offsetU => printDec addr.toNat ++ [ch ':'] ++ sep
  | .none => []

/-- The text printed. -/
def DumpItem.text (pointerText : BitVec 64 → List Byte) (sep : List Byte) : DumpItem → List Byte
  | .address showAddr addr => addressPrint pointerText showAddr addr sep
  | .byte _ value => printHex 2 value.toNat ++ sep
  | .blank => [ch ' ', ch ' '] ++ sep
  | .newline => [ch '\n']

/-- The loop of `mem_dump_with_options`, with the line break after it. -/
def memDumpLoop (memory : ByteMem) (toAddr : BitVec 64) (showAddr : AddrFmt) (lineSize : BitVec 64)
    (addr nbToPrint : BitVec 64) : List DumpItem :=
  if addr < toAddr then
    (if nbToPrint = lineSize then [.address showAddr addr] else []) ++
      .byte addr (memory addr) ::
      if nbToPrint - 1 = 0 then
        .newline :: memDumpLoop memory toAddr showAddr lineSize (addr + 1) lineSize
      else memDumpLoop memory toAddr showAddr lineSize (addr + 1) (nbToPrint - 1)
  else if nbToPrint ≠ lineSize then [.newline]
  else []
termination_by toAddr.toNat - addr.toNat
decreasing_by all_goals
  have hlt : addr.toNat < toAddr.toNat := BitVec.lt_def.mp ‹addr < toAddr›
  have := toAddr.isLt
  rw [BitVec.toNat_add, show (1 : BitVec 64).toNat = 1 from rfl, Nat.mod_eq_of_lt (by omega)]
  omega

/-- `mem_dump_with_options`. The line size is not 0, which it asserts. -/
def memDumpWithOptions (memory : ByteMem) (fromAddr toAddr : BitVec 64) (showAddr : AddrFmt)
    (lineSize : BitVec 64) : List DumpItem :=
  memDumpLoop memory toAddr showAddr lineSize fromAddr lineSize

/-- `vmem_page_dump_with_options`: its error code and what it prints. -/
def vmemPageDumpWithOptions (memory : ByteMem) (fromAddr : VirtAddr) (showAddr : AddrFmt)
    (lineSize : BitVec 64) : ErrorCode × List DumpItem :=
  match pageWalk (wordsOf memory) fromAddr with
  | .error err => (err, [])
  | .ok paddr =>
    let paddrOffset := paddr.phyPageNum.setWidth 32 <<< pageOffsetBits
    let pageOffset := paddr.pageOffset.setWidth 64
    let pageStart := paddrOffset.setWidth 64
    let start := pageStart + pageOffset
    let endLine := start + (lineSize - pageOffset % lineSize)
    let pageEnd := pageStart + BitVec.ofNat 64 pageSize
    let indent := pageOffset % lineSize
    (.errNone,
      memDumpWithOptions memory pageStart start showAddr lineSize ++
      (if indent = 0 then [.newline] else []) ++
      [.address showAddr start] ++
      List.replicate indent.toNat .blank ++
      memDumpWithOptions memory start endLine .none lineSize ++
      memDumpWithOptions memory endLine pageEnd showAddr lineSize)

/-- `vmem_page_dump`: sixteen bytes a line, with offsets. -/
def vmemPageDump (memory : ByteMem) (fromAddr : VirtAddr) : ErrorCode × List DumpItem :=
  vmemPageDumpWithOptions memory fromAddr .offset 16

/-! ### The bytes printed -/

/-- The bytes printed, with the offsets they were read at. -/
def printedBytes (output : List DumpItem) : List (ℕ × Byte) :=
  output.filterMap fun item =>
    match item with
    | .byte addr value => some (addr.toNat, value)
    | .address _ _ => none
    | .blank => none
    | .newline => none

/-- The bytes at `count` consecutive offsets. -/
def bytesFrom (memory : ByteMem) (offset count : ℕ) : List (ℕ × Byte) :=
  (List.range' offset count).map fun a => (a, memory (BitVec.ofNat 64 a))

@[simp]
theorem length_bytesFrom (memory : ByteMem) (offset count : ℕ) :
    (bytesFrom memory offset count).length = count := by
  rw [bytesFrom, List.length_map, List.length_range']

theorem bytesFrom_append (memory : ByteMem) (offset count count' : ℕ) :
    bytesFrom memory offset count ++ bytesFrom memory (offset + count) count' =
      bytesFrom memory offset (count + count') := by
  rw [bytesFrom, bytesFrom, bytesFrom, ← List.map_append, List.range'_append_1]

theorem printedBytes_append (output output' : List DumpItem) :
    printedBytes (output ++ output') = printedBytes output ++ printedBytes output' :=
  List.filterMap_append

/-- Whatever the layout of the lines, the loop prints the bytes up to `toAddr`. -/
theorem printedBytes_memDumpLoop (memory : ByteMem) (toAddr : BitVec 64) (showAddr : AddrFmt)
    (lineSize addr nbToPrint : BitVec 64) :
    printedBytes (memDumpLoop memory toAddr showAddr lineSize addr nbToPrint) =
      bytesFrom memory addr.toNat (toAddr.toNat - addr.toNat) := by
  induction hn : toAddr.toNat - addr.toNat generalizing addr nbToPrint with
  | zero =>
    have hlt : ¬ addr < toAddr := by
      rw [BitVec.lt_def]
      omega
    rw [memDumpLoop, if_neg hlt]
    split_ifs <;> rfl
  | succ n ih =>
    have hlt : addr < toAddr := by
      rw [BitVec.lt_def]
      omega
    have hto := toAddr.isLt
    have hnext : (addr + 1).toNat = addr.toNat + 1 := by
      rw [BitVec.toNat_add, show (1 : BitVec 64).toNat = 1 from rfl, Nat.mod_eq_of_lt (by omega)]
    have hrest : ∀ nb, printedBytes (memDumpLoop memory toAddr showAddr lineSize (addr + 1) nb) =
        bytesFrom memory (addr.toNat + 1) n := by
      intro nb
      rw [ih (addr + 1) nb (by omega), hnext]
    have hbytes : bytesFrom memory addr.toNat (n + 1) =
        (addr.toNat, memory addr) :: bytesFrom memory (addr.toNat + 1) n := by
      rw [bytesFrom, List.range'_succ, List.map_cons, BitVec.ofNat_toNat, BitVec.setWidth_eq]
      rfl
    have haddress : printedBytes
        (if nbToPrint = lineSize then [.address showAddr addr] else []) = [] := by
      split_ifs <;> rfl
    rw [memDumpLoop, if_pos hlt, printedBytes_append, haddress, List.nil_append, hbytes]
    split_ifs
    · exact congrArg _ (hrest lineSize)
    · exact congrArg _ (hrest (nbToPrint - 1))

/-! ### The page -/

/-- The bytes of a page frame. -/
def pageBytes (memory : ByteMem) (frame : BitVec 20) : List (ℕ × Byte) :=
  bytesFrom memory (frame.toNat * pageSize) pageSize

/-- What is printed is the page: its bytes, in order and each once, and nothing else is read. -/
structure DumpsPage (memory : ByteMem) (frame : BitVec 20) (output : List DumpItem) : Prop where
  bytes : printedBytes output = pageBytes memory frame
  inside : ∀ a ∈ (printedBytes output).map Prod.fst,
    frame.toNat * pageSize ≤ a ∧ a < frame.toNat * pageSize + pageSize

/-- Three consecutive pieces, cut at `offset` and at `cut`, are the whole exactly when the cuts
are in order and inside of it. -/
theorem pieces_eq_whole_iff (memory : ByteMem) {start offset size cut : ℕ} (h : offset ≤ size) :
    bytesFrom memory start offset ++ bytesFrom memory (start + offset) (cut - (start + offset)) ++
        bytesFrom memory cut (start + size - cut) = bytesFrom memory start size ↔
      start + offset ≤ cut ∧ cut ≤ start + size := by
  constructor
  · intro heq
    have hlength := congrArg List.length heq
    simp only [List.length_append, length_bytesFrom] at hlength
    omega
  · rintro ⟨hlow, hhigh⟩
    obtain ⟨k, rfl⟩ := Nat.exists_eq_add_of_le hlow
    rw [Nat.add_sub_cancel_left, bytesFrom_append, Nat.add_assoc, bytesFrom_append]
    congr 1
    omega

/-- The line of `lineSize` bytes that an offset lies in ends inside the page. -/
def LineEndsInPage (pageOffset : BitVec 12) (lineSize : BitVec 64) : Prop :=
  (pageOffset.toNat / lineSize.toNat + 1) * lineSize.toNat ≤ pageSize

/-- The offset of the second cut: the end of the line, as a sum of 64 bits. -/
def lineEnd (frame : BitVec 20) (pageOffset : BitVec 12) (lineSize : BitVec 64) : ℕ :=
  (frame.toNat * pageSize + pageOffset.toNat +
    (lineSize.toNat - pageOffset.toNat % lineSize.toNat)) % 2 ^ 64

/-- The second cut is behind the first and not behind the page exactly when the line ends inside
the page; a line so long that the sum wraps ends before the address. -/
theorem lineEnd_mem_page_iff (frame : BitVec 20) (pageOffset : BitVec 12) {lineSize : BitVec 64}
    (hline : lineSize ≠ 0) :
    frame.toNat * pageSize + pageOffset.toNat ≤ lineEnd frame pageOffset lineSize ∧
        lineEnd frame pageOffset lineSize ≤ frame.toNat * pageSize + pageSize ↔
      LineEndsInPage pageOffset lineSize := by
  have hframe := frame.isLt
  have hoff := pageOffset.isLt
  have hlineLt := lineSize.isLt
  have hpos : 0 < lineSize.toNat := Nat.pos_of_ne_zero fun h => hline (BitVec.eq_of_toNat_eq h)
  have hmod := Nat.mod_lt pageOffset.toNat hpos
  have hdiv := Nat.div_add_mod' pageOffset.toNat lineSize.toNat
  simp only [lineEnd, LineEndsInPage, pageSize, Nat.add_mul, Nat.one_mul]
  constructor
  · rintro ⟨hlow, hhigh⟩
    omega
  · intro hin
    rw [Nat.mod_eq_of_lt (by omega)]
    omega

/-- The start of a page frame, as a pointer. -/
theorem toNat_pageStart (frame : BitVec 20) :
    ((frame.setWidth 32 <<< pageOffsetBits).setWidth 64).toNat = frame.toNat * pageSize := by
  have hframe := frame.isLt
  rw [BitVec.toNat_setWidth, toNat_setWidth_shiftLeft _ (by decide), Nat.mod_eq_of_lt]
  · rfl
  · change _ * 2 ^ 12 < _
    omega

/-- Pointers into a page frame, or right behind it, do not wrap. -/
theorem toNat_pageStart_add (frame : BitVec 20) {offset : BitVec 64}
    (h : offset.toNat ≤ pageSize) :
    ((frame.setWidth 32 <<< pageOffsetBits).setWidth 64 + offset).toNat =
      frame.toNat * pageSize + offset.toNat := by
  have hframe := frame.isLt
  rw [BitVec.toNat_add, toNat_pageStart, Nat.mod_eq_of_lt]
  simp only [pageSize] at h ⊢
  omega

theorem toNat_pageOffset (pageOffset : BitVec 12) :
    (pageOffset.setWidth 64).toNat = pageOffset.toNat := by
  have hoff := pageOffset.isLt
  rw [BitVec.toNat_setWidth, Nat.mod_eq_of_lt (by omega)]

/-- The second cut, as the code computes it. -/
theorem toNat_lineEnd (frame : BitVec 20) (pageOffset : BitVec 12) {lineSize : BitVec 64}
    (hline : lineSize ≠ 0) :
    ((frame.setWidth 32 <<< pageOffsetBits).setWidth 64 + pageOffset.setWidth 64 +
      (lineSize - pageOffset.setWidth 64 % lineSize)).toNat =
        lineEnd frame pageOffset lineSize := by
  have hpos : 0 < lineSize :=
    BitVec.lt_def.mpr (Nat.pos_of_ne_zero fun h => hline (BitVec.eq_of_toNat_eq h))
  have hoff : (pageOffset.setWidth 64).toNat ≤ pageSize :=
    (toNat_pageOffset pageOffset).trans_le (Nat.le_of_lt pageOffset.isLt)
  rw [BitVec.toNat_add, toNat_pageStart_add frame hoff, BitVec.toNat_sub_of_le, BitVec.toNat_umod,
    toNat_pageOffset]
  · rfl
  · exact BitVec.le_of_lt (BitVec.umod_lt _ hpos)

private theorem printedBytes_blanks (n : ℕ) : printedBytes (List.replicate n .blank) = [] := by
  induction n with
  | zero => rfl
  | succ n ih => exact ih

/-- The three pieces. -/
theorem printedBytes_vmemPageDump (memory : ByteMem) (fromAddr : VirtAddr) (showAddr : AddrFmt)
    {lineSize : BitVec 64} (hline : lineSize ≠ 0) :
    let pageStart := (pageFrame (wordsOf memory) fromAddr).toNat * pageSize
    let start := pageStart + fromAddr.pageOffset.toNat
    let endLine := lineEnd (pageFrame (wordsOf memory) fromAddr) fromAddr.pageOffset lineSize
    printedBytes (vmemPageDumpWithOptions memory fromAddr showAddr lineSize).2 =
      bytesFrom memory pageStart fromAddr.pageOffset.toNat ++
        bytesFrom memory start (endLine - start) ++
        bytesFrom memory endLine (pageStart + pageSize - endLine) := by
  intro pageStart start endLine
  have hoff : (fromAddr.pageOffset.setWidth 64).toNat ≤ pageSize :=
    (toNat_pageOffset _).trans_le (Nat.le_of_lt fromAddr.pageOffset.isLt)
  have hsize : (BitVec.ofNat 64 pageSize).toNat = pageSize := by decide
  have hbreak : ∀ c : Prop, ∀ _ : Decidable c,
      printedBytes (if c then [.newline] else []) = [] := by
    intro c _
    split_ifs <;> rfl
  have haddress : ∀ addr, printedBytes [.address showAddr addr] = [] := fun _ => rfl
  rw [vmemPageDumpWithOptions, pageWalk_eq]
  simp only [printedBytes_append, memDumpWithOptions, printedBytes_memDumpLoop,
    printedBytes_blanks, hbreak, haddress, toNat_pageStart, toNat_pageStart_add _ hoff,
    toNat_pageStart_add _ hsize.le, toNat_pageOffset, toNat_lineEnd _ _ hline, hsize,
    List.append_nil]
  simp only [start, pageStart, endLine, Nat.add_sub_cancel_left]

/-- **A dump prints exactly the page** if and only if the line of the address ends inside it. -/
theorem dumpsPage_iff (memory : ByteMem) (fromAddr : VirtAddr) (showAddr : AddrFmt)
    {lineSize : BitVec 64} (hline : lineSize ≠ 0) :
    DumpsPage memory (pageFrame (wordsOf memory) fromAddr)
        (vmemPageDumpWithOptions memory fromAddr showAddr lineSize).2 ↔
      LineEndsInPage fromAddr.pageOffset lineSize := by
  have hoff : fromAddr.pageOffset.toNat ≤ pageSize := Nat.le_of_lt fromAddr.pageOffset.isLt
  have hbytes : printedBytes (vmemPageDumpWithOptions memory fromAddr showAddr lineSize).2 =
      pageBytes memory (pageFrame (wordsOf memory) fromAddr) ↔
        LineEndsInPage fromAddr.pageOffset lineSize := by
    rw [printedBytes_vmemPageDump memory fromAddr showAddr hline, pageBytes,
      pieces_eq_whole_iff memory hoff, lineEnd_mem_page_iff _ _ hline]
  refine ⟨fun h => hbytes.mp h.bytes, fun h => ⟨hbytes.mpr h, fun a ha => ?_⟩⟩
  rw [hbytes.mpr h, pageBytes, bytesFrom, List.map_map] at ha
  obtain ⟨a', ha', rfl⟩ := List.mem_map.mp ha
  rw [List.mem_range'_1] at ha'
  exact ha'

/-- Lines that fill the page end inside it. -/
theorem lineEndsInPage_of_dvd (pageOffset : BitVec 12) {lineSize : BitVec 64}
    (h : lineSize.toNat ∣ pageSize) : LineEndsInPage pageOffset lineSize := by
  obtain ⟨k, hk⟩ := h
  rw [LineEndsInPage, hk, Nat.mul_comm]
  refine Nat.mul_le_mul_left _ (Nat.div_lt_of_lt_mul ?_)
  rw [← hk]
  exact pageOffset.isLt

/-- `vmem_page_dump` prints the page, whatever the address. -/
theorem dumpsPage_vmemPageDump (memory : ByteMem) (fromAddr : VirtAddr) :
    DumpsPage memory (pageFrame (wordsOf memory) fromAddr) (vmemPageDump memory fromAddr).2 :=
  (dumpsPage_iff memory fromAddr .offset (by decide)).mpr
    (lineEndsInPage_of_dvd _ ⟨256, rfl⟩)

/-- **When a dump prints the page.** For an address whose walk succeeds and a line size other than
0, the three pieces are the page, with nothing read outside of it, if and only if the line of
the address ends inside the page. -/
theorem pageDump_prints_page_iff (memory : ByteMem) {fromAddr : VirtAddr} {paddr : PhyAddr}
    (hwalk : pageWalk (wordsOf memory) fromAddr = .ok paddr) (showAddr : AddrFmt)
    {lineSize : BitVec 64} (hline : 1 ≤ lineSize.toNat) :
    DumpsPage memory paddr.phyPageNum
        (vmemPageDumpWithOptions memory fromAddr showAddr lineSize).2 ↔
      LineEndsInPage fromAddr.pageOffset lineSize := by
  have hne : lineSize ≠ 0 := fun h => by
    rw [h] at hline
    exact absurd hline (by decide)
  rw [pageWalk_eq] at hwalk
  obtain rfl := Except.ok.inj hwalk
  exact dumpsPage_iff memory fromAddr showAddr hne

/-- The first byte of a page, dumped in lines of 48 bytes: 48 does not divide 4096. -/
theorem pageDump_prints_page_first :
    DumpsPage (fun _ => 0) 0
      (vmemPageDumpWithOptions (fun _ => 0) ⟨0, 0, 0, 0, 0, 0⟩ .offset 48).2 :=
  (pageDump_prints_page_iff (fun _ => 0)
    (by decide : pageWalk (wordsOf fun _ => 0) ⟨0, 0, 0, 0, 0, 0⟩ = .ok ⟨0, 0⟩) .offset
    (by decide)).mpr (by decide : (0 / 48 + 1) * 48 ≤ 4096)

/-- Six bytes before the end of a page, with the same lines: the line ends 32 bytes behind it. -/
theorem not_pageDump_prints_page :
    pageWalk (wordsOf fun _ => 0) ⟨0, 0, 0, 0, 0, 4090⟩ = .ok ⟨0, 4090⟩ ∧
      printedBytes (vmemPageDumpWithOptions (fun _ => 0) ⟨0, 0, 0, 0, 0, 4090⟩ .offset 48).2 =
        bytesFrom (fun _ => 0) 0 4128 ∧
      ¬ DumpsPage (fun _ => 0) 0
        (vmemPageDumpWithOptions (fun _ => 0) ⟨0, 0, 0, 0, 0, 4090⟩ .offset 48).2 := by
  have hframe : pageFrame (wordsOf fun _ => 0) ⟨0, 0, 0, 0, 0, 4090⟩ = 0 := by decide
  have hbytes :
      printedBytes (vmemPageDumpWithOptions (fun _ => 0) ⟨0, 0, 0, 0, 0, 4090⟩ .offset 48).2 =
        bytesFrom (fun _ => 0) 0 4128 := by
    have hend : lineEnd 0 4090 48 = 4128 := by decide
    have hpieces := printedBytes_vmemPageDump (fun _ => 0) ⟨0, 0, 0, 0, 0, 4090⟩ .offset
      (by decide : (48 : BitVec 64) ≠ 0)
    simp only [hframe, hend] at hpieces
    -- the third piece is empty
    refine hpieces.trans ((List.append_nil _).trans ?_)
    exact bytesFrom_append (fun _ => 0) 0 4090 38
  refine ⟨by decide, hbytes, fun h => ?_⟩
  have hlength := congrArg List.length (hbytes.symm.trans h.bytes)
  rw [pageBytes, length_bytesFrom, length_bytesFrom] at hlength
  exact absurd hlength (by decide)

end MemoryHierarchy
