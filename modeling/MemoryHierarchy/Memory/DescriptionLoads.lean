import MemoryHierarchy.Memory.Description

/-!
# Loading what is described

`mem_init_from_description` on a description that is well formed and fits. Each part of the header
and each line of the two loops reads its line and lays its page over the memory (`readTable_eq`,
`dataPass_eq`); the translation pages are in place when the data pages are translated and stay in
place, so the translations are those of the final memory (`description_loads`).
-/

namespace MemoryHierarchy

open Lib

/-! ### The text, line by line -/

/-- What comes after a line that some lines follow. -/
def followedBy (lastNewline : Bool) : List (List Byte) → Option (List Byte)
  | [] => if lastNewline then some [] else none
  | line :: lines => some (line ++ endText (followedBy lastNewline lines))

theorem intercalate_eq (lastNewline : Bool) (line : List Byte) (lines : List (List Byte)) :
    [ch '\n'].intercalate (line :: lines) ++ (if lastNewline then [ch '\n'] else []) =
      line ++ endText (followedBy lastNewline lines) := by
  induction lines generalizing line with
  | nil => cases lastNewline <;> simp [followedBy, endText]
  | cons line' lines ih =>
    rw [List.intercalate_cons_cons, List.append_assoc, ih, followedBy, endText, List.append_assoc]
    rfl

variable {env : LoadEnv} {s : LoadState} {memory : ByteMem} {p : ℕ × Path}
  {content rest : List Byte}

/-- A page that lies inside the memory is laid over it. -/
theorem readPage_eq (env : LoadEnv)
    (hmemory : s.memory = some memory) (hfile : env.files p.2 = some content)
    (hlength : pageSize ≤ content.length) (hp : p.1 + pageSize ≤ s.memCapacityInBytes.toNat) :
    s.readPage env (BitVec.ofNat 64 p.1) p.2 =
      .ok { s with memory := some (overlay memory (blockAt env.files p)) } := by
  have hsize := s.memCapacityInBytes.isLt
  have hcheck : BitVec.ofNat 64 p.1 + BitVec.ofNat 64 pageSize ≤ s.memCapacityInBytes := by
    rw [check_iff, BitVec.toNat_ofNat]
    simp only [pageSize] at hp
    omega
  have hblock : storeBytes memory (BitVec.ofNat 64 p.1) (content.take pageSize) =
      overlay memory (blockAt env.files p) := by
    funext i
    rw [overlay, blockAt, pageIn, hfile]
    rfl
  rw [LoadState.readPage, hmemory, pageFileRead_eq hfile hlength hcheck, hblock]
  rfl

/-! ### The header -/

/-- The allocated memory: zero, up to its capacity. -/
def zeroed (around : ByteMem) (size : BitVec 64) : ByteMem := fun i =>
  if i < size then 0 else around i

theorem readCapacity_eq {capacityNumeral : List Byte} {capacity : ℕ} {around : ByteMem}
    (hcalloc : env.calloc = some around) (hcapacity : IsDecNumeral capacityNumeral capacity)
    (hlt : capacity < 2 ^ 64) (hf : s.f = File.open (capacityNumeral ++ endText (some rest))) :
    readCapacity env s = .ok
      { f := File.open rest
        memory := some (zeroed around (BitVec.ofNat 64 capacity))
        memCapacityInBytes := BitVec.ofNat 64 capacity } := by
  have hscan : fscanfUnsigned 10 (File.open (capacityNumeral ++ endText (some rest))) =
      (some capacity, File.open (endText (some rest))) :=
    fscanfUnsigned_of_isDecNumeral [] rfl (List.forall_mem_nil _) hcapacity hlt (by decide)
  have hget : fgetc (File.open (endText (some rest))) = (10, File.open rest) := rfl
  simp only [readCapacity, hf, hscan, hget, ne_eq, not_true_eq_false, if_false,
    LoadEnv.callocBytes, hcalloc, Option.map_some]
  rfl

theorem readPgd_eq {pgdLocation : Path} (hpath : IsLinePath pgdLocation)
    (hf : s.f = File.open (pgdLocation ++ endText (some rest))) :
    readPgd env s = { s with f := File.open rest }.readPage env 0 pgdLocation := by
  obtain ⟨hne, hline, hlength⟩ := hpath
  obtain ⟨line, hgets, htoken⟩ := fgets_line (some rest) hne hline hlength
  simp only [readPgd, hf, hgets, afterLine, Option.getD_some, htoken]
  rfl

theorem readNbTables_eq {numeral : List Byte} {nbTables : ℕ}
    (hnumeral : IsDecNumeral numeral nbTables) (hlt : nbTables < 2 ^ 64)
    (hf : s.f = File.open (numeral ++ endText (some rest))) :
    readNbTables s = .ok ({ s with f := File.open (endText (some rest)) }, nbTables) := by
  have hscan : fscanfUnsigned 10 (File.open (numeral ++ endText (some rest))) =
      (some nbTables, File.open (endText (some rest))) :=
    fscanfUnsigned_of_isDecNumeral [] rfl (List.forall_mem_nil _) hnumeral hlt (by decide)
  simp only [readNbTables, hf, hscan]

/-! ### The translation pages -/

/-- **One line** of a translation page: its page is laid over the memory. -/
theorem readTable_eq (i : ℕ) {t : TablePage} {lead : List Byte} {after : Option (List Byte)}
    (hlead : ∀ c ∈ lead, IsSpace c) (hlocation : IsHexNumeral t.numeral t.location.toNat)
    (hpath : IsLinePath t.path) (hf : s.f = File.open (lead ++ t.line ++ endText after)) :
    readTable env i s = { s with f := afterLine after }.readPage env
      (BitVec.ofNat 64 t.location.toNat) t.path := by
  obtain ⟨hne, hline, hlength⟩ := hpath
  obtain ⟨line, hgets, htoken⟩ := fgets_line after hne hline hlength
  have hlt : t.location.toNat < 2 ^ 64 := t.location.isLt.trans (by decide)
  have htext : lead ++ t.line ++ endText after =
      lead ++ t.numeral ++ ch ' ' :: (t.path ++ endText after) := by
    simp [TablePage.line]
  have hscan : fscanfUnsigned 16 (File.open (lead ++ t.line ++ endText after)) =
      (some t.location.toNat, File.open (ch ' ' :: (t.path ++ endText after))) :=
    fscanfUnsigned_of_isHexNumeral lead htext hlead hlocation hlt (by decide)
  have hget : fgetc (File.open (ch ' ' :: (t.path ++ endText after))) =
      (32, File.open (t.path ++ endText after)) := rfl
  have hwiden : (BitVec.ofNat 32 t.location.toNat).setWidth 64 =
      BitVec.ofNat 64 t.location.toNat := by
    rw [BitVec.ofNat_toNat, BitVec.ofNat_toNat, BitVec.setWidth_eq]
  simp only [readTable, hf, hscan, hget, ne_eq, not_true_eq_false, if_false, hgets,
    Option.getD_some, htoken, hwiden]

/-- **One pass** lays the page of a line over the memory, and goes on. -/
theorem tablePass_eq {nbTables i : ℕ} {t : TablePage} {lead : List Byte}
    {after : Option (List Byte)} (hi : i < nbTables) (hlead : ∀ c ∈ lead, IsSpace c)
    (ht : IsHexNumeral t.numeral t.location.toNat ∧ IsLinePath t.path)
    (hmemory : s.memory = some memory)
    (hfull : ∃ content, env.files t.path = some content ∧ pageSize ≤ content.length)
    (hinside : t.page.1 + pageSize ≤ s.memCapacityInBytes.toNat)
    (hf : s.f = File.open (lead ++ t.line ++ endText after)) :
    tablePass env nbTables (s, i) = .again
      ({ s with f := afterLine after, memory := some (overlay memory (blockAt env.files t.page)) },
        i + 1) := by
  obtain ⟨content, hfile, hlength⟩ := hfull
  have hread := (readTable_eq i hlead ht.1 ht.2 hf).trans
    (readPage_eq env (p := t.page) hmemory hfile hlength hinside)
  rw [tablePass, if_pos hi, hread]

/-- **The loop** over the translation pages lays them all over the memory. -/
theorem tablesLoop_eq (env : LoadEnv) {nbTables i : ℕ} {data : List (List Byte)}
    {lastNewline : Bool} (lead : List Byte) (t : TablePage) (ts : List TablePage)
    (hlead : ∀ c ∈ lead, IsSpace c)
    (hts : ∀ u ∈ t :: ts, IsHexNumeral u.numeral u.location.toNat ∧ IsLinePath u.path)
    (hfull : ∀ u ∈ t :: ts, ∃ content, env.files u.path = some content ∧
      pageSize ≤ content.length)
    (hinside : ∀ u ∈ t :: ts, u.page.1 + pageSize ≤ s.memCapacityInBytes.toNat)
    (hmemory : s.memory = some memory)
    (hf : s.f = File.open (lead ++ t.line ++
      endText (followedBy lastNewline (ts.map TablePage.line ++ data))))
    (hi : i + (t :: ts).length = nbTables) :
    tablesLoop env nbTables (s, i) = .ok
      { s with
        f := afterLine (followedBy lastNewline data)
        memory := some
          ((((t :: ts).map TablePage.page).map (blockAt env.files)).foldl overlay memory) } := by
  induction ts generalizing s t lead i memory with
  | nil =>
    rw [List.length_singleton] at hi
    rw [tablesLoop, loop_again (tablePass_eq (by omega) hlead (hts t List.mem_cons_self) hmemory
      (hfull t List.mem_cons_self) (hinside t List.mem_cons_self) hf)]
    refine loop_leave ?_
    rw [tablePass, if_neg (by simp only; omega)]
    rfl
  | cons t' ts ih =>
    rw [List.length_cons] at hi
    rw [tablesLoop, loop_again (tablePass_eq (by omega) hlead (hts t List.mem_cons_self) hmemory
      (hfull t List.mem_cons_self) (hinside t List.mem_cons_self) hf)]
    exact ih [] t' (List.forall_mem_nil _) (fun u hu => hts u (List.mem_cons_of_mem t hu))
      (fun u hu => hfull u (List.mem_cons_of_mem t hu))
      (fun u hu => hinside u (List.mem_cons_of_mem t hu)) rfl rfl (by omega)

/-! ### The data pages -/

/-- What the tokenizer makes of a numeral. -/
theorem visible_of_isHexNumeral {numeral : List Byte} {n : ℕ} (h : IsHexNumeral numeral n) :
    ∀ c ∈ numeral, ¬ IsSpace c ∧ c ≠ 0 ∧ c ≠ eofChar := by
  intro c hc
  obtain hhex | rfl | rfl := h.isHex_or_x hc
  · refine ⟨hhex.not_space, ?_, ?_⟩
    · rintro rfl
      exact absurd hhex (by decide)
    · rintro rfl
      exact absurd hhex (by decide)
  · decide
  · decide

theorem cString_eq_self {text : List Byte} (h : ∀ c ∈ text, c ≠ 0) : cString text = text :=
  List.takeWhile_eq_self_iff.mpr fun c hc => decide_eq_true (h c hc)

/-- **One pass** over a line of a data page reads its page. -/
theorem dataPass_eq (env : LoadEnv) {line : DataPage} (after : Option (List Byte))
    (hnumeral : IsHexNumeral line.numeral line.virtaddr.toNat)
    (hlength : line.numeral.length ≤ Loader.maxSizeBuffer) (hpath : IsTokenPath line.path)
    (hf : s.f = File.open (line.line ++ endText after)) :
    dataPass env s =
      match readData env { s with f := afterLine after } line.virtaddr.toNat line.path with
      | .error r => .leave r
      | .ok t => .again t := by
  obtain ⟨hne, hvisible, hshort⟩ := hpath
  have htoken := visible_of_isHexNumeral hnumeral
  have hnumber : readToken Loader.maxSizeBuffer (File.open (line.line ++ endText after)) =
      { err := .errNone
        buffer := line.numeral
        stored := List.range line.numeral.length
        input := File.open (line.path ++ endText after) } := by
    have hstarts : StartsWithWord line.numeral (File.open (line.line ++ endText after)).rest
        (line.path ++ endText after) :=
      ⟨[], ch ' ', List.forall_mem_nil _, by decide, by simp [File.open, DataPage.line]⟩
    obtain ⟨hnext, hafter⟩ := hstarts.nextToken_eq rfl hnumeral.ne_nil fun c hc => (htoken c hc).1
    rw [readToken_eq (by rw [hnext]; exact hlength), hnext, hafter]
    rfl
  obtain ⟨mark, hnext, hafter⟩ :=
    nextToken_line after hne fun c hc => (hvisible c hc).1
  have hread : readToken Loader.maxSizeBuffer (File.open (line.path ++ endText after)) =
      { err := .errNone
        buffer := line.path ++ [mark]
        stored := List.range (line.path ++ [mark]).length
        input := afterLine after } := by
    rw [readToken_eq (by rw [hnext, List.length_append]; exact hshort), hnext, hafter]
  have hended : (File.open (line.line ++ endText after)).ended = false := rfl
  have hhead : ¬ line.numeral.head? = some eofChar := fun hhead =>
    (htoken _ (List.mem_of_mem_head? hhead)).2.2 rfl
  have hnumeralLength : ¬ line.numeral.length = 0 :=
    mt List.length_eq_zero_iff.mp hnumeral.ne_nil
  rw [dataPass, hf, hended]
  rcases hdata : readData env { s with f := afterLine after } line.virtaddr.toNat line.path <;>
    simp only [Bool.false_eq_true, if_false, hnumber, if_neg hnumeralLength,
      cString_eq_self fun c hc => (htoken c hc).2.1,
      strtoull16_of_isHexNumeral hnumeral line.virtaddr.isLt, if_neg hhead, hread, ne_eq,
      not_true_eq_false, List.length_append, List.length_singleton, Nat.succ_ne_zero,
      List.dropLast_concat, cString_eq_self fun c hc => (hvisible c hc).2, hdata]

/-- The address computed from a translation is the place it stands for, as long as that lies in the
low half of 32 bits. -/
theorem physicalAddress_eq {virtaddr : BitVec 64} {phy : PhyAddr}
    (hwalk : pageWalk (wordsOf memory) (virtAddr64 virtaddr) = .ok phy)
    (hlow : placeOf memory virtaddr < 2 ^ 31) :
    physicalAddress phy = BitVec.ofNat 64 (placeOf memory virtaddr) := by
  have hplace : placeOf memory virtaddr = phy.phyPageNum.toNat * 4096 + phy.pageOffset.toNat := by
    rw [placeOf, hwalk]
  refine BitVec.eq_of_toNat_eq ?_
  rw [toNat_physicalAddress, if_pos (by omega), Nat.add_zero, BitVec.toNat_ofNat, hplace,
    Nat.mod_eq_of_lt (by omega)]

/-- **The address of a data page** is where its virtual address is translated to, as long as that
lies in the low half of 32 bits. -/
theorem readData_eq (env : LoadEnv) {virtaddr : BitVec 64} (path : Path)
    (hmemory : s.memory = some memory)
    (hfull : ∃ content, env.files path = some content ∧ pageSize ≤ content.length)
    (hlow : placeOf memory virtaddr < 2 ^ 31)
    (hinside : placeOf memory virtaddr + pageSize ≤ s.memCapacityInBytes.toNat) :
    readData env s virtaddr.toNat path = .ok
      { s with
        memory := some (overlay memory (blockAt env.files (placeOf memory virtaddr, path))) } := by
  obtain ⟨content, hfile, hlength⟩ := hfull
  obtain ⟨phy, hwalk⟩ : ∃ phy, pageWalk (wordsOf memory) (virtAddr64 virtaddr) = .ok phy :=
    ⟨_, pageWalk_eq _ _⟩
  rw [readData, BitVec.ofNat_toNat, BitVec.setWidth_eq, initVirtAddr64_eq, hmemory]
  simp only [hwalk, physicalAddress_eq hwalk hlow]
  exact readPage_eq env (p := (placeOf memory virtaddr, path)) hmemory hfile hlength hinside

/-- At the end of the text the loop is left. -/
theorem dataPass_end (lastNewline : Bool) (hf : s.f = afterLine (followedBy lastNewline [])) :
    dataPass env s = .leave (s.exit .errNone) := by
  rw [dataPass, hf]
  cases lastNewline with
  | false =>
    have hended : (afterLine (followedBy false [])).ended = true := rfl
    rw [if_pos hended]
  | true =>
    have hended : (afterLine (followedBy true [])).ended = false := rfl
    obtain ⟨hnext, hafter⟩ := nextToken_nil (f := File.open []) rfl rfl
    have hread : readToken Loader.maxSizeBuffer (afterLine (followedBy true [])) =
        { err := .errNone
          buffer := [eofChar]
          stored := List.range 1
          input := (File.open []).atEnd } := by
      change readToken Loader.maxSizeBuffer (File.open []) = _
      rw [readToken_eq (by rw [hnext]; decide), hnext, hafter]
      rfl
    rw [hended, hread]
    rfl

variable {d : Description} {files : Path → Option (List Byte)}

/-- **The loop** over the data pages lays them all over the memory, at the addresses that the
translation pages give them. -/
theorem dataLoop_eq (h : d.Fits env.files) (hcapacity : d.capacity ≤ 2 ^ 31)
    (lines : List DataPage) (hlines : ∀ p ∈ lines, p ∈ d.dataPages)
    (hformat : ∀ p ∈ lines, IsHexNumeral p.numeral p.virtaddr.toNat ∧
      p.numeral.length ≤ Loader.maxSizeBuffer ∧ IsTokenPath p.path)
    (hsize : s.memCapacityInBytes.toNat = d.capacity) (hmemory : s.memory = some memory)
    (htables : HoldsTables d env.files memory)
    (hf : s.f = afterLine (followedBy d.lastNewline (lines.map DataPage.line))) :
    dataLoop env s =
      { err := .errNone
        memory := some (((lines.map (DataPage.page (d.tables env.files))).map
          (blockAt env.files)).foldl overlay memory)
        memCapacityInBytes := s.memCapacityInBytes } := by
  induction lines generalizing s memory with
  | nil =>
    rw [dataLoop, loop_leave (dataPass_end d.lastNewline hf), LoadState.exit, hmemory]
    rfl
  | cons line lines ih =>
    obtain ⟨hnumeral, hlength, hpath⟩ := hformat line List.mem_cons_self
    have hline := hlines line List.mem_cons_self
    have hpage : line.page (d.tables env.files) ∈ d.pages (d.tables env.files) :=
      List.mem_append_right _ (List.mem_map_of_mem hline)
    have hplace : placeOf memory line.virtaddr = placeOf (d.tables env.files) line.virtaddr :=
      placeOf_eq h htables hline
    have hinside : placeOf memory line.virtaddr + pageSize ≤ d.capacity := by
      rw [hplace]
      exact h.inside _ hpage
    have hread := readData_eq env
      (s := { s with f := afterLine (followedBy d.lastNewline (lines.map DataPage.line)) })
      line.path hmemory (h.full _ hpage) (by simp only [pageSize] at hinside; omega)
      (hsize ▸ hinside)
    have hpass := dataPass_eq env _ hnumeral hlength hpath hf
    rw [hread] at hpass
    rw [dataLoop, loop_again hpass, hplace]
    refine ih (fun p hp => hlines p (List.mem_cons_of_mem line hp))
      (fun p hp => hformat p (List.mem_cons_of_mem line hp)) hsize rfl ?_ rfl
    refine htables.overlay (h.le hcapacity hpage) fun q hq => ⟨?_, ?_⟩
    · exact h.le hcapacity (List.mem_append_left _ hq)
    · exact (List.pairwise_append.mp h.apart).2.2 q hq _ (List.mem_map_of_mem hline)

/-! ### The whole file -/

/-- **The header** is read, and the page directory laid over the memory. -/
theorem readHeader_eq (hwf : d.WellFormed) (h : d.Fits env.files) {around : ByteMem}
    (hcalloc : env.calloc = some around) {rest : List Byte} (m : Option ByteMem)
    (memCapacityInBytes : BitVec 64)
    (htext : d.text = d.capacityNumeral ++ endText (some (d.pgdLocation ++
      endText (some (d.nbTables ++ endText (some rest)))))) :
    readHeader env (some (File.open d.text)) m memCapacityInBytes = .ok
      ({ f := File.open (endText (some rest))
         memory := some (overlay (zeroed around (BitVec.ofNat 64 d.capacity))
           (blockAt env.files (0, d.pgdLocation)))
         memCapacityInBytes := BitVec.ofNat 64 d.capacity }, d.tablePages.length) := by
  have hcapacity := hwf.capacity_le
  have hpgd : (0, d.pgdLocation) ∈ d.pages (d.tables env.files) := List.mem_cons_self
  obtain ⟨content, hfile, hlength⟩ := h.full _ hpgd
  have hsize : (BitVec.ofNat 64 d.capacity).toNat = d.capacity := by
    rw [BitVec.toNat_ofNat, Nat.mod_eq_of_lt (by omega)]
  have hcount : d.tablePages.length < 2 ^ 64 := by
    have hpages := h.length_pages_le
    simp only [Description.pages, Description.translation, List.length_append, List.length_cons,
      List.length_map] at hpages
    omega
  have hread := readPage_eq env (p := (0, d.pgdLocation))
    (s := { f := File.open (d.nbTables ++ endText (some rest))
            memory := some (zeroed around (BitVec.ofNat 64 d.capacity))
            memCapacityInBytes := BitVec.ofNat 64 d.capacity })
    rfl hfile hlength (le_of_le_of_eq (h.inside _ hpgd) hsize.symm)
  rw [readHeader, readCapacity_eq hcalloc hwf.capacity (by omega) (congrArg File.open htext)]
  change (readPgd env _ >>= readNbTables) = _
  rw [readPgd_eq hwf.pgdLocation rfl]
  change (LoadState.readPage env _ (BitVec.ofNat 64 (0, d.pgdLocation).1) _ >>= readNbTables) = _
  rw [hread]
  exact readNbTables_eq hwf.nbTables hcount rfl

/-- **A run** on a description lays all pages over the allocated memory. -/
theorem memInitFromDescription_eq (hwf : d.WellFormed) (h : d.Fits env.files) {around : ByteMem}
    (hcalloc : env.calloc = some around) (m : Option ByteMem) (memCapacityInBytes : BitVec 64) :
    memInitFromDescription env (some (File.open d.text)) m memCapacityInBytes =
      { err := .errNone
        memory := some (((d.pages (d.tables env.files)).map (blockAt env.files)).foldl overlay
          (zeroed around (BitVec.ofNat 64 d.capacity)))
        memCapacityInBytes := BitVec.ofNat 64 d.capacity } := by
  have hcapacity := hwf.capacity_le
  have hsize : (BitVec.ofNat 64 d.capacity).toNat = d.capacity := by
    rw [BitVec.toNat_ofNat, Nat.mod_eq_of_lt (by omega)]
  obtain ⟨t, ts, hts⟩ := List.exists_cons_of_ne_nil hwf.tablePages_ne_nil
  have htext : d.text = d.capacityNumeral ++ endText (some (d.pgdLocation ++
      endText (some (d.nbTables ++ endText (some (t.line ++ endText (followedBy d.lastNewline
        (ts.map TablePage.line ++ d.dataPages.map DataPage.line)))))))) := by
    rw [Description.text, Description.lines, hts, intercalate_eq]
    rfl
  have htranslation : d.translation = (0, d.pgdLocation) :: (t :: ts).map TablePage.page := by
    rw [Description.translation, hts]
  have hpage : ∀ u ∈ t :: ts, u.page ∈ d.pages (d.tables env.files) := by
    intro u hu
    refine List.mem_append_left _ (htranslation ▸ ?_)
    exact List.mem_cons_of_mem _ (List.mem_map_of_mem hu)
  have hcount : 0 + (t :: ts).length = d.tablePages.length := by rw [hts, Nat.zero_add]
  have htables := tablesLoop_eq env
    (s := { f := File.open (endText (some (t.line ++ endText (followedBy d.lastNewline
              (ts.map TablePage.line ++ d.dataPages.map DataPage.line)))))
            memory := some (overlay (zeroed around (BitVec.ofNat 64 d.capacity))
              (blockAt env.files (0, d.pgdLocation)))
            memCapacityInBytes := BitVec.ofNat 64 d.capacity })
    [ch '\n'] t ts (by decide) (hts ▸ hwf.tablePages) (fun u hu => h.full _ (hpage u hu))
    (fun u hu => le_of_le_of_eq (h.inside _ (hpage u hu)) hsize.symm) rfl rfl hcount
  have hdata := dataLoop_eq (s := { f := afterLine (followedBy d.lastNewline
                                      (d.dataPages.map DataPage.line))
                                    memory := some ((d.translation.map (blockAt env.files)).foldl
                                      overlay (zeroed around (BitVec.ofNat 64 d.capacity)))
                                    memCapacityInBytes := BitVec.ofNat 64 d.capacity })
    h hcapacity d.dataPages (fun p hp => hp) hwf.dataPages hsize rfl
    (holdsTables_overlays h hcapacity (List.sublist_append_left _ _) (List.Subset.refl _) _) rfl
  rw [memInitFromDescription, readHeader_eq hwf h hcalloc m memCapacityInBytes htext]
  rw [htranslation] at hdata
  simp only [htables]
  refine hdata.trans ?_
  rw [Description.pages, htranslation, List.map_append, List.foldl_append]

/-- **Description loading.** A description that is well formed and fits is loaded without an error:
every page stands at its address, that of a data page being where the final memory translates its
virtual address to, and all other bytes are zero. -/
theorem description_loads (d : Description) (env : LoadEnv) (around : ByteMem)
    (memory : Option ByteMem) (memCapacityInBytes : BitVec 64) (hcalloc : env.calloc = some around)
    (hwf : d.WellFormed) (h : d.Fits env.files) :
    ∃ m, memInitFromDescription env (some (File.open d.text)) memory memCapacityInBytes =
        { err := .errNone, memory := some m, memCapacityInBytes := BitVec.ofNat 64 d.capacity } ∧
      (∀ p ∈ d.pages m, HoldsPage env.files m p) ∧
      ∀ i : BitVec 64, i.toNat < d.capacity →
        (∀ p ∈ d.pages m, ¬ (p.1 ≤ i.toNat ∧ i.toNat < p.1 + pageSize)) → m i = 0 := by
  have hcapacity := hwf.capacity_le
  refine ⟨_, memInitFromDescription_eq hwf h hcalloc memory memCapacityInBytes, ?_⟩
  obtain ⟨hpages, hrest⟩ := holds_overlays h hcapacity
    (zeroed around (BitVec.ofNat 64 d.capacity))
  rw [pages_eq h (holdsTables_overlays h hcapacity (List.Sublist.refl _)
    (List.subset_append_left _ _) _)]
  refine ⟨hpages, fun i hi hout => (hrest i hout).trans (if_pos ?_)⟩
  rw [BitVec.lt_def, BitVec.toNat_ofNat, Nat.mod_eq_of_lt (by omega)]
  exact hi

/-- A page directory and a translation page that map the second virtual page to the third frame. -/
def threeFiles (path : Path) : Option (List Byte) :=
  if path = [ch 'g'] then some ([0, 0x10, 0, 0] ++ List.replicate pageSize 0)
  else if path = [ch 't'] then some ([0, 0x10, 0, 0, 0, 0x20, 0, 0] ++ List.replicate pageSize 0)
  else some (List.replicate pageSize 7)

/-- The description of a memory of three pages. -/
def threePages : Description where
  capacityNumeral := [ch '1', ch '2', ch '2', ch '8', ch '8']
  capacity := 12288
  pgdLocation := [ch 'g']
  nbTables := [ch '1']
  tablePages := [{ numeral := [ch '0', ch 'x', ch '1', ch '0', ch '0', ch '0'], location := 0x1000,
                   path := [ch 't'] }]
  dataPages := [{ numeral := [ch '1', ch '0', ch '0', ch '0'], virtaddr := 0x1000,
                  path := [ch 'd'] }]
  lastNewline := true

theorem threePages_wellFormed : threePages.WellFormed where
  capacity := ⟨by decide, by decide, by decide⟩
  capacity_le := by decide
  pgdLocation := ⟨by decide, by decide, by decide⟩
  nbTables := ⟨by decide, by decide, by decide⟩
  tablePages_ne_nil := List.cons_ne_nil _ _
  tablePages := by
    rintro t (_ | ⟨_, ⟨⟩⟩)
    exact ⟨⟨[ch '0', ch 'x'], [ch '1', ch '0', ch '0', ch '0'], .inr (.inl rfl), by decide,
      by decide, rfl, by decide⟩, by decide, by decide, by decide⟩
  dataPages := by
    rintro p (_ | ⟨_, ⟨⟩⟩)
    exact ⟨⟨[], [ch '1', ch '0', ch '0', ch '0'], .inl rfl, by decide, by decide, rfl, by decide⟩,
      by decide, by decide, by decide, by decide⟩

theorem threePages_fits : threePages.Fits threeFiles := by
  have hpages : threePages.pages (threePages.tables threeFiles) =
      [(0, [ch 'g']), (4096, [ch 't']), (8192, [ch 'd'])] := by decide +kernel
  have hwalk : walkIndices (wordsOf (threePages.tables threeFiles)) (virtAddr64 0x1000) =
      [0, 1024, 1024, 1025] := by decide +kernel
  refine ⟨fun p _ => ?_, ?_, ?_, ?_⟩
  · rw [threeFiles]
    split_ifs
    · exact ⟨_, rfl, by rw [List.length_append, List.length_replicate]; exact Nat.le_add_left _ _⟩
    · exact ⟨_, rfl, by rw [List.length_append, List.length_replicate]; exact Nat.le_add_left _ _⟩
    · exact ⟨_, rfl, by rw [List.length_replicate]⟩
  · rw [hpages]
    decide
  · rw [hpages]
    decide
  · rintro p (_ | ⟨_, ⟨⟩⟩)
    rw [hwalk]
    decide

/-- It is loaded. -/
theorem description_loads_three :
    ∃ m, memInitFromDescription ⟨threeFiles, some fun _ => 1, fun _ => []⟩
        (some (File.open threePages.text)) none 0 =
          { err := .errNone, memory := some m, memCapacityInBytes := 12288 } ∧
      ∀ p ∈ threePages.pages m, HoldsPage threeFiles m p := by
  obtain ⟨m, hload, hholds, -⟩ := description_loads threePages
    ⟨threeFiles, some fun _ => 1, fun _ => []⟩ (fun _ => 1) none 0 rfl threePages_wellFormed
    threePages_fits
  exact ⟨m, hload, hholds⟩

end MemoryHierarchy
