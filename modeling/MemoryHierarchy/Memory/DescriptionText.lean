import MemoryHierarchy.Memory.Inside

/-!
# The text of a description

The format read back: the text of a well-formed description says what the description is made of,
and nothing else (`describes_text_iff`). No file of a page is looked at for that. So the text is
loaded exactly if its pages and walks keep to the block (`text_loads_iff`), whether pages overlap or
not. A description that fits does keep to it (`memInitFromDescriptionInside_eq`).
-/

namespace MemoryHierarchy

open Lib

/-- What a description is made of, without its numerals. -/
def Description.pageList (d : Description) : PageList where
  pgd := d.pgdLocation
  tables := d.tablePages.map fun t => (t.location, t.path)
  data := d.dataPages.map fun p => (p.virtaddr, p.path)

variable {stack : ℕ → List Byte} {rest : List Byte}

/-! ### One line -/

theorem scanCapacity_text {numeral : List Byte} {capacity : ℕ}
    (hnumeral : IsDecNumeral numeral capacity) (hlt : capacity < 2 ^ 64) :
    scanCapacity (File.open (numeral ++ endText (some rest))) =
      some (BitVec.ofNat 64 capacity, File.open rest) := by
  have hscan : fscanfUnsigned 10 (File.open (numeral ++ endText (some rest))) =
      (some capacity, File.open (endText (some rest))) :=
    fscanfUnsigned_of_isDecNumeral [] rfl (List.forall_mem_nil _) hnumeral hlt (by decide)
  rw [scanCapacity, hscan]
  rfl

theorem scanPgd_text {path : Path} (hpath : IsLinePath path) :
    scanPgd stack (File.open (path ++ endText (some rest))) = some (path, File.open rest) := by
  obtain ⟨hne, hline, hlength⟩ := hpath
  obtain ⟨line, hgets, htoken⟩ := fgets_line (some rest) hne hline hlength
  simp only [scanPgd, hgets, afterLine, Option.getD_some, htoken]
  rfl

theorem scanNbTables_text {numeral : List Byte} {nbTables : ℕ}
    (hnumeral : IsDecNumeral numeral nbTables) (hlt : nbTables < 2 ^ 64) :
    scanNbTables (File.open (numeral ++ endText (some rest))) =
      some (nbTables, File.open (endText (some rest))) := by
  have hscan : fscanfUnsigned 10 (File.open (numeral ++ endText (some rest))) =
      (some nbTables, File.open (endText (some rest))) :=
    fscanfUnsigned_of_isDecNumeral [] rfl (List.forall_mem_nil _) hnumeral hlt (by decide)
  rw [scanNbTables, hscan]

theorem scanTable_text (i : ℕ) {t : TablePage} {lead : List Byte} (after : Option (List Byte))
    (hlead : ∀ c ∈ lead, IsSpace c) (hlocation : IsHexNumeral t.numeral t.location.toNat)
    (hpath : IsLinePath t.path) :
    scanTable stack i (File.open (lead ++ t.line ++ endText after)) =
      some ((t.location, t.path), afterLine after) := by
  obtain ⟨hne, hline, hlength⟩ := hpath
  obtain ⟨line, hgets, htoken⟩ := fgets_line after hne hline hlength
  have htext : lead ++ t.line ++ endText after =
      lead ++ t.numeral ++ ch ' ' :: (t.path ++ endText after) := by
    simp [TablePage.line]
  have hscan : fscanfUnsigned 16 (File.open (lead ++ t.line ++ endText after)) =
      (some t.location.toNat, File.open (ch ' ' :: (t.path ++ endText after))) :=
    fscanfUnsigned_of_isHexNumeral lead htext hlead hlocation
      (t.location.isLt.trans (by decide)) (by decide)
  have hget : fgetc (File.open (ch ' ' :: (t.path ++ endText after))) =
      (32, File.open (t.path ++ endText after)) := rfl
  simp only [scanTable, hscan, hget, if_true, hgets, Option.getD_some, htoken, Option.map_some,
    BitVec.ofNat_toNat, BitVec.setWidth_eq]

/-- The numeral of a data page is one token. -/
theorem readToken_numeral {line : DataPage} (after : Option (List Byte))
    (hnumeral : IsHexNumeral line.numeral line.virtaddr.toNat)
    (hlength : line.numeral.length ≤ Loader.maxSizeBuffer) :
    readToken Loader.maxSizeBuffer (File.open (line.line ++ endText after)) =
      { err := .errNone
        buffer := line.numeral
        stored := List.range line.numeral.length
        input := File.open (line.path ++ endText after) } := by
  have hstarts : StartsWithWord line.numeral (File.open (line.line ++ endText after)).rest
      (line.path ++ endText after) :=
    ⟨[], ch ' ', List.forall_mem_nil _, by decide, by simp [File.open, DataPage.line]⟩
  obtain ⟨hnext, hafter⟩ := hstarts.nextToken_eq rfl hnumeral.ne_nil fun c hc =>
    (visible_of_isHexNumeral hnumeral c hc).1
  rw [readToken_eq (by rw [hnext]; exact hlength), hnext, hafter]
  rfl

/-- The path is another one, with what ends it. -/
theorem readToken_path {path : Path} (after : Option (List Byte)) (hpath : IsTokenPath path) :
    ∃ mark, readToken Loader.maxSizeBuffer (File.open (path ++ endText after)) =
      { err := .errNone
        buffer := path ++ [mark]
        stored := List.range (path ++ [mark]).length
        input := afterLine after } := by
  obtain ⟨hne, hvisible, hshort⟩ := hpath
  obtain ⟨mark, hnext, hafter⟩ := nextToken_line after hne fun c hc => (hvisible c hc).1
  refine ⟨mark, ?_⟩
  rw [readToken_eq (by rw [hnext, List.length_append]; exact hshort), hnext, hafter]

theorem scanData_text {line : DataPage} (after : Option (List Byte))
    (hnumeral : IsHexNumeral line.numeral line.virtaddr.toNat)
    (hlength : line.numeral.length ≤ Loader.maxSizeBuffer) (hpath : IsTokenPath line.path) :
    scanData (File.open (line.line ++ endText after)) =
      .page (line.virtaddr, line.path) (afterLine after) := by
  obtain ⟨mark, hread⟩ := readToken_path after hpath
  have htoken := visible_of_isHexNumeral hnumeral
  have hended : (File.open (line.line ++ endText after)).ended = false := rfl
  have hhead : ¬ line.numeral.head? = some eofChar := fun hhead =>
    (htoken _ (List.mem_of_mem_head? hhead)).2.2 rfl
  have hne : ¬ line.numeral.length = 0 := mt List.length_eq_zero_iff.mp hnumeral.ne_nil
  simp only [scanData, hended, Bool.false_eq_true, if_false,
    readToken_numeral after hnumeral hlength, if_neg hne,
    cString_eq_self fun c hc => (htoken c hc).2.1,
    strtoull16_of_isHexNumeral hnumeral line.virtaddr.isLt, if_neg hhead, hread, ne_eq,
    not_true_eq_false, List.length_append, List.length_singleton, Nat.succ_ne_zero,
    List.dropLast_concat, cString_eq_self fun c hc => (hpath.2.1 c hc).2, BitVec.ofNat_toNat,
    BitVec.setWidth_eq]

/-! ### All lines -/

theorem tableLines_text {lastNewline : Bool} {data : List (List Byte)} (i : ℕ) (lead : List Byte)
    (t : TablePage) (ts : List TablePage) (hlead : ∀ c ∈ lead, IsSpace c)
    (hts : ∀ u ∈ t :: ts, IsHexNumeral u.numeral u.location.toNat ∧ IsLinePath u.path) :
    TableLines stack i
      (File.open (lead ++ t.line ++ endText (followedBy lastNewline
        (ts.map TablePage.line ++ data))))
      ((t :: ts).map fun t => (t.location, t.path)) (afterLine (followedBy lastNewline data)) := by
  obtain ⟨hlocation, hpath⟩ := hts t List.mem_cons_self
  induction ts generalizing i lead t with
  | nil => exact .cons (scanTable_text i _ hlead hlocation hpath) (.nil _ _)
  | cons t' ts ih =>
    have hts' := (List.forall_mem_cons.mp hts).2
    obtain ⟨hlocation', hpath'⟩ := hts' t' List.mem_cons_self
    exact .cons (scanTable_text i _ hlead hlocation hpath)
      (ih (i + 1) [] t' (List.forall_mem_nil _) hts' hlocation' hpath')

/-- At the end of the text there is no data page. -/
theorem scanData_end (lastNewline : Bool) :
    scanData (afterLine (followedBy lastNewline [])) = .done := by
  cases lastNewline with
  | false => rfl
  | true =>
    obtain ⟨hnext, hafter⟩ := nextToken_nil (f := File.open []) rfl rfl
    have hread : readToken Loader.maxSizeBuffer (File.open []) =
        { err := .errNone
          buffer := [eofChar]
          stored := List.range 1
          input := (File.open []).atEnd } := by
      rw [readToken_eq (by rw [hnext]; decide), hnext, hafter]
      rfl
    have hended : (File.open []).ended = false := rfl
    change scanData (File.open []) = _
    rw [scanData, hended, hread]
    rfl

theorem dataLines_text (lastNewline : Bool) {lines : List DataPage}
    (hformat : ∀ p ∈ lines, IsHexNumeral p.numeral p.virtaddr.toNat ∧
      p.numeral.length ≤ Loader.maxSizeBuffer ∧ IsTokenPath p.path) :
    DataLines (afterLine (followedBy lastNewline (lines.map DataPage.line)))
      (lines.map fun p => (p.virtaddr, p.path)) := by
  induction lines with
  | nil => exact .done (scanData_end lastNewline)
  | cons line lines ih =>
    obtain ⟨⟨hnumeral, hlength, hpath⟩, hlines⟩ := List.forall_mem_cons.mp hformat
    exact .page (scanData_text _ hnumeral hlength hpath) (ih hlines)

/-- **A text says** what its description is made of. -/
theorem describes_text {d : Description} (hwf : d.WellFormed)
    (hcount : d.tablePages.length < 2 ^ 64) (stack : ℕ → List Byte) :
    Describes stack (File.open d.text) (BitVec.ofNat 64 d.capacity) d.pageList := by
  have hcapacity : d.capacity < 2 ^ 64 := hwf.capacity_le.trans_lt (by decide)
  obtain ⟨t, ts, hts⟩ := List.exists_cons_of_ne_nil hwf.tablePages_ne_nil
  have htext : d.text = d.capacityNumeral ++ endText (some (d.pgdLocation ++
      endText (some (d.nbTables ++ endText (some (t.line ++ endText (followedBy d.lastNewline
        (ts.map TablePage.line ++ d.dataPages.map DataPage.line)))))))) := by
    rw [Description.text, Description.lines, hts, intercalate_eq]
    rfl
  have hlength : d.pageList.tables.length = d.tablePages.length := List.length_map _
  have htables : TableLines stack 0
      (File.open (endText (some (t.line ++ endText (followedBy d.lastNewline
        (ts.map TablePage.line ++ d.dataPages.map DataPage.line))))))
      ((t :: ts).map fun t => (t.location, t.path))
      (afterLine (followedBy d.lastNewline (d.dataPages.map DataPage.line))) :=
    tableLines_text 0 [ch '\n'] t ts (by decide) (hts ▸ hwf.tablePages)
  rw [← hts] at htables
  rw [htext]
  exact ⟨_, _, _, _, scanCapacity_text hwf.capacity hcapacity, scanPgd_text hwf.pgdLocation,
    hlength ▸ scanNbTables_text hwf.nbTables hcount, htables,
    dataLines_text d.lastNewline hwf.dataPages⟩

/-! ### The whole text -/

/-- **Round trip.** The text of a well-formed description says what the description is made of, and
nothing else, whatever the files of the pages are. -/
theorem describes_text_iff (d : Description) (stack : ℕ → List Byte) (size : BitVec 64)
    (l : PageList) (hwf : d.WellFormed) (hcount : d.tablePages.length < 2 ^ 64) :
    Describes stack (File.open d.text) size l ↔
      size = BitVec.ofNat 64 d.capacity ∧ l = d.pageList := by
  refine ⟨fun h => h.unique (describes_text hwf hcount stack), ?_⟩
  rintro ⟨rfl, rfl⟩
  exact describes_text hwf hcount stack

/-- The three pages are read back. -/
theorem describes_text_three :
    Describes (fun _ => []) (File.open threePages.text) 12288
      { pgd := [ch 'g'], tables := [(0x1000, [ch 't'])], data := [(0x1000, [ch 'd'])] } :=
  (describes_text_iff threePages _ 12288 _ threePages_wellFormed (by decide)).mpr ⟨rfl, rfl⟩

/-- **Well-formed descriptions** are loaded inside the block exactly if the memory can be allocated,
their pages lie in it and have a file, one read after the other and also where they overlap, and
the walks of the data pages keep to it. -/
theorem text_loads_iff (d : Description) (env : LoadEnv) (memory : Option ByteMem)
    (memCapacityInBytes size : BitVec 64) (bytes : ByteMem) (hwf : d.WellFormed)
    (hcount : d.tablePages.length < 2 ^ 64) :
    memInitFromDescriptionInside env (some (File.open d.text)) memory memCapacityInBytes =
        some { err := .errNone, memory := some bytes, memCapacityInBytes := size } ↔
      size = BitVec.ofNat 64 d.capacity ∧ ∃ around, env.calloc = some around ∧
        (∀ p ∈ d.pageList.pages env.files (zeroed around size), Fitting env.files size p) ∧
        d.pageList.WalksInside env.files size (zeroed around size) ∧
        bytes = d.pageList.image env.files (zeroed around size) := by
  have hdescribes := describes_text hwf hcount env.stack
  constructor
  · intro h
    obtain ⟨_, around, l, ⟨⟩, hcalloc, hl, -⟩ :=
      describes_of_loaded (memInitFromDescriptionInside_eq_some_iff.mp h).1
    obtain ⟨rfl, rfl⟩ := hl.unique hdescribes
    exact ⟨rfl, around, hcalloc, (loadedInside_iff hcalloc hl).mp h⟩
  · rintro ⟨rfl, around, hcalloc, h⟩
    exact (loadedInside_iff hcalloc hdescribes).mpr h

/-- Without the file of its translation page the description is not loaded. -/
theorem text_loads_three :
    ¬ ∃ bytes, memInitFromDescriptionInside
        ⟨fun path => if path = [ch 't'] then none else threeFiles path, some fun _ => 1,
          fun _ => []⟩ (some (File.open threePages.text)) none 0 =
      some { err := .errNone, memory := some bytes, memCapacityInBytes := 12288 } := by
  rintro ⟨bytes, h⟩
  obtain ⟨-, _, -, hpages, -⟩ :=
    (text_loads_iff threePages _ none 0 12288 bytes threePages_wellFormed (by decide)).mp h
  obtain ⟨-, content, hfile, -⟩ := hpages (0x1000, [ch 't'])
    (List.mem_cons_of_mem _ List.mem_cons_self)
  cases hfile

/-! ### Descriptions that fit -/

section Fits

variable {d : Description} {files : Path → Option (List Byte)} {memory : ByteMem}

/-- The translation pages, stored one after the other. -/
theorem foldl_storePage_translation (d : Description) (files : Path → Option (List Byte))
    (base : ByteMem) :
    d.pageList.translation.foldl (storePage files) base =
      (d.translation.map (blockAt files)).foldl overlay base := by
  have htable : ∀ t : TablePage, tableAt (t.location, t.path) =
      (BitVec.ofNat 64 t.page.1, t.page.2) := by
    intro t
    rw [tableAt, TablePage.page, BitVec.ofNat_toNat]
  have hpages : d.pageList.translation =
      d.translation.map fun p => (BitVec.ofNat 64 p.1, p.2) := by
    rw [PageList.translation, Description.translation, Description.pageList, List.map_cons,
      List.map_map, List.map_map]
    exact congrArg _ (List.map_congr_left fun t _ => htable t)
  rw [hpages, List.foldl_map, List.foldl_map]
  rfl

/-- A walk through the translation pages keeps to the block. -/
theorem Description.Fits.walkInside (h : d.Fits files) (hmemory : HoldsTables d files memory)
    {p : DataPage} (hp : p ∈ d.dataPages) :
    WalkInside (wordsOf memory) d.capacity (virtAddr64 p.virtaddr) := by
  rw [WalkInside, walkIndices_congr (wordsOf_eq_of_holdsTables h hmemory hp)]
  intro i hi
  obtain ⟨q, hq, -, hlt⟩ := h.walks p hp i hi
  exact hlt.trans (h.inside q (List.mem_append_left _ hq))

/-- So do all walks, while the data pages are laid over the memory, and no page is near the end of
the address space. -/
theorem Description.Fits.walksInside (h : d.Fits files) (hcapacity : d.capacity ≤ 2 ^ 31)
    {size : BitVec 64} (hsize : size.toNat = d.capacity) (lines : List DataPage)
    (hlines : ∀ p ∈ lines, p ∈ d.dataPages) (hmemory : HoldsTables d files memory) :
    WalksInside files size memory (lines.map fun p => (p.virtaddr, p.path)) ∧
      ∀ p ∈ placed files memory (lines.map fun p => (p.virtaddr, p.path)), p.1.toNat < 2 ^ 32 := by
  induction lines generalizing memory with
  | nil => exact ⟨trivial, List.forall_mem_nil _⟩
  | cons line lines ih =>
    obtain ⟨hline, hrest⟩ := List.forall_mem_cons.mp hlines
    have hpage : line.page (d.tables files) ∈ d.pages (d.tables files) :=
      List.mem_append_right _ (List.mem_map_of_mem hline)
    have hplace : placeOf memory line.virtaddr = placeOf (d.tables files) line.virtaddr :=
      placeOf_eq h hmemory hline
    have hinside : placeOf (d.tables files) line.virtaddr + pageSize ≤ d.capacity :=
      h.inside _ hpage
    have hlow : placeOf (d.tables files) line.virtaddr < 2 ^ 31 := by
      simp only [pageSize] at hinside
      omega
    have haddress : dataAddress memory line.virtaddr =
        BitVec.ofNat 64 (line.page (d.tables files)).1 := by
      rw [DataPage.page, ← hplace]
      exact physicalAddress_eq (pageWalk_eq _ _) (hplace.trans_lt hlow)
    have hnext : HoldsTables d files
        (overlay memory (blockAt files (line.page (d.tables files)))) := by
      refine hmemory.overlay (h.le hcapacity hpage) fun q hq => ⟨?_, ?_⟩
      · exact h.le hcapacity (List.mem_append_left _ hq)
      · exact (List.pairwise_append.mp h.apart).2.2 q hq _ (List.mem_map_of_mem hline)
    obtain ⟨hwalks, hplaced⟩ := ih hrest hnext
    rw [List.map_cons, WalksInside, placed, haddress, List.forall_mem_cons]
    refine ⟨⟨hsize ▸ h.walkInside hmemory hline, hwalks⟩, ?_, hplaced⟩
    rw [DataPage.page, BitVec.toNat_ofNat]
    exact (Nat.mod_le _ _).trans_lt (hlow.trans (by decide))

/-- **A description that fits** is loaded without leaving the block. -/
theorem memInitFromDescriptionInside_eq {env : LoadEnv} (hwf : d.WellFormed)
    (h : d.Fits env.files) {around : ByteMem} (hcalloc : env.calloc = some around)
    (m : Option ByteMem) (memCapacityInBytes : BitVec 64) :
    memInitFromDescriptionInside env (some (File.open d.text)) m memCapacityInBytes =
      some (memInitFromDescription env (some (File.open d.text)) m memCapacityInBytes) := by
  have hcapacity := hwf.capacity_le
  have hcount : d.tablePages.length < 2 ^ 64 := by
    have hpages := h.length_pages_le
    simp only [Description.pages, Description.translation, List.length_append, List.length_cons,
      List.length_map] at hpages
    omega
  have hsize : (BitVec.ofNat 64 d.capacity).toNat = d.capacity := by
    rw [BitVec.toNat_ofNat, Nat.mod_eq_of_lt (by omega)]
  have hdescribes := describes_text hwf hcount env.stack
  obtain ⟨_, _, l, ⟨⟩, hcalloc', hl, hreadable, -⟩ :=
    describes_of_loaded (memInitFromDescription_eq hwf h hcalloc m memCapacityInBytes)
  cases hcalloc.symm.trans hcalloc'
  obtain ⟨-, rfl⟩ := hl.unique hdescribes
  have htables : HoldsTables d env.files (d.pageList.translation.foldl (storePage env.files)
      (zeroed around (BitVec.ofNat 64 d.capacity))) := by
    rw [foldl_storePage_translation]
    exact holdsTables_overlays h hcapacity (List.sublist_append_left _ _) (List.Subset.refl _) _
  obtain ⟨hwalks, hlow⟩ := h.walksInside hcapacity hsize d.dataPages (fun _ hp => hp) htables
  refine memInitFromDescriptionInside_eq_some_iff.mpr ⟨rfl,
    (forall_reached_inside_iff hcalloc hl hreadable).mpr ⟨hwalks, fun p hp => ?_⟩⟩
  refine fitting_of_readable (hreadable p hp) ?_
  rcases List.mem_append.mp hp with hp | hp
  · exact PageList.low_of_mem_translation hp
  · exact hlow p hp

end Fits

end MemoryHierarchy
