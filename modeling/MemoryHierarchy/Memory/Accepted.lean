import MemoryHierarchy.Memory.DescriptionLoads
import MemoryHierarchy.Memory.Success

/-!
# Accepted descriptions

Which files `mem_init_from_description` accepts, and what it makes of them. Reading the text and
reading the pages are interleaved in the source. Here they are apart: what the text says
(`Describes`) depends on no page, and what it means (`PageList.image`) on no text. What the loader
succeeds on is a text that says something (`describes_of_loaded`), and it succeeds on every one
whose pages can all be read (`loaded_of_describes`). The texts at which it fails and leaves its
memory behind are those of `LeavesMemory`.

The memory is all the bytes of the machine here; `Memory.Inside` says which descriptions keep to
the allocated block.
-/

namespace MemoryHierarchy

open Lib

/-! ### What a text means -/

/-- The path of the page directory, the translation pages with their locations, and the data pages
with their virtual addresses. -/
structure PageList where
  pgd : Path
  tables : List (BitVec 32 × Path)
  data : List (BitVec 64 × Path)

/-- A memory after a page has been read to an address. -/
def storePage (files : Path → Option (List Byte)) (memory : ByteMem) (p : BitVec 64 × Path) :
    ByteMem :=
  storeBytes memory p.1 (pageIn files p.2)

/-- The address of a data page. -/
def dataAddress (memory : ByteMem) (virtaddr : BitVec 64) : BitVec 64 :=
  physicalAddress
    ⟨pageFrame (wordsOf memory) (virtAddr64 virtaddr), (virtAddr64 virtaddr).pageOffset⟩

/-- The data pages with their addresses, each translated in the memory that those before it
leave. -/
def placed (files : Path → Option (List Byte)) : ByteMem → List (BitVec 64 × Path) →
    List (BitVec 64 × Path)
  | _, [] => []
  | memory, (virtaddr, path) :: data =>
    (dataAddress memory virtaddr, path) ::
      placed files (storePage files memory (dataAddress memory virtaddr, path)) data

/-- A translation page with its address. -/
def tableAt (t : BitVec 32 × Path) : BitVec 64 × Path := (t.1.setWidth 64, t.2)

/-- The translation pages with their addresses. -/
def PageList.translation (l : PageList) : List (BitVec 64 × Path) :=
  (0, l.pgd) :: l.tables.map tableAt

/-- All pages with their addresses, in order. -/
def PageList.pages (l : PageList) (files : Path → Option (List Byte)) (base : ByteMem) :
    List (BitVec 64 × Path) :=
  l.translation ++ placed files (l.translation.foldl (storePage files) base) l.data

/-- The memory that is meant, where `base` is there before. -/
def PageList.image (l : PageList) (files : Path → Option (List Byte)) (base : ByteMem) : ByteMem :=
  (l.pages files base).foldl (storePage files) base

/-- A page that can be read: it passes the check, and its file is long enough. -/
def Readable (files : Path → Option (List Byte)) (size : BitVec 64) (p : BitVec 64 × Path) : Prop :=
  p.1 + BitVec.ofNat 64 pageSize ≤ size ∧
    ∃ content, files p.2 = some content ∧ pageSize ≤ content.length

/-! ### What a text says -/

/-- The capacity, and its newline. -/
def scanCapacity (f : File) : Option (BitVec 64 × File) :=
  match fscanfUnsigned 10 f with
  | (none, _) => none
  | (some capacity, f) =>
    if (fgetc f).1 = 10 then some (BitVec.ofNat 64 capacity, (fgetc f).2) else none

/-- The path of the page directory. There must be something after it. -/
def scanPgd (stack : ℕ → List Byte) (f : File) : Option (Path × File) :=
  let (line, f) := fgets maxFileSize f
  if f.eof then none else (strtokNewline (line.getD (stack 0))).map fun path => (path, f)

/-- The number of translation pages. -/
def scanNbTables (f : File) : Option (ℕ × File) :=
  match fscanfUnsigned 10 f with
  | (none, _) => none
  | (some nbTables, f) => some (nbTables, f)

/-- A location, one space and a path. -/
def scanTable (stack : ℕ → List Byte) (i : ℕ) (f : File) : Option ((BitVec 32 × Path) × File) :=
  match fscanfUnsigned 16 f with
  | (none, _) => none
  | (some location, f) =>
    if (fgetc f).1 = 32 then
      let (line, f) := fgets maxFileSize (fgetc f).2
      (strtokNewline (line.getD (stack (i + 1)))).map fun path =>
        ((BitVec.ofNat 32 location, path), f)
    else none

/-- What stands where a data page is looked for: the end of the description, a data page, or
neither. -/
inductive DataScan
  | done
  | page (p : BitVec 64 × Path) (f : File)
  | refused

/-- A virtual address and a path. -/
def scanData (f : File) : DataScan :=
  if f.ended then .done
  else
    let number := readToken Loader.maxSizeBuffer f
    if number.buffer.length = 0 then .done
    else
      let (virtaddr, afterNumber) := strtoull16 (cString number.buffer)
      if number.buffer.head? = some eofChar then .done
      else if afterNumber = 0 then .refused
      else
        let path := readToken Loader.maxSizeBuffer number.input
        if path.err ≠ .errNone then .refused
        else if path.buffer.length = 0 then .done
        else .page (BitVec.ofNat 64 virtaddr, cString path.buffer.dropLast) path.input

/-- Lines of translation pages, that of number `i` first, up to the rest of the text. -/
inductive TableLines (stack : ℕ → List Byte) : ℕ → File → List (BitVec 32 × Path) → File → Prop
  | nil (i : ℕ) (f : File) : TableLines stack i f [] f
  | cons {i : ℕ} {f g rest : File} {t : BitVec 32 × Path} {tables : List (BitVec 32 × Path)}
      (scan : scanTable stack i f = some (t, g)) (lines : TableLines stack (i + 1) g tables rest) :
      TableLines stack i f (t :: tables) rest

/-- Lines of data pages, up to the end. -/
inductive DataLines : File → List (BitVec 64 × Path) → Prop
  | done {f : File} (scan : scanData f = .done) : DataLines f []
  | page {f g : File} {p : BitVec 64 × Path} {data : List (BitVec 64 × Path)}
      (scan : scanData f = .page p g) (lines : DataLines g data) : DataLines f (p :: data)

/-- What a text says: a capacity, and a list of pages. -/
def Describes (stack : ℕ → List Byte) (f : File) (size : BitVec 64) (l : PageList) : Prop :=
  ∃ fcapacity fpgd fnb ftables, scanCapacity f = some (size, fcapacity) ∧
    scanPgd stack fcapacity = some (l.pgd, fpgd) ∧
    scanNbTables fpgd = some (l.tables.length, fnb) ∧
    TableLines stack 0 fnb l.tables ftables ∧ DataLines ftables l.data

variable {env : LoadEnv} {s t : LoadState} {bytes : ByteMem} {path : Path}

/-! ### A text says one thing -/

section Unique

variable {stack : ℕ → List Byte}

theorem TableLines.unique {i : ℕ} {f g g' : File} {tables tables' : List (BitVec 32 × Path)}
    (h : TableLines stack i f tables g) (h' : TableLines stack i f tables' g')
    (hlength : tables.length = tables'.length) : tables = tables' ∧ g = g' := by
  induction h generalizing tables' with
  | nil i f =>
    obtain rfl := List.eq_nil_of_length_eq_zero hlength.symm
    cases h'
    exact ⟨rfl, rfl⟩
  | cons hscan _ ih =>
    obtain _ | ⟨hscan', h'⟩ := h'
    · cases hlength
    · cases hscan.symm.trans hscan'
      obtain ⟨rfl, rfl⟩ := ih h' (Nat.succ.inj hlength)
      exact ⟨rfl, rfl⟩

theorem DataLines.unique {f : File} {data data' : List (BitVec 64 × Path)} (h : DataLines f data)
    (h' : DataLines f data') : data = data' := by
  induction h generalizing data' with
  | done hscan =>
    obtain - | ⟨hscan', -⟩ := h'
    · rfl
    · cases hscan.symm.trans hscan'
  | page hscan _ ih =>
    obtain hscan' | ⟨hscan', h'⟩ := h'
    · cases hscan.symm.trans hscan'
    · cases hscan.symm.trans hscan'
      rw [ih h']

/-- **A text says one thing** at most. -/
theorem Describes.unique {f : File} {size size' : BitVec 64} {l l' : PageList}
    (h : Describes stack f size l) (h' : Describes stack f size' l') : size = size' ∧ l = l' := by
  obtain ⟨fcapacity, fpgd, fnb, ftables, hcapacity, hpgd, hnb, htables, hdata⟩ := h
  obtain ⟨_, _, _, _, hcapacity', hpgd', hnb', htables', hdata'⟩ := h'
  rcases l with ⟨pgd, tables, data⟩
  rcases l' with ⟨pgd', tables', data'⟩
  cases hcapacity.symm.trans hcapacity'
  cases hpgd.symm.trans hpgd'
  obtain ⟨hlength, rfl⟩ := Prod.mk.inj (Option.some.inj (hnb.symm.trans hnb'))
  obtain ⟨rfl, rfl⟩ := htables.unique htables' hlength
  obtain rfl := hdata.unique hdata'
  exact ⟨rfl, rfl⟩

end Unique

/-! ### The parts of the loader -/

/-- **A page is read** exactly if it can be, and then it is stored. -/
theorem readPage_ok_iff (hs : s.memory = some bytes) {f : File} {addr : BitVec 64} :
    ({ s with f := f }).readPage env addr path = .ok t ↔
      Readable env.files s.memCapacityInBytes (addr, path) ∧
        t = { s with f := f, memory := some (storePage env.files bytes (addr, path)) } := by
  rw [LoadState.readPage, hs, pageFileRead]
  dsimp only
  by_cases hcheck : addr + BitVec.ofNat 64 pageSize ≤ s.memCapacityInBytes
  · rw [if_neg (not_not_intro hcheck)]
    rcases hfile : env.files path with _ | content
    · refine iff_of_false (fun h => ?_) ?_
      · cases h
      · rintro ⟨⟨-, content, hcontent, -⟩, -⟩
        cases hfile.symm.trans hcontent
    · have hpage : pageIn env.files path = content.take pageSize := by rw [pageIn, hfile]; rfl
      by_cases hlength : pageSize ≤ content.length
      · have htake : (content.take pageSize).length = pageSize := by
          rw [List.length_take, Nat.min_eq_left hlength]
        simp only [htake, ne_eq, not_true_eq_false, if_false, storePage, hpage]
        exact ⟨fun h => ⟨⟨hcheck, content, hfile, hlength⟩, (Except.ok.inj h).symm⟩,
          fun h => congrArg Except.ok h.2.symm⟩
      · have htake : (content.take pageSize).length ≠ pageSize := by
          rw [List.length_take]
          omega
        refine iff_of_false (fun h => ?_) ?_
        · simp only [htake, ne_eq, not_false_eq_true, if_true, reduceCtorEq] at h
        · rintro ⟨⟨-, content', hcontent, hle⟩, -⟩
          obtain rfl := Option.some.inj (hfile.symm.trans hcontent)
          exact hlength hle
  · rw [if_pos hcheck]
    refine iff_of_false (fun h => ?_) fun h => hcheck h.1.1
    cases h

/-- The capacity is read, and memory of that size allocated. -/
theorem readCapacity_ok_iff :
    readCapacity env s = .ok t ↔ ∃ around, env.calloc = some around ∧
      scanCapacity s.f = some (t.memCapacityInBytes, t.f) ∧
      t.memory = some (zeroed around t.memCapacityInBytes) := by
  rw [readCapacity, scanCapacity]
  rcases fscanfUnsigned 10 s.f with ⟨_ | capacity, f⟩
  · simp
  · dsimp only
    by_cases hnewline : (fgetc f).1 = 10
    · rw [if_neg (not_not_intro hnewline), if_pos hnewline, LoadEnv.callocBytes]
      rcases env.calloc with _ | around
      · simp
      · constructor
        · intro h
          cases h
          exact ⟨around, rfl, rfl, rfl⟩
        · rintro ⟨_, ⟨⟩, hscan, hmemory⟩
          rcases t with ⟨g, memory, size⟩
          cases hscan
          dsimp only at hmemory
          rw [hmemory]
          rfl
    · rw [if_pos hnewline, if_neg hnewline]
      simp

/-- The page directory goes to address `0`. -/
theorem readPgd_ok_iff :
    readPgd env s = .ok t ↔ ∃ path f, scanPgd env.stack s.f = some (path, f) ∧
      ({ s with f := f }).readPage env 0 path = .ok t := by
  rw [readPgd, scanPgd]
  dsimp only
  split_ifs
  · simp
  · rcases strtokNewline ((fgets maxFileSize s.f).1.getD (env.stack 0)) with _ | path
    · simp
    · refine ⟨fun h => ⟨path, _, rfl, h⟩, ?_⟩
      rintro ⟨_, _, ⟨⟩, hread⟩
      exact hread

theorem readNbTables_ok_iff {nbTables : ℕ} :
    readNbTables s = .ok (t, nbTables) ↔
      ∃ f, scanNbTables s.f = some (nbTables, f) ∧ t = { s with f := f } := by
  rw [readNbTables, scanNbTables]
  rcases fscanfUnsigned 10 s.f with ⟨_ | n, f⟩
  · simp
  · constructor
    · intro h
      cases h
      exact ⟨f, rfl, rfl⟩
    · rintro ⟨_, ⟨⟩, rfl⟩
      rfl

/-- A translation page goes to its location. -/
theorem readTable_ok_iff {i : ℕ} :
    readTable env i s = .ok t ↔ ∃ p f, scanTable env.stack i s.f = some (p, f) ∧
      ({ s with f := f }).readPage env (tableAt p).1 (tableAt p).2 = .ok t := by
  rw [readTable, scanTable]
  rcases fscanfUnsigned 16 s.f with ⟨_ | location, f⟩
  · simp
  · dsimp only
    by_cases hspace : (fgetc f).1 = 32
    · rw [if_neg (not_not_intro hspace), if_pos hspace]
      rcases strtokNewline ((fgets maxFileSize (fgetc f).2).1.getD (env.stack (i + 1)))
        with _ | path
      · simp
      · refine ⟨fun h => ⟨_, _, rfl, h⟩, ?_⟩
        rintro ⟨_, _, ⟨⟩, hread⟩
        exact hread
    · rw [if_pos hspace, if_neg hspace]
      simp

/-- A data page goes where its virtual address is translated to. -/
theorem readData_eq_readPage (env : LoadEnv) (hs : s.memory = some bytes) (f : File)
    (virtaddr : ℕ) (path : Path) :
    readData env { s with f := f } virtaddr path = ({ s with f := f }).readPage env
      (dataAddress bytes (BitVec.ofNat 64 virtaddr)) path := by
  rw [readData, initVirtAddr64_eq, hs]
  dsimp only
  rw [pageWalk_eq]
  rfl

/-- **A pass** of the loop over the data pages, by what it finds. -/
theorem dataPass_eq_scanData (env : LoadEnv) (hs : s.memory = some bytes) :
    match scanData s.f with
    | .done => ∃ f, dataPass env s = .leave ({ s with f := f }.exit .errNone)
    | .refused => ∃ r, dataPass env s = .leave r ∧ r.err ≠ .errNone
    | .page p f => dataPass env s =
        match ({ s with f := f }).readPage env (dataAddress bytes p.1) p.2 with
        | .error r => .leave r
        | .ok t => .again t := by
  rw [scanData, dataPass]
  dsimp only
  split_ifs with hended hempty heof hnumber herr hpath
  · exact ⟨_, rfl⟩
  · exact ⟨_, rfl⟩
  · exact ⟨_, rfl⟩
  · exact ⟨_, rfl, ErrorCode.noConfusion⟩
  · exact ⟨_, rfl, herr⟩
  · exact ⟨_, rfl⟩
  · exact congrArg (fun x : Except LoadResult LoadState =>
      match x with
      | .error r => Pass.leave r
      | .ok t => .again t) (readData_eq_readPage env hs _ _ _)

theorem bind_ok_iff {α β : Type} {x : Except LoadResult α} {g : α → Except LoadResult β} {b : β} :
    x >>= g = .ok b ↔ ∃ a, x = .ok a ∧ g a = .ok b := by
  rcases x with r | a
  · refine iff_of_false (fun h => ?_) ?_
    · cases h
    · rintro ⟨a, ⟨⟩, -⟩
  · refine ⟨fun h => ⟨a, rfl, h⟩, ?_⟩
    rintro ⟨_, ⟨⟩, h⟩
    exact h

/-- **The header**, up to the number of translation pages. -/
theorem readHeader_ok_iff {file : Option File} {memory : Option ByteMem}
    {memCapacityInBytes : BitVec 64} {nbTables : ℕ} :
    readHeader env file memory memCapacityInBytes = .ok (t, nbTables) ↔
      ∃ f around fcapacity pgd fpgd, file = some f ∧ env.calloc = some around ∧
        scanCapacity f = some (t.memCapacityInBytes, fcapacity) ∧
        scanPgd env.stack fcapacity = some (pgd, fpgd) ∧
        scanNbTables fpgd = some (nbTables, t.f) ∧
        Readable env.files t.memCapacityInBytes (0, pgd) ∧
        t.memory = some (storePage env.files (zeroed around t.memCapacityInBytes) (0, pgd)) := by
  rcases file with _ | f
  · simp [readHeader]
  · simp only [readHeader, bind_ok_iff]
    constructor
    · rintro ⟨u, hu, v, hv, ht⟩
      obtain ⟨around, hcalloc, hcapacity, hmemory⟩ := readCapacity_ok_iff.mp hu
      obtain ⟨pgd, fpgd, hpgd, hpage⟩ := readPgd_ok_iff.mp hv
      obtain ⟨hreadable, rfl⟩ := (readPage_ok_iff hmemory).mp hpage
      obtain ⟨g, hnb, rfl⟩ := readNbTables_ok_iff.mp ht
      exact ⟨f, around, u.f, pgd, fpgd, rfl, hcalloc, hcapacity, hpgd, hnb, hreadable, rfl⟩
    · rintro ⟨_, around, fcapacity, pgd, fpgd, ⟨⟩, hcalloc, hcapacity, hpgd, hnb, hreadable,
        hmemory⟩
      refine ⟨⟨fcapacity, some (zeroed around t.memCapacityInBytes), t.memCapacityInBytes⟩,
        readCapacity_ok_iff.mpr ⟨around, hcalloc, hcapacity, rfl⟩, _,
        readPgd_ok_iff.mpr ⟨pgd, fpgd, hpgd, (readPage_ok_iff rfl).mpr ⟨hreadable, rfl⟩⟩,
        readNbTables_ok_iff.mpr ⟨t.f, hnb, ?_⟩⟩
      dsimp only
      rw [← hmemory]

/-! ### The loops -/

/-- **The loop over the translation pages**, of which there are `k` to come. -/
theorem tablesLoop_ok_iff (env : LoadEnv) {nbTables k i : ℕ} (hk : i + k = nbTables)
    (hs : s.memory = some bytes) :
    tablesLoop env nbTables (s, i) = .ok t ↔
      ∃ tables f, tables.length = k ∧ TableLines env.stack i s.f tables f ∧
        (∀ p ∈ tables.map tableAt, Readable env.files s.memCapacityInBytes p) ∧
        t = { s with
          f := f
          memory := some ((tables.map tableAt).foldl (storePage env.files) bytes) } := by
  induction k generalizing i s bytes with
  | zero =>
    have hpass : tablePass env nbTables (s, i) = .leave (.ok s) := if_neg (by simp only; omega)
    rw [tablesLoop, loop_leave hpass]
    constructor
    · intro h
      cases h
      refine ⟨[], t.f, rfl, .nil i t.f, List.forall_mem_nil _, ?_⟩
      simp [← hs]
    · rintro ⟨tables, f, hlength, hlines, -, rfl⟩
      obtain rfl := List.eq_nil_of_length_eq_zero hlength
      cases hlines
      simp [← hs]
  | succ k ih =>
    have hpass : tablePass env nbTables (s, i) =
        match readTable env i s with
        | .error r => .leave (.error r)
        | .ok u => .again (u, i + 1) := if_pos (by simp only; omega)
    rcases hread : readTable env i s with r | u
    · rw [hread] at hpass
      rw [tablesLoop, loop_leave hpass]
      refine iff_of_false (fun h => ?_) ?_
      · cases h
      · rintro ⟨_ | ⟨p, tables⟩, f, hlength, hlines, hreadable, -⟩
        · cases hlength
        · obtain _ | ⟨hscan, -⟩ := hlines
          have hok := readTable_ok_iff.mpr ⟨p, _, hscan, (readPage_ok_iff hs).mpr
            ⟨hreadable _ List.mem_cons_self, rfl⟩⟩
          cases hread.symm.trans hok
    · rw [hread] at hpass
      obtain ⟨p, f, hscan, hpage⟩ := readTable_ok_iff.mp hread
      obtain ⟨hreadable, rfl⟩ := (readPage_ok_iff hs).mp hpage
      rw [tablesLoop, loop_again hpass]
      refine (ih (by omega) rfl).trans ⟨?_, ?_⟩
      · rintro ⟨tables, g, rfl, hlines, htables, rfl⟩
        exact ⟨p :: tables, g, rfl, .cons hscan hlines, List.forall_mem_cons.mpr
          ⟨hreadable, htables⟩, rfl⟩
      · rintro ⟨_ | ⟨q, tables⟩, g, hlength, hlines, htables, rfl⟩
        · cases hlength
        · obtain _ | ⟨hscan', hlines⟩ := hlines
          cases hscan.symm.trans hscan'
          exact ⟨tables, g, Nat.succ.inj hlength, hlines,
            (List.forall_mem_cons.mp htables).2, rfl⟩

/-- **The loop over the data pages.** -/
theorem dataLoop_iff (env : LoadEnv) (hs : s.memory = some bytes) {bytes' : ByteMem}
    {size : BitVec 64} :
    dataLoop env s = { err := .errNone, memory := some bytes', memCapacityInBytes := size } ↔
      size = s.memCapacityInBytes ∧ ∃ data, DataLines s.f data ∧
        (∀ p ∈ placed env.files bytes data, Readable env.files size p) ∧
        bytes' = (placed env.files bytes data).foldl (storePage env.files) bytes := by
  induction hn : s.f.left using Nat.strongRecOn generalizing s bytes with
  | _ n ih =>
    subst hn
    have hpass := dataPass_eq_scanData env hs
    rcases hscan : scanData s.f with _ | ⟨p, g⟩ | _
    · rw [hscan] at hpass
      obtain ⟨f, hpass⟩ := hpass
      rw [dataLoop, loop_leave hpass, LoadState.exit, hs]
      constructor
      · intro h
        cases h
        exact ⟨rfl, [], .done hscan, List.forall_mem_nil _, rfl⟩
      · rintro ⟨rfl, data, hlines, -, rfl⟩
        obtain - | ⟨hscan', -⟩ := hlines
        · rfl
        · cases hscan.symm.trans hscan'
    · rw [hscan] at hpass
      rcases hread : ({ s with f := g }).readPage env (dataAddress bytes p.1) p.2 with r | t
      · have hreadable :
            ¬ Readable env.files s.memCapacityInBytes (dataAddress bytes p.1, p.2) := by
          intro hreadable
          cases hread.symm.trans ((readPage_ok_iff hs).mpr ⟨hreadable, rfl⟩)
        have herr : Reported LoadState.Allocated
            (({ s with f := g }).readPage env (dataAddress bytes p.1) p.2) :=
          reported_readPage _ _ _
        simp only [hread] at hpass herr
        rw [dataLoop, loop_leave hpass]
        refine iff_of_false (fun h => herr (congrArg LoadResult.err h)) ?_
        rintro ⟨rfl, data, hlines, hdata, -⟩
        obtain hscan' | ⟨hscan', -⟩ := hlines
        · cases hscan.symm.trans hscan'
        · cases hscan.symm.trans hscan'
          exact hreadable (hdata _ List.mem_cons_self)
      · obtain ⟨hreadable, rfl⟩ := (readPage_ok_iff hs).mp hread
        simp only [hread] at hpass
        rw [dataLoop, loop_again hpass]
        refine (ih _ (dataPass_left hpass) rfl rfl).trans (and_congr_right fun hsize => ?_)
        subst hsize
        constructor
        · rintro ⟨data, hlines, hdata, rfl⟩
          exact ⟨p :: data, .page hscan hlines, List.forall_mem_cons.mpr ⟨hreadable, hdata⟩, rfl⟩
        · rintro ⟨data, hlines, hdata, rfl⟩
          obtain hscan' | ⟨hscan', hlines⟩ := hlines
          · cases hscan.symm.trans hscan'
          · cases hscan.symm.trans hscan'
            exact ⟨_, hlines, (List.forall_mem_cons.mp hdata).2, rfl⟩
    · rw [hscan] at hpass
      obtain ⟨r, hpass, herr⟩ := hpass
      rw [dataLoop, loop_leave hpass]
      refine iff_of_false (fun h => herr (congrArg LoadResult.err h)) ?_
      rintro ⟨rfl, data, hlines, -⟩
      obtain hscan' | ⟨hscan', -⟩ := hlines
      · cases hscan.symm.trans hscan'
      · cases hscan.symm.trans hscan'

/-! ### The whole loader -/

section Whole

variable {file : Option File} {memory : Option ByteMem} {memCapacityInBytes size : BitVec 64}

/-- A loader that succeeds does so in all its parts. -/
theorem memInitFromDescription_eq_iff :
    memInitFromDescription env file memory memCapacityInBytes =
        { err := .errNone, memory := some bytes, memCapacityInBytes := size } ↔
      ∃ s nbTables t, readHeader env file memory memCapacityInBytes = .ok (s, nbTables) ∧
        tablesLoop env nbTables (s, 0) = .ok t ∧
        dataLoop env t =
          { err := .errNone, memory := some bytes, memCapacityInBytes := size } := by
  rw [memInitFromDescription]
  have hheader := reported_readHeader env file memory memCapacityInBytes
  rcases hread : readHeader env file memory memCapacityInBytes with r | ⟨s, nbTables⟩
  · rw [hread] at hheader
    refine iff_of_false (fun h => hheader (congrArg LoadResult.err h)) ?_
    rintro ⟨s, nbTables, t, ⟨⟩, -⟩
  · rw [hread] at hheader
    have htables := reported_tablesLoop env nbTables hheader
    dsimp only
    rcases hloop : tablesLoop env nbTables (s, 0) with r | t
    · rw [hloop] at htables
      refine iff_of_false (fun h => htables (congrArg LoadResult.err h)) ?_
      rintro ⟨_, _, t, ⟨⟩, ht, -⟩
      cases hloop.symm.trans ht
    · refine ⟨fun h => ⟨s, nbTables, t, rfl, hloop, h⟩, ?_⟩
      rintro ⟨_, _, u, ⟨⟩, hu, hdata⟩
      cases hloop.symm.trans hu
      exact hdata

/-- **Sound**: what is loaded is what the text says, and means. -/
theorem describes_of_loaded
    (h : memInitFromDescription env file memory memCapacityInBytes =
      { err := .errNone, memory := some bytes, memCapacityInBytes := size }) :
    ∃ f around l, file = some f ∧ env.calloc = some around ∧ Describes env.stack f size l ∧
      (∀ p ∈ l.pages env.files (zeroed around size), Readable env.files size p) ∧
      bytes = l.image env.files (zeroed around size) := by
  obtain ⟨s, nbTables, t, hheader, htables, hdata⟩ := memInitFromDescription_eq_iff.mp h
  obtain ⟨f, around, fcapacity, pgd, fpgd, hfile, hcalloc, hcapacity, hpgd, hnb, hreadable,
    hmemory⟩ := readHeader_ok_iff.mp hheader
  obtain ⟨tables, g, hlength, htablelines, htablesread, rfl⟩ :=
    (tablesLoop_ok_iff env (Nat.zero_add _) hmemory).mp htables
  obtain ⟨rfl, data, hdatalines, hdataread, rfl⟩ := (dataLoop_iff env rfl).mp hdata
  refine ⟨f, around, ⟨pgd, tables, data⟩, hfile, hcalloc,
    ⟨fcapacity, fpgd, s.f, g, hcapacity, hpgd, hlength ▸ hnb, htablelines, hdatalines⟩, ?_, ?_⟩
  · exact List.forall_mem_append.mpr ⟨List.forall_mem_cons.mpr ⟨hreadable, htablesread⟩, hdataread⟩
  · exact List.foldl_append.symm

/-- The states before the loop over the data pages, for a text whose pages can be read. -/
theorem exists_before_data (memory : Option ByteMem) (memCapacityInBytes : BitVec 64) {f : File}
    {around : ByteMem} {l : PageList}
    (hcalloc : env.calloc = some around) (hl : Describes env.stack f size l)
    (hreadable : ∀ p ∈ l.translation, Readable env.files size p) :
    ∃ s t, readHeader env (some f) memory memCapacityInBytes = .ok (s, l.tables.length) ∧
      tablesLoop env l.tables.length (s, 0) = .ok t ∧
      t.memory = some (l.translation.foldl (storePage env.files) (zeroed around size)) ∧
      t.memCapacityInBytes = size ∧ DataLines t.f l.data := by
  obtain ⟨fcapacity, fpgd, fnb, ftables, hcapacity, hpgd, hnb, htablelines, hdatalines⟩ := hl
  obtain ⟨hpgdread, htablesread⟩ := List.forall_mem_cons.mp hreadable
  have hheader : readHeader env (some f) memory memCapacityInBytes = .ok
      (⟨fnb, some (storePage env.files (zeroed around size) (0, l.pgd)), size⟩,
        l.tables.length) :=
    readHeader_ok_iff.mpr ⟨f, around, fcapacity, l.pgd, fpgd, rfl, hcalloc, hcapacity, hpgd, hnb,
      hpgdread, rfl⟩
  have htables : tablesLoop env l.tables.length
      (⟨fnb, some (storePage env.files (zeroed around size) (0, l.pgd)), size⟩, 0) = .ok
        ⟨ftables, some (l.translation.foldl (storePage env.files) (zeroed around size)), size⟩ :=
    (tablesLoop_ok_iff env (Nat.zero_add _) rfl).mpr
      ⟨l.tables, ftables, rfl, htablelines, htablesread, rfl⟩
  exact ⟨_, _, hheader, htables, rfl, rfl, hdatalines⟩

/-- **Complete**: what a text says and means is loaded, as long as its pages can be read. -/
theorem loaded_of_describes {f : File} {around : ByteMem} {l : PageList}
    (hcalloc : env.calloc = some around) (hl : Describes env.stack f size l)
    (hreadable : ∀ p ∈ l.pages env.files (zeroed around size), Readable env.files size p) :
    memInitFromDescription env (some f) memory memCapacityInBytes =
      { err := .errNone
        memory := some (l.image env.files (zeroed around size))
        memCapacityInBytes := size } := by
  obtain ⟨htranslation, hdataread⟩ := List.forall_mem_append.mp hreadable
  obtain ⟨s, t, hheader, htables, hmemory, hsize, hdatalines⟩ :=
    exists_before_data memory memCapacityInBytes hcalloc hl htranslation
  exact memInitFromDescription_eq_iff.mpr ⟨s, _, t, hheader, htables,
    (dataLoop_iff env hmemory).mpr
      ⟨hsize.symm, l.data, hdatalines, hdataread, List.foldl_append⟩⟩

end Whole

/-! ### Where memory is left behind -/

section LeftBehind

/-- A text at which a failing loader leaves its memory behind: a header and some lines of
translation pages say what can be read, and the next line does not start with a number. -/
def LeavesMemory (env : LoadEnv) (f : File) : Prop :=
  ∃ size fcapacity pgd fpgd nbTables fnb tables g,
    scanCapacity f = some (size, fcapacity) ∧ scanPgd env.stack fcapacity = some (pgd, fpgd) ∧
    scanNbTables fpgd = some (nbTables, fnb) ∧ TableLines env.stack 0 fnb tables g ∧
    tables.length < nbTables ∧ (fscanfUnsigned 16 g).1 = none ∧
    ∀ p ∈ (0, pgd) :: tables.map tableAt, Readable env.files size p

/-- **The loop over the translation pages**, of which there are `k` to come, leaves nothing behind
unless a line without a number follows lines that can be read. -/
theorem clean_tablesLoop_iff_lines (env : LoadEnv) {nbTables k i : ℕ} (hk : i + k = nbTables)
    (hs : s.memory = some bytes) :
    Clean (fun _ => True) (tablesLoop env nbTables (s, i)) ↔
      ∀ tables g, TableLines env.stack i s.f tables g → tables.length < k →
        (∀ p ∈ tables.map tableAt, Readable env.files s.memCapacityInBytes p) →
          (fscanfUnsigned 16 g).1 ≠ none := by
  induction k generalizing i s bytes with
  | zero =>
    have hpass : tablePass env nbTables (s, i) = .leave (.ok s) := if_neg (by simp only; omega)
    rw [tablesLoop, loop_leave hpass]
    exact iff_of_true trivial fun _ _ _ hlt => absurd hlt (Nat.not_lt_zero _)
  | succ k ih =>
    have hpass : tablePass env nbTables (s, i) =
        match readTable env i s with
        | .error r => .leave (.error r)
        | .ok u => .again (u, i + 1) := if_pos (by simp only; omega)
    have hallocated : s.Allocated := by
      rw [LoadState.Allocated, hs]
      exact Option.some_ne_none _
    have hclean := clean_readTable_iff env i hallocated
    rcases hread : readTable env i s with r | u
    · -- the line cannot be read: no further line counts
      rw [hread] at hpass hclean
      rw [tablesLoop, loop_leave hpass]
      refine hclean.trans ⟨fun hnumber tables g hlines _ hreadable => ?_, fun h =>
        h [] s.f (.nil i s.f) (Nat.succ_pos k) (List.forall_mem_nil _)⟩
      rcases hlines with _ | ⟨hscan, -⟩
      · exact hnumber
      · have hok := readTable_ok_iff.mpr ⟨_, _, hscan, (readPage_ok_iff hs).mpr
          ⟨hreadable _ List.mem_cons_self, rfl⟩⟩
        cases hread.symm.trans hok
    · rw [hread] at hpass
      obtain ⟨p, f, hscan, hpage⟩ := readTable_ok_iff.mp hread
      obtain ⟨hpreadable, rfl⟩ := (readPage_ok_iff hs).mp hpage
      rw [tablesLoop, loop_again hpass]
      refine (ih (by omega) rfl).trans
        ⟨fun h tables g hlines hlength hreadable => ?_,
          fun h tables g hlines hlength hreadable => ?_⟩
      · rcases hlines with _ | ⟨hscan', hlines⟩
        · exact location_of_readTable hread
        · cases hscan.symm.trans hscan'
          exact h _ g hlines (Nat.lt_of_succ_lt_succ hlength) (List.forall_mem_cons.mp hreadable).2
      · exact h (p :: tables) g (.cons hscan hlines) (Nat.succ_lt_succ hlength)
          (List.forall_mem_cons.mpr ⟨hpreadable, hreadable⟩)

/-- **The texts** at which a failing loader leaves memory behind: those of `LeavesMemory`, when
there was memory to be had. -/
theorem freed_memInitFromDescription_iff_text (env : LoadEnv) (f : File)
    (memCapacityInBytes : BitVec 64) :
    (memInitFromDescription env (some f) none memCapacityInBytes).Freed ↔
      (env.calloc ≠ none → ¬ LeavesMemory env f) := by
  rw [freed_memInitFromDescription_iff]
  constructor
  · rintro h hcalloc ⟨size, fcapacity, pgd, fpgd, nbTables, fnb, tables, g, hcapacity, hpgd, hnb,
      hlines, hlength, hnumber, hreadable⟩
    obtain ⟨around, hcalloc⟩ := Option.ne_none_iff_exists'.mp hcalloc
    obtain ⟨hpgdread, htablesread⟩ := List.forall_mem_cons.mp hreadable
    have hclean := h ⟨fnb, some (storePage env.files (zeroed around size) (0, pgd)), size⟩ nbTables
      (readHeader_ok_iff.mpr ⟨f, around, fcapacity, pgd, fpgd, rfl, hcalloc, hcapacity, hpgd, hnb,
        hpgdread, rfl⟩)
    exact (clean_tablesLoop_iff_lines env (Nat.zero_add _) rfl).mp hclean tables g hlines hlength
      htablesread hnumber
  · intro h s nbTables hread
    obtain ⟨_, around, fcapacity, pgd, fpgd, ⟨⟩, hcalloc, hcapacity, hpgd, hnb, hpgdread,
      hmemory⟩ := readHeader_ok_iff.mp hread
    have hnot := h (hcalloc ▸ Option.some_ne_none around)
    refine (clean_tablesLoop_iff_lines env (Nat.zero_add _) hmemory).mpr
      fun tables g hlines hlength htablesread hnumber => hnot ?_
    exact ⟨s.memCapacityInBytes, fcapacity, pgd, fpgd, nbTables, s.f, tables, g, hcapacity, hpgd,
      hnb, hlines, hlength, hnumber, List.forall_mem_cons.mpr ⟨hpgdread, htablesread⟩⟩

end LeftBehind

/-! ### Outside of the memory -/

section Outside

variable {files : Path → Option (List Byte)} {size i : BitVec 64} {base : ByteMem}
  {p : BitVec 64 × Path} {data pages : List (BitVec 64 × Path)}

/-- A byte that is in none of the pages is left as it is. -/
theorem storePages_apply (h : ∀ p ∈ pages, pageSize ≤ (i - p.1).toNat) :
    pages.foldl (storePage files) base i = base i := by
  induction pages generalizing base with
  | nil => rfl
  | cons p pages ih =>
    obtain ⟨hp, hpages⟩ := List.forall_mem_cons.mp h
    rw [List.foldl_cons, ih hpages, storePage]
    exact storeBytes_of_length_le ((length_pageIn_le files p.2).trans hp)

/-- Where a data page goes is found in what the data pages before it leave. -/
theorem exists_of_mem_placed (hp : p ∈ placed files base data) :
    ∃ before q after, data = before ++ q :: after ∧
      p.1 = dataAddress ((placed files base before).foldl (storePage files) base) q.1 := by
  induction data generalizing base with
  | nil => cases hp
  | cons q data ih =>
    rcases List.mem_cons.mp hp with rfl | hp
    · exact ⟨[], q, data, rfl, rfl⟩
    · obtain ⟨before, r, after, rfl, hr⟩ := ih hp
      exact ⟨q :: before, r, after, rfl, hr⟩

/-- A page that passes the check and reaches out of the memory starts on the last page of all. -/
theorem last_of_readable (hp : Readable files size p) (hi : size ≤ i)
    (hpage : (i - p.1).toNat < pageSize) : 2 ^ 64 - 4096 ≤ p.1.toNat := by
  have hcheck := check_iff.mp hp.1
  have haddr := p.1.isLt
  have hlt := i.isLt
  rw [BitVec.le_def] at hi
  rw [BitVec.toNat_sub, pageSize] at hpage
  omega

/-- No data page starts there but one on the last frame. -/
theorem frame_of_last {memory : ByteMem} {virtaddr : BitVec 64}
    (h : 2 ^ 64 - 4096 ≤ (dataAddress memory virtaddr).toNat) :
    pageFrame (wordsOf memory) (virtAddr64 virtaddr) = 0xFFFFF := by
  rw [dataAddress, toNat_physicalAddress] at h
  have hframe := (pageFrame (wordsOf memory) (virtAddr64 virtaddr)).isLt
  have hoff := (virtAddr64 virtaddr).pageOffset.isLt
  refine BitVec.eq_of_toNat_eq ?_
  change _ = 0xFFFFF
  dsimp only at h
  split_ifs at h <;> omega

/-- **Outside of the memory** that is allocated, a description that is loaded changes nothing,
unless the virtual address of a data page is translated to the last frame when its turn comes. -/
theorem outside_of_loaded (env : LoadEnv) (f : File) (around bytes : ByteMem)
    (memory : Option ByteMem) (memCapacityInBytes size i : BitVec 64)
    (hcalloc : env.calloc = some around)
    (hload : memInitFromDescription env (some f) memory memCapacityInBytes =
      { err := .errNone, memory := some bytes, memCapacityInBytes := size })
    (hi : size ≤ i) (hne : bytes i ≠ around i) :
    ∃ l before p after, Describes env.stack f size l ∧ l.data = before ++ p :: after ∧
      pageFrame (wordsOf ({ l with data := before }.image env.files (zeroed around size)))
        (virtAddr64 p.1) = 0xFFFFF := by
  obtain ⟨_, _, l, ⟨⟩, haround, hl, hreadable, rfl⟩ := describes_of_loaded hload
  cases hcalloc.symm.trans haround
  have hbase : zeroed around size i = around i := if_neg (BitVec.not_lt.mpr hi)
  obtain ⟨p, hp, hpage⟩ : ∃ p ∈ l.pages env.files (zeroed around size),
      (i - p.1).toNat < pageSize := by
    by_contra hnone
    refine hne ((storePages_apply fun p hp => ?_).trans hbase)
    exact Nat.not_lt.mp fun hpage => hnone ⟨p, hp, hpage⟩
  have hlast := last_of_readable (hreadable p hp) hi hpage
  rcases List.mem_append.mp hp with hp | hp
  · -- translation pages have addresses of 32 bits
    rcases List.mem_cons.mp hp with rfl | hp
    · exact absurd hlast (of_decide_eq_false rfl)
    · obtain ⟨t, -, rfl⟩ := List.mem_map.mp hp
      have hlocation := t.1.isLt
      simp only [tableAt, BitVec.toNat_setWidth] at hlast
      omega
  · obtain ⟨before, q, after, hdata, hq⟩ := exists_of_mem_placed hp
    refine ⟨l, before, q, after, hl, hdata, frame_of_last ?_⟩
    rw [PageList.image, PageList.pages, List.foldl_append]
    exact hq ▸ hlast

/-- The files of three pages, where the second virtual page is mapped to the last frame. -/
def lastFiles (path : Path) : Option (List Byte) :=
  if path = [ch 't'] then
    some ([0, 0x10, 0, 0, 0, 0xF0, 0xFF, 0xFF] ++ List.replicate pageSize 0)
  else threeFiles path

/-- The data page is stored before the memory. -/
theorem outside_of_loaded_last :
    ∃ bytes, memInitFromDescription ⟨lastFiles, some fun _ => 1, fun _ => []⟩
        (some (File.open threePages.text)) none 0 =
          { err := .errNone, memory := some bytes, memCapacityInBytes := 12288 } ∧
      bytes (-1) = 7 ∧ ∃ l before p after,
        Describes (fun _ => []) (File.open threePages.text) 12288 l ∧
        l.data = before ++ p :: after ∧
        pageFrame (wordsOf ({ l with data := before }.image lastFiles (zeroed (fun _ => 1) 12288)))
          (virtAddr64 p.1) = 0xFFFFF := by
  have hparts : (memInitFromDescription ⟨lastFiles, some fun _ => 1, fun _ => []⟩
        (some (File.open threePages.text)) none 0).err = .errNone ∧
      (memInitFromDescription ⟨lastFiles, some fun _ => 1, fun _ => []⟩
        (some (File.open threePages.text)) none 0).memCapacityInBytes = 12288 ∧
      (memInitFromDescription ⟨lastFiles, some fun _ => 1, fun _ => []⟩
        (some (File.open threePages.text)) none 0).memory.map (fun bytes => bytes (-1)) =
          some 7 := by decide +kernel
  rcases hload : memInitFromDescription ⟨lastFiles, some fun _ => 1, fun _ => []⟩
    (some (File.open threePages.text)) none 0 with ⟨err, memory, size⟩
  rw [hload] at hparts
  obtain ⟨rfl, rfl, hbyte⟩ := hparts
  obtain ⟨bytes, rfl, hseven⟩ := Option.map_eq_some_iff.mp hbyte
  refine ⟨bytes, rfl, hseven, ?_⟩
  exact outside_of_loaded _ _ (fun _ => 1) bytes none 0 12288 (-1) rfl hload (by decide)
    (hseven ▸ by decide)

end Outside

end MemoryHierarchy
