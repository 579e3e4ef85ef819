import MemoryHierarchy.Memory.PageFile
import MemoryHierarchy.Text.Token

/-!
# The loaders

`mem_init_from_dumpfile` and `mem_init_from_description` of `memory.c`. The second one reads a
header (`readHeader`), then as many translation pages as the header says (`tablePass`), then data
pages up to the end of the file (`dataPass`). A test with `handle_exit_error` frees the memory when
it fails; a test without returns at once.
-/

namespace MemoryHierarchy

open Lib

/-- What a loader depends on besides its arguments: the files of the pages, what `calloc` returns,
with the bytes around it, and what the arrays that have not been written hold. -/
structure LoadEnv where
  files : Path → Option (List Byte)
  calloc : Option ByteMem
  stack : ℕ → List Byte

/-- `calloc(size, sizeof(byte_t))`. -/
def LoadEnv.callocBytes (env : LoadEnv) (size : BitVec 64) : Option ByteMem :=
  env.calloc.map fun around i => if i < size then 0 else around i

/-- What a loader leaves: its error code, `*memory` and `*mem_capacity_in_bytes`. -/
structure LoadResult where
  err : ErrorCode
  memory : Option ByteMem
  memCapacityInBytes : BitVec 64

/-! ### Dump files -/

/-- `mem_init_from_dumpfile`. Of a file that can be opened, `ftell` is the size the position at its
end tells, and `content` what can be read. -/
def memInitFromDumpfile (env : LoadEnv) (file : Option (BitVec 64 × List Byte))
    (memory : Option ByteMem) (memCapacityInBytes : BitVec 64) : LoadResult :=
  match file with
  | none =>
    { err := .errBadParameter, memory := memory, memCapacityInBytes := memCapacityInBytes }
  | some (ftell, content) =>
    if ftell.toNat % pageSize ≠ 0 then
      { err := .errBadParameter, memory := handleExitError memory, memCapacityInBytes := ftell }
    else
      match env.callocBytes ftell with
      | none => { err := .errMem, memory := none, memCapacityInBytes := ftell }
      | some bytes =>
        let read := content.take ftell.toNat
        let memory := some (storeBytes bytes 0 read)
        if read.length ≠ ftell.toNat then
          { err := .errIo, memory := handleExitError memory, memCapacityInBytes := ftell }
        else { err := .errNone, memory := memory, memCapacityInBytes := ftell }

/-! ### Descriptions -/

/-- `maxFileSize`. -/
abbrev maxFileSize : ℕ := 200

/-- `MAX_SIZE_BUFFER` of `memory.c`. -/
abbrev Loader.maxSizeBuffer : ℕ := 50

/-- The variables of `mem_init_from_description` that live through its loops. -/
structure LoadState where
  f : File
  memory : Option ByteMem
  memCapacityInBytes : BitVec 64

/-- Leaving with an error after `handle_exit_error`. -/
def LoadState.exitError (s : LoadState) (err : ErrorCode) : LoadResult :=
  { err := err, memory := handleExitError s.memory, memCapacityInBytes := s.memCapacityInBytes }

/-- Leaving with `*memory` as it is. -/
def LoadState.exit (s : LoadState) (err : ErrorCode) : LoadResult :=
  { err := err, memory := s.memory, memCapacityInBytes := s.memCapacityInBytes }

/-- A call of `page_file_read`, and `handle_exit_error` if it fails. -/
def LoadState.readPage (env : LoadEnv) (s : LoadState) (addr : BitVec 64) (filename : Path) :
    Except LoadResult LoadState :=
  let read := pageFileRead env.files s.memory s.memCapacityInBytes addr filename
  let s := { s with memory := read.memory }
  if read.err ≠ .errNone then .error (s.exitError read.err) else .ok s

/-- The first line: the size of the memory, which is then allocated. -/
def readCapacity (env : LoadEnv) (s : LoadState) : Except LoadResult LoadState :=
  match fscanfUnsigned 10 s.f with
  | (none, f) => .error ({ s with f := f }.exit .errIo)
  | (some capacity, f) =>
    let (c, f) := fgetc f
    let s := { s with f := f, memCapacityInBytes := BitVec.ofNat 64 capacity }
    if c ≠ 10 then .error (s.exitError .errIo)
    else
      match env.callocBytes s.memCapacityInBytes with
      | none => .error ({ s with memory := none }.exitError .errMem)
      | some bytes => .ok { s with memory := some bytes }

/-- The second line: the page directory, which goes to address `0`. -/
def readPgd (env : LoadEnv) (s : LoadState) : Except LoadResult LoadState :=
  let (line, f) := fgets maxFileSize s.f
  let s := { s with f := f }
  if f.eof then .error (s.exitError .errEof)
  else
    match strtokNewline (line.getD (env.stack 0)) with
    | none => .error (s.exitError .errBadParameter)
    | some pgdLocation => s.readPage env 0 pgdLocation

/-- The third line: the number of translation pages. -/
def readNbTables (s : LoadState) : Except LoadResult (LoadState × ℕ) :=
  match fscanfUnsigned 10 s.f with
  | (none, f) => .error ({ s with f := f }.exitError .errBadParameter)
  | (some nbTables, f) => .ok ({ s with f := f }, nbTables)

/-- `mem_init_from_description` before its loops. -/
def readHeader (env : LoadEnv) (file : Option File) (memory : Option ByteMem)
    (memCapacityInBytes : BitVec 64) : Except LoadResult (LoadState × ℕ) :=
  match file with
  | none => .error
    { err := .errBadParameter
      memory := handleExitError memory
      memCapacityInBytes := memCapacityInBytes }
  | some f => do
    let s ← readCapacity env
      { f := f, memory := memory, memCapacityInBytes := memCapacityInBytes }
    let s ← readPgd env s
    readNbTables s

/-- One line of the loop over the translation pages, that of number `i`. A line that does not start
with a location leaves `*memory` as it is. -/
def readTable (env : LoadEnv) (i : ℕ) (s : LoadState) : Except LoadResult LoadState :=
  match fscanfUnsigned 16 s.f with
  | (none, f) => .error ({ s with f := f }.exit .errIo)
  | (some location, f) =>
    let (c, f) := fgetc f
    let s := { s with f := f }
    if c ≠ 32 then .error (s.exitError .errBadParameter)
    else
      let (line, f) := fgets maxFileSize f
      let s := { s with f := f }
      match strtokNewline (line.getD (env.stack (i + 1))) with
      | none => .error (s.exitError .errBadParameter)
      | some pageLocation =>
        s.readPage env ((BitVec.ofNat 32 location).setWidth 64) pageLocation

/-- One pass of the loop over the translation pages, with the counter of the loop. -/
def tablePass (env : LoadEnv) (nbTables : ℕ) (s : LoadState × ℕ) :
    Pass (LoadState × ℕ) (Except LoadResult LoadState) :=
  if s.2 < nbTables then
    match readTable env s.2 s.1 with
    | .error r => .leave (.error r)
    | .ok t => .again (t, s.2 + 1)
  else .leave (.ok s.1)

theorem tablePass_lt {env : LoadEnv} {nbTables : ℕ} {s t : LoadState × ℕ}
    (h : tablePass env nbTables s = .again t) : nbTables - t.2 < nbTables - s.2 := by
  rw [tablePass] at h
  split_ifs at h with hlt
  · split at h
    · cases h
    · cases h
      omega

/-- The loop over the translation pages. -/
def tablesLoop (env : LoadEnv) (nbTables : ℕ) (s : LoadState × ℕ) : Except LoadResult LoadState :=
  loop (tablePass env nbTables) (fun s => nbTables - s.2) (fun _ _ => tablePass_lt) s

/-- The translation of a data page and the reading of its file. -/
def readData (env : LoadEnv) (s : LoadState) (virtaddr : ℕ) (filename : Path) :
    Except LoadResult LoadState :=
  match initVirtAddr64 (BitVec.ofNat 64 virtaddr), s.memory with
  | .error err, _ => .error (s.exitError err)
  | .ok _, none => .error (s.exitError .errBadParameter)
  | .ok virt, some bytes =>
    match pageWalk (wordsOf bytes) virt with
    | .error err => .error (s.exitError err)
    | .ok phy => s.readPage env (physicalAddress phy) filename

/-- One pass of the loop over the data pages. The error code of the first call of
`readUntilNextSpace` is ignored. -/
def dataPass (env : LoadEnv) (s : LoadState) : Pass LoadState LoadResult :=
  if s.f.ended then .leave (s.exit .errNone)
  else
    let number := readToken Loader.maxSizeBuffer s.f
    let s := { s with f := number.input }
    if number.buffer.length = 0 then .leave (s.exit .errNone)
    else
      let (virtaddr, afterNumber) := strtoull16 (cString number.buffer)
      if number.buffer.head? = some eofChar then .leave (s.exit .errNone)
      else if afterNumber = 0 then .leave (s.exitError .errBadParameter)
      else
        let path := readToken Loader.maxSizeBuffer s.f
        let s := { s with f := path.input }
        if path.err ≠ .errNone then .leave (s.exitError path.err)
        else if path.buffer.length = 0 then .leave (s.exit .errNone)
        else
          -- the last character of the token is cut off
          match readData env s virtaddr (cString path.buffer.dropLast) with
          | .error r => .leave r
          | .ok t => .again t

variable {env : LoadEnv} {s t : LoadState}

/-- A page that is read leaves the stream alone. -/
theorem f_of_readPage {addr : BitVec 64} {filename : Path}
    (h : s.readPage env addr filename = .ok t) : t.f = s.f := by
  rw [LoadState.readPage] at h
  split_ifs at h
  cases h
  rfl

theorem f_of_readData {virtaddr : ℕ} {filename : Path}
    (h : readData env s virtaddr filename = .ok t) : t.f = s.f := by
  rw [readData] at h
  split at h
  · cases h
  · cases h
  · split at h
    · cases h
    · exact f_of_readPage h

theorem dataPass_left (h : dataPass env s = .again t) : t.f.left < s.f.left := by
  rw [dataPass] at h
  split at h
  · cases h
  · next hended =>
    have hlt := left_readToken_lt Loader.maxSizeBuffer (Bool.eq_false_iff.mpr hended)
    simp only at h
    split_ifs at h
    split at h
    · cases h
    · next hread =>
      cases h
      rw [f_of_readData hread]
      exact (left_readToken_le Loader.maxSizeBuffer _).trans_lt hlt

/-- The loop over the data pages. -/
def dataLoop (env : LoadEnv) (s : LoadState) : LoadResult :=
  loop (dataPass env) (fun s => s.f.left) (fun _ _ => dataPass_left) s

/-- `mem_init_from_description`, where `file` is what `fopen` returns. -/
def memInitFromDescription (env : LoadEnv) (file : Option File) (memory : Option ByteMem)
    (memCapacityInBytes : BitVec 64) : LoadResult :=
  match readHeader env file memory memCapacityInBytes with
  | .error r => r
  | .ok (s, nbTables) =>
    match tablesLoop env nbTables (s, 0) with
    | .error r => r
    | .ok s => dataLoop env s

end MemoryHierarchy
