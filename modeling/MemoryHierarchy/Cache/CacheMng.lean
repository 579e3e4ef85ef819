import MemoryHierarchy.Cache.Cache
import Mathlib.Data.List.FinRange

/-!
# Cache management

The operations of `cache_mng.c` on an L1 cache, the L2 cache and the memory, statement by
statement. `access` only selects which L1 cache is passed and which constants the macros use, so
the L1 operations are generic in the geometry of the L1 cache. A pointer to a cache is the value
of the cache before and after the call; an out-parameter that an error path leaves unset is an
`Option`. Guards on null pointers, on the cache type and on the replacement policy are excluded
by the types.
-/

namespace MemoryHierarchy

open Lib

variable {g : Geometry}

/-- `cache_flush`: everything zero, so every entry invalid. -/
def cacheFlush (g : Geometry) : Cache g := fun _ _ =>
  { v := false, age := 0, tag := 0, line := fun _ => 0 }

/-! ### Lookup -/

/-- What `cache_hit` reports on a hit. A miss, `HIT_WAY_MISS`, is the absence of a report. -/
structure CacheHit (g : Geometry) where
  pLine : Line
  hitWay : Fin g.ways
  hitIndex : Fin g.lines

/-- The loop of `cache_hit_generic`: it stops at the first invalid way. -/
def cacheHitLoop (set : CacheSet g) (tag : BitVec 32) :
    List (Fin g.ways) → Option (Fin g.ways)
  | [] => none
  | way :: ways =>
    if !(set way).v then none
    else if (set way).tag.setWidth 32 = tag then some way
    else cacheHitLoop set tag ways

/-- `cache_hit`. On a hit the ages of the set are updated. -/
def cacheHit (cache : Cache g) (paddr : PhyAddr) : Cache g × Option (CacheHit g) :=
  let phyAddr := phyToInt paddr
  let lineIndex := extractLineIndex g phyAddr
  let tag := phyAddr >>> g.tagRemainingBits
  match cacheHitLoop (cache lineIndex) tag (List.finRange g.ways) with
  | none => (cache, none)
  | some way =>
    (Function.update cache lineIndex (lruAgeUpdate (cache lineIndex) way),
      some { pLine := (cache lineIndex way).line, hitWay := way, hitIndex := lineIndex })

/-! ### Insertion -/

/-- `cache_insert`. -/
def cacheInsert (cacheLineIndex cacheWay : ℕ) (cacheLineIn : CacheEntry g) (cache : Cache g) :
    ErrorCode × Cache g :=
  if h : cacheWay < g.ways ∧ cacheLineIndex < g.lines then
    (.errNone, Function.update cache ⟨cacheLineIndex, h.2⟩
      (Function.update (cache ⟨cacheLineIndex, h.2⟩) ⟨cacheWay, h.1⟩ cacheLineIn))
  else (.errBadParameter, cache)

/-- `cache_init_entry_with_param`. -/
def cacheInitEntryWithParam (g : Geometry) (phyAddr : BitVec 32) (inputLine : Line) :
    CacheEntry g :=
  { v := true, age := 0, tag := addrTag g phyAddr, line := inputLine }

/-- `cache_entry_init`: the entry is filled from memory. -/
def cacheEntryInit (g : Geometry) (memSpace : Mem) (paddr : PhyAddr) : CacheEntry g :=
  let phyAddr := phyToInt paddr
  let addr := computeAddrLineAligned phyAddr
  cacheInitEntryWithParam g phyAddr fun i => memSpace (addr + i)

/-- The loop of `find_empty_slot_generic`. -/
def findEmptySlotLoop (set : CacheSet g) : List (Fin g.ways) → Option (Fin g.ways)
  | [] => none
  | way :: ways => if !(set way).v then some way else findEmptySlotLoop set ways

/-- `find_empty_slot`; `NOTHING_FOUND` is `none`. -/
def findEmptySlot (cache : Cache g) (lineIndex : Fin g.lines) : Option (Fin g.ways) :=
  findEmptySlotLoop (cache lineIndex) (List.finRange g.ways)

/-- The loop of `evict_generic`, carrying `max_age` and `entry_to_evict`. -/
def evictLoop (set : CacheSet g) :
    List (Fin g.ways) → ℕ → Option (Fin g.ways) → Option (Fin g.ways)
  | [], _, entryToEvict => entryToEvict
  | way :: ways, maxAge, entryToEvict =>
    if (set way).v ∧ maxAge ≤ (set way).age then evictLoop set ways (set way).age (some way)
    else evictLoop set ways maxAge entryToEvict

/-- Clear the valid bit of one entry. -/
def clearValid (cache : Cache g) (lineIndex : Fin g.lines) (way : Fin g.ways) : Cache g :=
  Function.update cache lineIndex
    (Function.update (cache lineIndex) way { cache lineIndex way with v := false })

/-- `evict`: invalidate the oldest valid entry and point at it, or `NULL`. -/
def evict (cache : Cache g) (lineIndex : Fin g.lines) : Cache g × Option (Fin g.ways) :=
  match evictLoop (cache lineIndex) (List.finRange g.ways) 0 none with
  | none => (cache, none)
  | some way => (clearValid cache lineIndex way, some way)

/-- `modify_ages`. -/
def modifyAges (cache : Cache g) (way : Fin g.ways) (lineIndex : Fin g.lines)
    (isColdStart : Bool) : Cache g :=
  Function.update cache lineIndex
    (if !isColdStart then lruAgeUpdate (cache lineIndex) way
    else lruAgeIncrease (cache lineIndex) way)

/-- The end of `insert_level1` and of `insert_level2`: insert at the way found, then update
the ages. `NOTHING_FOUND` would be truncated to way 255, which `cache_insert` refuses. -/
def insertAndModifyAges (cache : Cache g) (lineIndex : Fin g.lines)
    (cacheWay : Option (Fin g.ways)) (entry : CacheEntry g) (isColdStart : Bool) :
    ErrorCode × Cache g :=
  match cacheWay with
  | none => cacheInsert lineIndex 255 entry cache
  | some way =>
    let (err, cache) := cacheInsert lineIndex way entry cache
    if err ≠ .errNone then (err, cache)
    else (.errNone, modifyAges cache way lineIndex isColdStart)

/-- `insert_level2`. -/
def insertLevel2 (cache : Cache .l2Cache) (entry : CacheEntry .l2Cache) (phyAddr : BitVec 32) :
    ErrorCode × Cache .l2Cache :=
  let lineIndex := extractLineIndex .l2Cache phyAddr
  match findEmptySlot cache lineIndex with
  | some cacheWay => insertAndModifyAges cache lineIndex (some cacheWay) entry true
  | none =>
    let (cache, evicted) := evict cache lineIndex
    match evicted with
    -- `evict` returned `NULL`
    | none => (.errMem, cache)
    | some evicted =>
      -- the new entry takes over the age, which `modify_ages` compares the others with
      let entry := { entry with age := (cache lineIndex evicted).age }
      insertAndModifyAges cache lineIndex (findEmptySlot cache lineIndex) entry false

/-- `insert_level1`: an entry evicted from L1 is re-encoded and moves to L2. -/
def insertLevel1 (l1Cache : Cache g) (l2Cache : Cache .l2Cache) (entry : CacheEntry g)
    (phyAddr : BitVec 32) : ErrorCode × Cache g × Cache .l2Cache :=
  let lineIndex := extractLineIndex g phyAddr
  match findEmptySlot l1Cache lineIndex with
  | some cacheWay =>
    let (err, l1Cache) := insertAndModifyAges l1Cache lineIndex (some cacheWay) entry true
    (err, l1Cache, l2Cache)
  | none =>
    let (l1Cache, evictedEntry) := evict l1Cache lineIndex
    match evictedEntry with
    | none => (.errMem, l1Cache, l2Cache)
    | some evictedWay =>
      let evictedEntry := l1Cache lineIndex evictedWay
      let oldPhyAddr := recomputeOldPhyAddr evictedEntry.tag lineIndex
      let l2Entry :=
        cacheInitEntryWithParam .l2Cache oldPhyAddr evictedEntry.line
      let (err, l2Cache) := insertLevel2 l2Cache l2Entry oldPhyAddr
      if err ≠ .errNone then (err, l1Cache, l2Cache)
      else
        let entry := { entry with age := evictedEntry.age }
        let (err, l1Cache) :=
          insertAndModifyAges l1Cache lineIndex (findEmptySlot l1Cache lineIndex) entry false
        (err, l1Cache, l2Cache)

/-- `move_entry_to_level1`: the L2 entry is copied to L1 and invalidated in L2 before the
insertion, which may itself push an entry down to L2. -/
def moveEntryToLevel1 (l1Cache : Cache g) (l2Cache : Cache .l2Cache)
    (hitIndex : Fin Geometry.l2Cache.lines) (hitWay : Fin Geometry.l2Cache.ways)
    (phyAddr : BitVec 32) : ErrorCode × Cache g × Cache .l2Cache :=
  let l1Entry := cacheInitEntryWithParam g phyAddr (l2Cache hitIndex hitWay).line
  insertLevel1 l1Cache (clearValid l2Cache hitIndex hitWay) l1Entry phyAddr

/-! ### Reading -/

/-- `search_in_memory_and_affect`: the line is copied from memory into L1 only. -/
def searchInMemoryAndAffect (paddr : PhyAddr) (phyAddr : BitVec 32) (memSpace : Mem)
    (l1Cache : Cache g) (l2Cache : Cache .l2Cache) :
    ErrorCode × Option Word × Cache g × Cache .l2Cache :=
  let entry := cacheEntryInit g memSpace paddr
  let (err, l1Cache, l2Cache) := insertLevel1 l1Cache l2Cache entry phyAddr
  if err ≠ .errNone then (err, none, l1Cache, l2Cache)
  else (.errNone, some (entry.line (extractWordIndex phyAddr)), l1Cache, l2Cache)

/-- `cache_read`. The error code of `search_in_memory_and_affect` is dropped. -/
def cacheRead (memSpace : Mem) (paddr : PhyAddr) (l1Cache : Cache g)
    (l2Cache : Cache .l2Cache) : ErrorCode × Option Word × Cache g × Cache .l2Cache :=
  if paddr.pageOffset.toNat % 4 ≠ 0 then (.errBadParameter, none, l1Cache, l2Cache)
  else
    let phyAddr := phyToInt paddr
    let (l1Cache, hit) := cacheHit l1Cache paddr
    match hit with
    | some hit => (.errNone, some (hit.pLine (extractWordIndex phyAddr)), l1Cache, l2Cache)
    | none =>
      let (l2Cache, hit) := cacheHit l2Cache paddr
      match hit with
      | some hit =>
        let word := hit.pLine (extractWordIndex phyAddr)
        let (err, l1Cache, l2Cache) :=
          moveEntryToLevel1 l1Cache l2Cache hit.hitIndex hit.hitWay phyAddr
        (err, some word, l1Cache, l2Cache)
      | none =>
        let (_, word, l1Cache, l2Cache) :=
          searchInMemoryAndAffect paddr phyAddr memSpace l1Cache l2Cache
        (.errNone, word, l1Cache, l2Cache)

/-- The address of the word that holds the byte at `paddr`: `cache_read_deal_with_bytes` takes
the byte index off the page offset. -/
def wordAligned (paddr : PhyAddr) : PhyAddr :=
  { paddr with pageOffset := paddr.pageOffset - BitVec.ofNat 12 (paddr.pageOffset.toNat % 4) }

/-- `cache_read_byte`: read the word, then pick the byte, on a little-endian host. -/
def cacheReadByte (memSpace : Mem) (paddr : PhyAddr) (l1Cache : Cache g)
    (l2Cache : Cache .l2Cache) : ErrorCode × Option Byte × Cache g × Cache .l2Cache :=
  let byteIndex := paddr.pageOffset.toNat % 4
  let (err, word, l1Cache, l2Cache) := cacheRead memSpace (wordAligned paddr) l1Cache l2Cache
  if err ≠ .errNone then (err, none, l1Cache, l2Cache)
  else
    -- `word` is initialised to `0` before the read
    (.errNone, some (byteAt (word.getD 0) byteIndex), l1Cache, l2Cache)

/-! ### Writing -/

/-- `write_memory`: the whole line goes to memory. -/
def writeMemory (memSpace : Mem) (phyAddr : BitVec 32) (line : Line) : Mem := fun i =>
  let addr := computeAddrLineAligned phyAddr
  if h : addr ≤ i ∧ i < addr + wordsPerLine then line ⟨i - addr, by omega⟩ else memSpace i

/-- `read_memory`. -/
def readMemory (memSpace : Mem) (phyAddr : BitVec 32) : Line := fun i =>
  memSpace (computeAddrLineAligned phyAddr + i)

/-- `set_word_and_write_back`: the line with the word updated, and the memory it is written
back to. -/
def setWordAndWriteBack (memSpace : Mem) (phyAddr : BitVec 32) (inputLine : Line) (word : Word) :
    Line × Mem :=
  let inputLine := Function.update inputLine (extractWordIndex phyAddr) word
  (inputLine, writeMemory memSpace phyAddr inputLine)

/-- `read_modifyLine_insert_updateAges_writeBackInMemory`. -/
def readModifyLineInsertUpdateAgesWriteBackInMemory (memSpace : Mem) (phyAddr : BitVec 32)
    (cache : Cache g) (hitIndex : Fin g.lines) (hitWay : Fin g.ways) (word : Word) :
    ErrorCode × Mem × Cache g :=
  let entry := cache hitIndex hitWay
  let (line, memSpace) := setWordAndWriteBack memSpace phyAddr entry.line word
  let (err, cache) := cacheInsert hitIndex hitWay { entry with line := line } cache
  if err ≠ .errNone then (err, memSpace, cache)
  else (.errNone, memSpace, modifyAges cache hitWay hitIndex false)

/-- `cache_write`. -/
def cacheWrite (memSpace : Mem) (paddr : PhyAddr) (l1Cache : Cache g) (l2Cache : Cache .l2Cache)
    (word : Word) : ErrorCode × Mem × Cache g × Cache .l2Cache :=
  if paddr.pageOffset.toNat % 4 ≠ 0 then (.errBadParameter, memSpace, l1Cache, l2Cache)
  else
    let phyAddr := phyToInt paddr
    let (l1Cache, hit) := cacheHit l1Cache paddr
    match hit with
    | some hit =>
      let (err, memSpace, l1Cache) := readModifyLineInsertUpdateAgesWriteBackInMemory memSpace
        phyAddr l1Cache hit.hitIndex hit.hitWay word
      (err, memSpace, l1Cache, l2Cache)
    | none =>
      let (l2Cache, hit) := cacheHit l2Cache paddr
      match hit with
      | some hit =>
        let (err, memSpace, l2Cache) := readModifyLineInsertUpdateAgesWriteBackInMemory memSpace
          phyAddr l2Cache hit.hitIndex hit.hitWay word
        if err ≠ .errNone then (err, memSpace, l1Cache, l2Cache)
        else
          let (err, l1Cache, l2Cache) :=
            moveEntryToLevel1 l1Cache l2Cache hit.hitIndex hit.hitWay phyAddr
          (err, memSpace, l1Cache, l2Cache)
      | none =>
        let line := readMemory memSpace phyAddr
        let (_, memSpace) := setWordAndWriteBack memSpace phyAddr line word
        let entry := cacheEntryInit g memSpace paddr
        let (err, l1Cache, l2Cache) := insertLevel1 l1Cache l2Cache entry (phyToInt paddr)
        (err, memSpace, l1Cache, l2Cache)

/-- `cache_write_byte`: read the word, set the byte, write the word. -/
def cacheWriteByte (memSpace : Mem) (paddr : PhyAddr) (l1Cache : Cache g)
    (l2Cache : Cache .l2Cache) (byte : Byte) : ErrorCode × Mem × Cache g × Cache .l2Cache :=
  let byteIndex := paddr.pageOffset.toNat % 4
  let (err, word, l1Cache, l2Cache) := cacheRead memSpace (wordAligned paddr) l1Cache l2Cache
  if err ≠ .errNone then (err, memSpace, l1Cache, l2Cache)
  else
    let word := withByte (word.getD 0) byteIndex byte
    cacheWrite memSpace (wordAligned paddr) l1Cache l2Cache word

/-! ### The system -/

/-- `mem_access_t`. -/
inductive MemAccess
  | instruction
  | data
  deriving DecidableEq, Repr

/-- The memory and the three caches a program runs on. -/
structure CacheState where
  memSpace : Mem
  l1Icache : Cache .l1Icache
  l1Dcache : Cache .l1Dcache
  l2Cache : Cache .l2Cache

/-- One cache operation, as `execute_command` of `test-cache.c` issues it once the virtual
address is translated: reads go through the L1 cache of their kind, writes through the
data cache. -/
inductive CacheOp
  | read (access : MemAccess) (paddr : PhyAddr)
  | readByte (access : MemAccess) (paddr : PhyAddr)
  | write (paddr : PhyAddr) (word : Word)
  | writeByte (paddr : PhyAddr) (byte : Byte)

/-- What the operation hands back: its error code and the word or byte it sets. -/
structure Reply where
  err : ErrorCode
  word : Option Word
  byte : Option Byte
  deriving DecidableEq

/-- `execute_command`, after the page walk. -/
def executeCommand (s : CacheState) : CacheOp → CacheState × Reply
  | .read .instruction paddr =>
    let (err, word, l1, l2) := cacheRead s.memSpace paddr s.l1Icache s.l2Cache
    ({ s with l1Icache := l1, l2Cache := l2 }, ⟨err, word, none⟩)
  | .read .data paddr =>
    let (err, word, l1, l2) := cacheRead s.memSpace paddr s.l1Dcache s.l2Cache
    ({ s with l1Dcache := l1, l2Cache := l2 }, ⟨err, word, none⟩)
  | .readByte .instruction paddr =>
    let (err, byte, l1, l2) := cacheReadByte s.memSpace paddr s.l1Icache s.l2Cache
    ({ s with l1Icache := l1, l2Cache := l2 }, ⟨err, none, byte⟩)
  | .readByte .data paddr =>
    let (err, byte, l1, l2) := cacheReadByte s.memSpace paddr s.l1Dcache s.l2Cache
    ({ s with l1Dcache := l1, l2Cache := l2 }, ⟨err, none, byte⟩)
  | .write paddr word =>
    let (err, mem, l1, l2) := cacheWrite s.memSpace paddr s.l1Dcache s.l2Cache word
    ({ s with memSpace := mem, l1Dcache := l1, l2Cache := l2 }, ⟨err, none, none⟩)
  | .writeByte paddr byte =>
    let (err, mem, l1, l2) := cacheWriteByte s.memSpace paddr s.l1Dcache s.l2Cache byte
    ({ s with memSpace := mem, l1Dcache := l1, l2Cache := l2 }, ⟨err, none, none⟩)

/-- Flushed caches over a memory. -/
def flushed (memSpace : Mem) : CacheState where
  memSpace := memSpace
  l1Icache := cacheFlush _
  l1Dcache := cacheFlush _
  l2Cache := cacheFlush _

/-- The state after one operation. -/
abbrev stepCommand (s : CacheState) (op : CacheOp) : CacheState := (executeCommand s op).1

/-- The state after a sequence of operations. -/
def runCommands (s : CacheState) (ops : List CacheOp) : CacheState := ops.foldl stepCommand s

end MemoryHierarchy
