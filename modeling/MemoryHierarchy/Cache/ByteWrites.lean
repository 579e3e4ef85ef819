import MemoryHierarchy.Cache.Memory

/-!
# Byte writes are exact and immediately visible

A byte write is a read of the word followed by a write of the word. The read leaves the line in
L1, so the write finds it there, whatever other copies L2 or the other L1 cache hold
(`served_after_readStep`); and once the write is done the line is in L1 with the data that went
to memory, as the youngest of its set, so that reading it again changes nothing at all
(`readStep_of_youngest`). None of this needs the state to be reachable.
-/

namespace MemoryHierarchy

open Lib Function

/-! ### Reading the line just accessed -/

/-- Touching the youngest way, with its own data, changes nothing. -/
theorem touchSet_of_age_eq_zero {g : Geometry} {set : CacheSet g} {w : Fin g.ways}
    (h : (set w).age = 0) : touchSet set w (set w).line = set := by
  rw [touchSet, lruAgeUpdate_of_age_eq_zero h, update_eq_self]

/-- A line that the L1 lookup finds is the one served. -/
theorem served_of_lookup {s : CacheState} {access : MemAccess} {phyAddr : BitVec 32}
    {w : Fin Geometry.l1Icache.ways} (h : lookup (s.l1 access) phyAddr = some w) :
    s.served access phyAddr = (s.l1 access (extractLineIndex .l1Icache phyAddr) w).line := by
  rw [CacheState.served, servedLine, h]

/-- Reading a line that is the youngest of its set in L1 changes nothing. -/
theorem readStep_of_youngest {s : CacheState} {access : MemAccess} {phyAddr : BitVec 32}
    {w : Fin Geometry.l1Icache.ways} (h : lookup (s.l1 access) phyAddr = some w)
    (hage : (s.l1 access (extractLineIndex .l1Icache phyAddr) w).age = 0) :
    readStep s access phyAddr = s := by
  rw [readStep, served_of_lookup h, MemoryHierarchy.access, h]
  simp only [touchSet_of_age_eq_zero hage, setAt, update_eq_self]
  cases access <;> rfl

/-- A read serves the same line again. -/
theorem served_after_readStep (s : CacheState) (access : MemAccess) (phyAddr : BitVec 32) :
    (readStep s access phyAddr).served access phyAddr = s.served access phyAddr := by
  obtain ⟨w, hw, hline, -⟩ := lookup_access (s.l1 access) s.l2Cache phyAddr
    (s.served access phyAddr)
  have hl1 : (readStep s access phyAddr).l1 access =
      (MemoryHierarchy.access (s.l1 access) s.l2Cache phyAddr (s.served access phyAddr)).1 :=
    setCaches_l1_self s access _
  rw [← hl1] at hw hline
  rw [served_of_lookup hw, hline]

/-! ### Addresses of one word -/

theorem phyToInt_inj {paddr paddr' : PhyAddr} (h : phyToInt paddr = phyToInt paddr') :
    paddr = paddr' := by
  have hn := congrArg BitVec.toNat h
  rw [toNat_phyToInt, toNat_phyToInt] at hn
  have hoff := paddr.pageOffset.isLt
  have hoff' := paddr'.pageOffset.isLt
  have hpage : paddr.phyPageNum = paddr'.phyPageNum := BitVec.eq_of_toNat_eq (by omega)
  have hoffset : paddr.pageOffset = paddr'.pageOffset := BitVec.eq_of_toNat_eq (by omega)
  cases paddr
  cases paddr'
  simp only at hpage hoffset
  rw [hpage, hoffset]

/-- Bytes of one word are accessed through the same aligned address. -/
theorem phyToInt_wordAligned_congr {paddr paddr' : PhyAddr}
    (h : (phyToInt paddr').toNat / 4 = (phyToInt paddr).toNat / 4) :
    phyToInt (wordAligned paddr') = phyToInt (wordAligned paddr) := by
  refine BitVec.eq_of_toNat_eq ?_
  rw [toNat_wordAligned, toNat_wordAligned]
  omega

/-- The word of memory that a line is written over with. -/
theorem writeMemory_wordOf (mem : Mem) (phyAddr : BitVec 32) (line : Line) :
    writeMemory mem phyAddr line (wordOf phyAddr) = line (extractWordIndex phyAddr) := by
  rw [← memLine_lineOf (writeMemory mem phyAddr line), memLine_writeMemory, if_pos rfl]

/-! ### The byte write -/

section ByteWrite

variable (s : CacheState) (paddr : PhyAddr) (byte : Byte)

/-- The line a byte write leaves in L1 and in memory. -/
def CacheState.byteWrittenLine : Line :=
  update (s.served .data (phyToInt (wordAligned paddr)))
    (extractWordIndex (phyToInt (wordAligned paddr))) (s.byteWritten paddr byte)

/-- **The byte write in one step**: the line that the write stores is the one the read served,
with the byte set, and L1 holds it as the youngest of its set. -/
theorem byteWrite_spec :
    (stepCommand s (.writeByte paddr byte)).memSpace =
        writeMemory s.memSpace (phyToInt (wordAligned paddr)) (s.byteWrittenLine paddr byte) ∧
      ∃ w, lookup ((stepCommand s (.writeByte paddr byte)).l1 .data)
          (phyToInt (wordAligned paddr)) = some w ∧
        ((stepCommand s (.writeByte paddr byte)).l1 .data
          (extractLineIndex .l1Icache (phyToInt (wordAligned paddr))) w).line =
            s.byteWrittenLine paddr byte ∧
        ((stepCommand s (.writeByte paddr byte)).l1 .data
          (extractLineIndex .l1Icache (phyToInt (wordAligned paddr))) w).age = 0 := by
  have hwritten : (readStep s .data (phyToInt (wordAligned paddr))).written
      (phyToInt (wordAligned paddr)) (s.byteWritten paddr byte) = s.byteWrittenLine paddr byte := by
    rw [CacheState.written, served_after_readStep, CacheState.byteWrittenLine]
  rw [stepCommand, executeCommand_writeByte]
  refine ⟨?_, ?_⟩
  · change writeMemory (readStep s .data _).memSpace _ _ = _
    rw [hwritten]
    rfl
  · change ∃ w, lookup (access _ _ _ _).1 _ = some w ∧ ((access _ _ _ _).1 _ w).line = _ ∧
      ((access _ _ _ _).1 _ w).age = 0
    rw [hwritten]
    exact lookup_access _ _ _ _

/-- A byte read in the word that was written finds its byte in that line, and changes nothing. -/
theorem readByte_after_byteWrite {other : PhyAddr}
    (hword : (phyToInt other).toNat / 4 = (phyToInt paddr).toNat / 4) :
    executeCommand (stepCommand s (.writeByte paddr byte)) (.readByte .data other) =
      (stepCommand s (.writeByte paddr byte),
        ⟨.errNone, none,
          some (byteAt (s.byteWritten paddr byte) (other.pageOffset.toNat % 4))⟩) := by
  obtain ⟨-, w, hw, hline, hage⟩ := byteWrite_spec s paddr byte
  rw [executeCommand_readByte, phyToInt_wordAligned_congr hword, readStep_of_youngest hw hage,
    served_of_lookup hw, hline, CacheState.byteWrittenLine, update_self]

/-- A byte write from any state. -/
theorem byteWrite_exact :
    (executeCommand s (.writeByte paddr byte)).2.err = .errNone ∧
      executeCommand (stepCommand s (.writeByte paddr byte)) (.readByte .data paddr) =
        (stepCommand s (.writeByte paddr byte), ⟨.errNone, none, some byte⟩) ∧
      (∀ other : PhyAddr, other ≠ paddr →
        (phyToInt other).toNat / 4 = (phyToInt paddr).toNat / 4 →
        executeCommand (stepCommand s (.writeByte paddr byte)) (.readByte .data other) =
          (stepCommand s (.writeByte paddr byte),
            (executeCommand s (.readByte .data other)).2)) ∧
      ∃ hit, (cacheHit (stepCommand s (.writeByte paddr byte)).l1Dcache
          (wordAligned paddr)).2 = some hit ∧
        hit.pLine (extractWordIndex (phyToInt (wordAligned paddr))) =
          (stepCommand s (.writeByte paddr byte)).memSpace ((phyToInt paddr).toNat / 4) := by
  have hbyte : 8 * (paddr.pageOffset.toNat % 4) + 8 ≤ 32 := by omega
  refine ⟨by rw [executeCommand_writeByte], ?_, fun other hne hword => ?_, ?_⟩
  · rw [readByte_after_byteWrite s paddr byte rfl, CacheState.byteWritten,
      byteAt_withByte_self _ _ hbyte]
  · have hindex : paddr.pageOffset.toNat % 4 ≠ other.pageOffset.toNat % 4 := by
      intro heq
      rw [pageOffset_mod_four, pageOffset_mod_four] at heq
      exact hne (phyToInt_inj (BitVec.eq_of_toNat_eq (by omega)))
    rw [readByte_after_byteWrite s paddr byte hword, CacheState.byteWritten,
      byteAt_withByte_of_ne _ _ hindex, executeCommand_readByte,
      phyToInt_wordAligned_congr hword]
  · obtain ⟨hmem, w, hw, hline, -⟩ := byteWrite_spec s paddr byte
    refine ⟨_, congrArg Prod.snd (cacheHit_eq_some hw), ?_⟩
    change ((stepCommand s (.writeByte paddr byte)).l1 .data _ w).line _ = _
    rw [hline, hmem, ← wordOf_wordAligned, writeMemory_wordOf]

end ByteWrite

/-- **Byte writes are exact and immediately visible**, in every state that a run of the
operations reaches: the write succeeds; reading the byte gives it back; reading another byte of
the word gives what it gave before the write; none of these reads changes the state; and memory
and L1 hold the same word. -/
theorem byteWrite_visible (memSpace : Mem) (ops : List CacheOp) (paddr : PhyAddr) (byte : Byte) :
    let s := runCommands (flushed memSpace) ops
    let s' := (executeCommand s (.writeByte paddr byte)).1
    (executeCommand s (.writeByte paddr byte)).2.err = .errNone ∧
      executeCommand s' (.readByte .data paddr) = (s', ⟨.errNone, none, some byte⟩) ∧
      (∀ other : PhyAddr, other ≠ paddr →
        (phyToInt other).toNat / 4 = (phyToInt paddr).toNat / 4 →
        executeCommand s' (.readByte .data other) =
          (s', (executeCommand s (.readByte .data other)).2)) ∧
      ∃ hit, (cacheHit s'.l1Dcache (wordAligned paddr)).2 = some hit ∧
        hit.pLine (extractWordIndex (phyToInt (wordAligned paddr))) =
          s'.memSpace ((phyToInt paddr).toNat / 4) :=
  byteWrite_exact _ paddr byte

end MemoryHierarchy
