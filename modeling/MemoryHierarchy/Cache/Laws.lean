import MemoryHierarchy.Cache.Visible
import MemoryHierarchy.Cache.ByteWrites
import MemoryHierarchy.Cache.L1

/-!
# Laws of the operations

What a sequence of operations on one line amounts to, from any state. The second of two accesses
finds the line where the first one left it, so that it only replaces the data
(`alike_access_access`): a read after an access changes nothing, a write absorbs the write before
it, a byte write is a word write, and four byte writes are one.

The laws hold up to `CacheState.Alike`: where the line is promoted from L2, the entry left behind
keeps the data of the first access, and it is invalid.
-/

namespace MemoryHierarchy

open Lib Function

variable {g : Geometry}

/-! ### Accessing a line twice -/

/-- The line inserted is at one way, whatever its data. -/
private theorem insertSet_line {set : CacheSet g} {w : Fin g.ways} (h : insertWay set = some w)
    (entry : CacheEntry g) (line : Line) :
    insertSet set { entry with line := line } =
      update (insertSet set entry) w { insertSet set entry w with line := line } := by
  funext u
  rw [insertSet, insertSet]
  rcases insertWay_eq_some_iff.mp h with hempty | ⟨hfull, hw⟩
  · by_cases hu : u = w
    · subst hu
      simp [hempty, lruAgeIncrease]
    · simp [hempty, lruAgeIncrease, update_of_ne hu]
  · by_cases hu : u = w
    · subst hu
      simp [hfull, hw, lruAgeUpdate]
    · simp [hfull, hw, lruAgeUpdate, update_of_ne hu]

/-- The way an access ends at, whatever the line it stores. -/
private theorem exists_accessedWay (l1 : Cache g) (phyAddr : BitVec 32) :
    ∃ w, ∀ line, lookup (setAt l1 phyAddr (accessedSet l1 phyAddr line)) phyAddr = some w ∧
      (accessedSet l1 phyAddr line w).age = 0 ∧
      ∀ line', accessedSet l1 phyAddr line' =
        update (accessedSet l1 phyAddr line) w
          { accessedSet l1 phyAddr line w with line := line' } := by
  cases h1 : lookup l1 phyAddr with
  | some w =>
    refine ⟨w, fun line => ?_⟩
    simp only [accessedSet, h1]
    refine ⟨?_, by simp [touchSet], fun line' => by simp [touchSet, update_idem]⟩
    rw [lookup_eq_some_iff] at h1 ⊢
    simpa only [Holds, setAt, update_self, touchSet_v, touchSet_tag] using h1
  | none =>
    obtain ⟨w, hw⟩ := exists_insertWay (l1 (extractLineIndex g phyAddr))
    refine ⟨w, fun line => ?_⟩
    simp only [accessedSet, h1]
    exact ⟨lookup_insertAt h1 hw line, insertSet_self_age hw, fun line' =>
      insertSet_line hw (cacheInitEntryWithParam g phyAddr line) line'⟩

/-- What an access leaves in L2 does not depend on the line it stores, invalid entries apart. -/
private theorem alike_access_snd (l1 : Cache g) (l2 : Cache .l2Cache) (phyAddr : BitVec 32)
    (line line' : Line) :
    Cache.Alike (access l1 l2 phyAddr line).2 (access l1 l2 phyAddr line').2 := by
  rw [access, access]
  cases lookup l1 phyAddr with
  | some w => exact .refl _
  | none =>
    cases hl2 : lookup l2 phyAddr with
    | some u =>
      have hu := (lookup_eq_some_iff.mp hl2).1.1
      exact alike_spill (.refl l1)
        ((Cache.Alike.refl l2).setAt ((CacheSet.Alike.refl _).dropSet hu line line')) _
    | none => exact .refl _

/-- **The second access only replaces the line**: what it leaves is what it would have left without
the first one. -/
theorem alike_access_access (l1 : Cache g) (l2 : Cache .l2Cache) (phyAddr : BitVec 32)
    (line line' : Line) :
    Cache.Alike (access l1 l2 phyAddr line').1
        (access (access l1 l2 phyAddr line).1 (access l1 l2 phyAddr line).2 phyAddr line').1 ∧
      Cache.Alike (access l1 l2 phyAddr line').2
        (access (access l1 l2 phyAddr line).1 (access l1 l2 phyAddr line).2 phyAddr line').2 := by
  obtain ⟨w, hw⟩ := exists_accessedWay l1 phyAddr
  obtain ⟨hlookup, hage, hline⟩ := hw line
  have hfst := access_fst l1 l2 phyAddr line
  constructor
  · have hsame : (access (access l1 l2 phyAddr line).1 (access l1 l2 phyAddr line).2 phyAddr
        line').1 = (access l1 l2 phyAddr line').1 := by
      have htouch : accessedSet (setAt l1 phyAddr (accessedSet l1 phyAddr line)) phyAddr line' =
          accessedSet l1 phyAddr line' := by
        rw [accessedSet, hlookup, hline line']
        simp only [setAt, update_self, touchSet, lruAgeUpdate_of_age_eq_zero hage]
      rw [access_fst, hfst, access_fst, htouch, setAt, setAt, setAt, update_idem]
    rw [hsame]
    exact .refl _
  · have hsame : (access (access l1 l2 phyAddr line).1 (access l1 l2 phyAddr line).2 phyAddr
        line').2 = (access l1 l2 phyAddr line).2 :=
      access_snd_of_hit _ (hfst ▸ hlookup) line'
    rw [hsame]
    exact alike_access_snd l1 l2 phyAddr line' line

/-! ### Accessing a line again through the operations -/

section Steps

variable (s : CacheState) (phyAddr : BitVec 32)

/-- Writing a line over, twice. -/
private theorem writeMemory_writeMemory (mem : Mem) (line line' : Line) :
    writeMemory (writeMemory mem phyAddr line) phyAddr line' = writeMemory mem phyAddr line' := by
  funext i
  simp only [writeMemory]
  split_ifs <;> rfl

/-- After an access the line it stored is the one served. -/
theorem served_after_writeStep (word : Word) :
    (writeStep s phyAddr word).served .data phyAddr = s.written phyAddr word := by
  obtain ⟨w, hw, hline, -⟩ := lookup_access s.l1Dcache s.l2Cache phyAddr (s.written phyAddr word)
  have hlookup : lookup ((writeStep s phyAddr word).l1 .data) phyAddr = some w := hw
  exact (served_of_lookup hlookup).trans hline

/-- A write over the line that a read has brought in. -/
theorem alike_writeStep_readStep (word : Word) :
    (writeStep s phyAddr word).Alike (writeStep (readStep s .data phyAddr) phyAddr word) := by
  have hwritten : (readStep s .data phyAddr).written phyAddr word = s.written phyAddr word := by
    rw [CacheState.written, CacheState.written, served_after_readStep]
  obtain ⟨h1, h2⟩ := alike_access_access s.l1Dcache s.l2Cache phyAddr (s.served .data phyAddr)
    (s.written phyAddr word)
  refine ⟨?_, fun access => ?_, ?_⟩
  · change writeMemory _ _ _ = writeMemory _ _ _
    rw [hwritten]
    rfl
  · cases access with
    | instruction => exact .refl _
    | data =>
      change Cache.Alike (MemoryHierarchy.access _ _ _ _).1 (MemoryHierarchy.access _ _ _ _).1
      rw [hwritten]
      exact h1
  · change Cache.Alike (access _ _ _ _).2 (access _ _ _ _).2
    rw [hwritten]
    exact h2

/-- A write over a word that has just been written. -/
theorem alike_writeStep_writeStep (word word' : Word) :
    (writeStep s phyAddr word').Alike (writeStep (writeStep s phyAddr word) phyAddr word') := by
  have hwritten : (writeStep s phyAddr word).written phyAddr word' = s.written phyAddr word' := by
    rw [CacheState.written, CacheState.written, served_after_writeStep, CacheState.written,
      update_idem]
  obtain ⟨h1, h2⟩ := alike_access_access s.l1Dcache s.l2Cache phyAddr (s.written phyAddr word)
    (s.written phyAddr word')
  refine ⟨?_, fun access => ?_, ?_⟩
  · change writeMemory (writeMemory _ _ _) _ _ = writeMemory _ _ _
    rw [hwritten, writeMemory_writeMemory]
  · cases access with
    | instruction => exact .refl _
    | data =>
      change Cache.Alike (MemoryHierarchy.access _ _ _ _).1 (MemoryHierarchy.access _ _ _ _).1
      rw [hwritten]
      exact h1
  · change Cache.Alike (access _ _ _ _).2 (access _ _ _ _).2
    rw [hwritten]
    exact h2

end Steps

/-! ### Byte writes -/

/-- **A byte write is a word write** of the word with the byte set. -/
theorem alike_writeByte (s : CacheState) (paddr : PhyAddr) (byte : Byte) :
    (stepCommand s (.write (wordAligned paddr) (s.byteWritten paddr byte))).Alike
      (stepCommand s (.writeByte paddr byte)) := by
  have ha : (CacheOp.write (wordAligned paddr) (s.byteWritten paddr byte)).Aligned :=
    wordAligned_aligned paddr
  rw [stepCommand, stepCommand, executeCommand_write ha, executeCommand_writeByte]
  exact alike_writeStep_readStep s _ _

/-- A write over a word that has just been written, as an operation. -/
theorem alike_write_write (s : CacheState) (paddr : PhyAddr) (word word' : Word) :
    (stepCommand s (.write paddr word')).Alike
      (stepCommand (stepCommand s (.write paddr word)) (.write paddr word')) := by
  by_cases ha : paddr.pageOffset.toNat % 4 = 0
  · have hword : (CacheOp.write paddr word).Aligned := ha
    have hword' : (CacheOp.write paddr word').Aligned := ha
    rw [stepCommand, stepCommand, stepCommand, executeCommand_write hword,
      executeCommand_write hword', executeCommand_write hword']
    exact alike_writeStep_writeStep s _ word word'
  · have hword : ¬ (CacheOp.write paddr word).Aligned := ha
    rw [stepCommand, stepCommand, stepCommand, executeCommand_unaligned hword]
    exact .refl _

/-- **An overwritten write can be dropped.** From any state, a write right before a write to the
same word makes no difference to what is valid afterwards, nor to any later reply. -/
theorem overwritten_write (s : CacheState) (paddr : PhyAddr) (word word' : Word)
    (ops : List CacheOp) :
    (runCommands s (.write paddr word' :: ops)).Alike
        (runCommands s (.write paddr word :: .write paddr word' :: ops)) ∧
      ∀ op, (executeCommand (runCommands s (.write paddr word :: .write paddr word' :: ops)) op).2 =
        (executeCommand (runCommands s (.write paddr word' :: ops)) op).2 := by
  have hrun := (alike_write_write s paddr word word').runCommands ops
  exact ⟨hrun, fun op => (hrun.executeCommand op).2⟩

/-- The address of a byte of an aligned word. -/
def byteOf (paddr : PhyAddr) (i : ℕ) : PhyAddr :=
  { paddr with pageOffset := paddr.pageOffset + BitVec.ofNat 12 i }

/-- The word of a byte, and its index. -/
private theorem wordAligned_byteOf {paddr : PhyAddr} (ha : paddr.pageOffset.toNat % 4 = 0) {i : ℕ}
    (hi : i < 4) : wordAligned (byteOf paddr i) = paddr ∧
      (byteOf paddr i).pageOffset.toNat % 4 = i := by
  have hoff := paddr.pageOffset.isLt
  have hbyte : (byteOf paddr i).pageOffset.toNat = paddr.pageOffset.toNat + i := by
    rw [byteOf, BitVec.toNat_add, BitVec.toNat_ofNat, Nat.mod_eq_of_lt (by omega),
      Nat.mod_eq_of_lt (by omega)]
  have hindex : (byteOf paddr i).pageOffset.toNat % 4 = i := by omega
  refine ⟨?_, hindex⟩
  have hword : (wordAligned (byteOf paddr i)).pageOffset = paddr.pageOffset := by
    rw [wordAligned, hindex]
    exact BitVec.add_sub_cancel _ _
  obtain ⟨page, offset⟩ := paddr
  exact congrArg (PhyAddr.mk page) hword

/-- The bytes of a word written one at a time, those with the indices given. -/
def byteWrites (paddr : PhyAddr) (word : Word) (indices : List ℕ) : List CacheOp :=
  indices.map fun i => .writeByte (byteOf paddr i) (byteAt word i)

/-- The word with the bytes of another one at some indices. -/
def withBytes (word word' : Word) (indices : List ℕ) : Word :=
  indices.foldl (fun w i => withByte w i (byteAt word' i)) word

/-- Byte writes in a row are a word write of the word with all the bytes set. -/
private theorem alike_runCommands_byteWrites (s : CacheState) {paddr : PhyAddr}
    (ha : paddr.pageOffset.toNat % 4 = 0) (word : Word) {indices : List ℕ} (hne : indices ≠ [])
    (hindices : ∀ i ∈ indices, i < 4) :
    (stepCommand s (.write paddr (withBytes (s.served .data (phyToInt paddr)
        (extractWordIndex (phyToInt paddr))) word indices))).Alike
      (runCommands s (byteWrites paddr word indices)) := by
  induction indices using List.reverseRecOn with
  | nil => exact absurd rfl hne
  | append_singleton indices i ih =>
    obtain ⟨hword, hindex⟩ := wordAligned_byteOf ha (hindices i (by simp))
    have hstep : ∀ t : CacheState,
        (stepCommand t (.write paddr (withByte (t.served .data (phyToInt paddr)
          (extractWordIndex (phyToInt paddr))) i (byteAt word i)))).Alike
        (stepCommand t (.writeByte (byteOf paddr i) (byteAt word i))) := by
      intro t
      have h := alike_writeByte t (byteOf paddr i) (byteAt word i)
      rwa [CacheState.byteWritten, hword, hindex] at h
    rw [byteWrites, List.map_append, List.map_singleton, runCommands_concat, withBytes,
      List.foldl_append, List.foldl_cons, List.foldl_nil]
    by_cases hnil : indices = []
    · subst hnil
      exact hstep s
    · -- the word written so far is overwritten by the word with one more byte set
      have hrun := ih hnil fun j hj => hindices j (List.mem_append_left _ hj)
      refine CacheState.Alike.trans ?_ (hrun.executeCommand _).1
      refine CacheState.Alike.trans (alike_write_write s paddr (withBytes (s.served .data
        (phyToInt paddr) (extractWordIndex (phyToInt paddr))) word indices) _) ?_
      have hserved : ∀ w : Word, (stepCommand s (.write paddr w)).served .data (phyToInt paddr)
          (extractWordIndex (phyToInt paddr)) = w := by
        intro w
        have haligned : (CacheOp.write paddr w).Aligned := ha
        rw [stepCommand, executeCommand_write haligned, served_after_writeStep, CacheState.written,
          update_self]
      have hlast := hstep (stepCommand s (.write paddr (withBytes (s.served .data (phyToInt paddr)
        (extractWordIndex (phyToInt paddr))) word indices)))
      rwa [hserved] at hlast

/-- All four bytes make up the word. -/
private theorem withBytes_eq (word word' : Word) {indices : List ℕ}
    (hindices : ∀ i, i ∈ indices ↔ i < 4) : withBytes word word' indices = word' := by
  have hbyte : ∀ (is : List ℕ), (∀ i ∈ is, i < 4) → ∀ i ∈ is,
      byteAt (withBytes word word' is) i = byteAt word' i := by
    intro is
    induction is using List.reverseRecOn with
    | nil => exact fun _ i hi => nomatch hi
    | append_singleton is j ih =>
      intro his i hi
      rw [withBytes, List.foldl_append, List.foldl_cons, List.foldl_nil]
      by_cases hij : i = j
      · subst hij
        exact byteAt_withByte_self _ _ (by have := his i hi; omega)
      · rw [byteAt_withByte_of_ne _ _ fun h => hij h.symm]
        refine ih (fun k hk => his k (List.mem_append_left _ hk)) i ?_
        simpa [hij] using hi
  exact eq_of_byteAt_eq (n := 32) rfl fun i hi =>
    hbyte indices (fun j hj => (hindices j).mp hj) i ((hindices i).mpr hi)

/-- **Four byte writes are a word write.** From any state, the bytes of an aligned word may be
written one at a time, in any order: what is valid afterwards, memory, and every later reply are as
if the word had been written at once. -/
theorem byteWrites_word (s : CacheState) (paddr : PhyAddr) (ha : paddr.pageOffset.toNat % 4 = 0)
    (word : Word) (indices : List ℕ) (hindices : ∀ i, i ∈ indices ↔ i < 4) (ops : List CacheOp) :
    (runCommands s (.write paddr word :: ops)).Alike
        (runCommands s (byteWrites paddr word indices ++ ops)) ∧
      ∀ op, (executeCommand (runCommands s (byteWrites paddr word indices ++ ops)) op).2 =
        (executeCommand (runCommands s (.write paddr word :: ops)) op).2 := by
  have hne : indices ≠ [] := List.ne_nil_of_mem ((hindices 0).mpr (by decide))
  have hbytes := alike_runCommands_byteWrites s ha word hne fun i hi => (hindices i).mp hi
  rw [withBytes_eq _ _ hindices] at hbytes
  have happ : runCommands s (byteWrites paddr word indices ++ ops) =
      runCommands (runCommands s (byteWrites paddr word indices)) ops := List.foldl_append
  have hrun : (runCommands s (.write paddr word :: ops)).Alike
      (runCommands s (byteWrites paddr word indices ++ ops)) := happ ▸ hbytes.runCommands ops
  exact ⟨hrun, fun op => (hrun.executeCommand op).2⟩

/-- The word at address 8, last byte first, into empty caches. -/
theorem byteWrites_word_reversed :
    (executeCommand (runCommands (flushed fun _ => 0)
        (byteWrites ⟨0, 8⟩ 0x01020304 [3, 2, 1, 0] ++ [])) (.read .data ⟨0, 8⟩)).2 =
      (executeCommand (runCommands (flushed fun _ => 0) [.write ⟨0, 8⟩ 0x01020304])
        (.read .data ⟨0, 8⟩)).2 :=
  (byteWrites_word (flushed fun _ => 0) ⟨0, 8⟩ (by decide) 0x01020304 [3, 2, 1, 0]
    (fun i => by simp; omega) []).2 _

end MemoryHierarchy
