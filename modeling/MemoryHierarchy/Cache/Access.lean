import MemoryHierarchy.Cache.Loops

/-!
# Every operation is one access

`cache_read` and `cache_write` are separate implementations, but on the caches they do the same
thing up to the contents of the line they touch. `access` is that common effect, as a function
of the line finally stored: touch the line in L1, or bring it into L1 (freeing its L2 way if it
was found there) and let the L1 victim, if any, fall into L2. `servedLine` is the copy an
operation works on.

The two equations `cacheRead_eq` and `cacheWrite_eq` are what everything later uses; they also
show that no error branch behind the alignment check can be taken, whatever the contents of the
caches.
-/

namespace MemoryHierarchy

open Lib Function

variable {g : Geometry}

/-! ### Insertion into one set -/

/-- A set after an insertion: into the first free way with cold-start ageing, else in place of
the victim, whose age the new entry takes over. -/
def insertSet (set : CacheSet g) (entry : CacheEntry g) : CacheSet g :=
  match emptyWay set with
  | some w => lruAgeIncrease (update set w entry) w
  | none =>
    match victimWay set with
    | some w => lruAgeUpdate (update set w { entry with age := (set w).age }) w
    | none => set

/-- Insertion into the set an address selects. -/
def insertAt (cache : Cache g) (phyAddr : BitVec 32) (entry : CacheEntry g) : Cache g :=
  update cache (extractLineIndex g phyAddr)
    (insertSet (cache (extractLineIndex g phyAddr)) entry)

/-- What an insertion into set `i` of an L1 cache does to L2: nothing while the set has a free
way, else the victim is inserted at its recomputed address. -/
def spill (l1 : Cache g) (l2 : Cache .l2Cache) (i : Fin g.lines) : Cache .l2Cache :=
  match emptyWay (l1 i) with
  | some _ => l2
  | none =>
    match victimWay (l1 i) with
    | some w =>
      let oldPhyAddr := recomputeOldPhyAddr (l1 i w).tag i
      insertAt l2 oldPhyAddr (cacheInitEntryWithParam .l2Cache oldPhyAddr (l1 i w).line)
    | none => l2

private theorem cacheInsert_fin (cache : Cache g) (i : Fin g.lines) (w : Fin g.ways)
    (entry : CacheEntry g) :
    cacheInsert i w entry cache = (.errNone, update cache i (update (cache i) w entry)) := by
  rw [cacheInsert, dif_pos ⟨w.isLt, i.isLt⟩]

private theorem insertAndModifyAges_some (cache : Cache g) (i : Fin g.lines) (w : Fin g.ways)
    (entry : CacheEntry g) (isColdStart : Bool) :
    insertAndModifyAges cache i (some w) entry isColdStart =
      (.errNone, update cache i
        (if !isColdStart then lruAgeUpdate (update (cache i) w entry) w
        else lruAgeIncrease (update (cache i) w entry) w)) := by
  simp only [insertAndModifyAges, cacheInsert_fin, modifyAges, update_self, update_idem]
  rfl

/-- A full set always has a victim. -/
theorem exists_victimWay_of_full {set : CacheSet g} (h : emptyWay set = none) :
    ∃ w, victimWay set = some w :=
  exists_victimWay (u := ⟨0, g.ways_pos⟩) (emptyWay_eq_none_iff.mp h _)

private theorem findEmptySlot_eq (cache : Cache g) (i : Fin g.lines) :
    findEmptySlot cache i = emptyWay (cache i) := rfl

/-- The second search for a free way finds the way just evicted. -/
private theorem emptyWay_clear {set : CacheSet g} (h : emptyWay set = none) (w : Fin g.ways) :
    emptyWay (update set w { set w with v := false }) = some w := by
  rw [emptyWay_eq_some_iff]
  refine ⟨by simp, fun u hu => ?_⟩
  rw [update_of_ne hu.ne]
  exact emptyWay_eq_none_iff.mp h u

/-- Inserting over an evicted entry leaves no trace of the cleared valid bit. -/
private theorem insertAndModifyAges_evicted (cache : Cache g) (i : Fin g.lines)
    (h : emptyWay (cache i) = none) (w : Fin g.ways) (entry : CacheEntry g) :
    insertAndModifyAges (clearValid cache i w) i (emptyWay (clearValid cache i w i)) entry
        false =
      (.errNone, update cache i (lruAgeUpdate (update (cache i) w entry) w)) := by
  have hslot : emptyWay (clearValid cache i w i) = some w := by
    rw [clearValid, update_self]
    exact emptyWay_clear h w
  rw [hslot, insertAndModifyAges_some, clearValid]
  simp only [update_self, update_idem]
  rfl

/-- `evict` clears the way the loop finds. -/
theorem evict_eq (cache : Cache g) (i : Fin g.lines) {w : Fin g.ways}
    (h : victimWay (cache i) = some w) : evict cache i = (clearValid cache i w, some w) := by
  rw [victimWay] at h
  rw [evict, h]

private theorem clearValid_apply (cache : Cache g) (i : Fin g.lines) (w : Fin g.ways) :
    clearValid cache i w i w = { cache i w with v := false } := by
  simp [clearValid]

theorem insertLevel2_eq (l2 : Cache .l2Cache) (entry : CacheEntry .l2Cache)
    (phyAddr : BitVec 32) :
    insertLevel2 l2 entry phyAddr = (.errNone, insertAt l2 phyAddr entry) := by
  rw [insertLevel2, insertAt, insertSet]
  simp only [findEmptySlot_eq]
  cases hempty : emptyWay (l2 (extractLineIndex .l2Cache phyAddr)) with
  | some w => exact insertAndModifyAges_some _ _ _ _ _
  | none =>
    -- a full set has a victim, so the `ERR_MEM` branch is dead
    obtain ⟨w, hw⟩ := exists_victimWay_of_full hempty
    simp only [evict_eq _ _ hw, hw, clearValid_apply]
    exact insertAndModifyAges_evicted _ _ hempty _ _

theorem insertLevel1_eq (l1 : Cache g) (l2 : Cache .l2Cache) (entry : CacheEntry g)
    (phyAddr : BitVec 32) :
    insertLevel1 l1 l2 entry phyAddr =
      (.errNone, insertAt l1 phyAddr entry, spill l1 l2 (extractLineIndex g phyAddr)) := by
  rw [insertLevel1, insertAt, insertSet, spill]
  simp only [findEmptySlot_eq]
  cases hempty : emptyWay (l1 (extractLineIndex g phyAddr)) with
  | some w => simp only [insertAndModifyAges_some]; rfl
  | none =>
    -- as in L2, and the insertion of the victim there succeeds
    obtain ⟨w, hw⟩ := exists_victimWay_of_full hempty
    simp only [evict_eq _ _ hw, hw, clearValid_apply, insertLevel2_eq, ne_eq, not_true_eq_false,
      if_false, insertAndModifyAges_evicted _ _ hempty]

@[simp]
theorem lruAgeUpdate_self_line (set : CacheSet g) (w u : Fin g.ways) :
    (lruAgeUpdate set w u).line = (set u).line := by
  simp only [lruAgeUpdate]
  split_ifs <;> rfl

@[simp]
theorem lruAgeUpdate_tag (set : CacheSet g) (w u : Fin g.ways) :
    (lruAgeUpdate set w u).tag = (set u).tag := by
  simp only [lruAgeUpdate]
  split_ifs <;> rfl

@[simp]
theorem lruAgeUpdate_v (set : CacheSet g) (w u : Fin g.ways) :
    (lruAgeUpdate set w u).v = (set u).v := by
  simp only [lruAgeUpdate]
  split_ifs <;> rfl

@[simp]
theorem lruAgeUpdate_self_age (set : CacheSet g) (w : Fin g.ways) :
    (lruAgeUpdate set w w).age = 0 := by
  simp [lruAgeUpdate]

/-! ### The access -/

/-- A set with way `w` touched, its line replaced by `line`. -/
def touchSet (set : CacheSet g) (w : Fin g.ways) (line : Line) : CacheSet g :=
  update (lruAgeUpdate set w) w { lruAgeUpdate set w w with line := line }

/-- A set with way `w` touched, then invalidated. -/
def dropSet (set : CacheSet g) (w : Fin g.ways) (line : Line) : CacheSet g :=
  update (lruAgeUpdate set w) w { lruAgeUpdate set w w with v := false, line := line }

@[simp]
theorem touchSet_v (set : CacheSet g) (w u : Fin g.ways) (line : Line) :
    (touchSet set w line u).v = (set u).v := by
  rcases eq_or_ne u w with rfl | hu
  · simp [touchSet]
  · simp [touchSet, update_of_ne hu]

@[simp]
theorem touchSet_tag (set : CacheSet g) (w u : Fin g.ways) (line : Line) :
    (touchSet set w line u).tag = (set u).tag := by
  rcases eq_or_ne u w with rfl | hu
  · simp [touchSet]
  · simp [touchSet, update_of_ne hu]

@[simp]
theorem dropSet_self_v (set : CacheSet g) (w : Fin g.ways) (line : Line) :
    (dropSet set w line w).v = false := by
  simp [dropSet]

theorem dropSet_v_of_ne (set : CacheSet g) {w u : Fin g.ways} (hu : u ≠ w) (line : Line) :
    (dropSet set w line u).v = (set u).v := by
  simp [dropSet, update_of_ne hu]

/-- The set of an address, replaced. -/
def setAt (cache : Cache g) (phyAddr : BitVec 32) (set : CacheSet g) : Cache g :=
  update cache (extractLineIndex g phyAddr) set

/-- The effect on the caches of an operation at `phyAddr` that stores `line`. -/
def access (l1 : Cache g) (l2 : Cache .l2Cache) (phyAddr : BitVec 32) (line : Line) :
    Cache g × Cache .l2Cache :=
  let i := extractLineIndex g phyAddr
  let entry := cacheInitEntryWithParam g phyAddr line
  match lookup l1 phyAddr with
  | some w => (setAt l1 phyAddr (touchSet (l1 i) w line), l2)
  | none =>
    match lookup l2 phyAddr with
    | some u =>
      (insertAt l1 phyAddr entry, spill l1
        (setAt l2 phyAddr (dropSet (l2 (extractLineIndex .l2Cache phyAddr)) u line)) i)
    | none => (insertAt l1 phyAddr entry, spill l1 l2 i)

/-- The set an access leaves at the index of its address. -/
def accessedSet (l1 : Cache g) (phyAddr : BitVec 32) (line : Line) : CacheSet g :=
  match lookup l1 phyAddr with
  | some w => touchSet (l1 (extractLineIndex g phyAddr)) w line
  | none =>
    insertSet (l1 (extractLineIndex g phyAddr)) (cacheInitEntryWithParam g phyAddr line)

theorem access_fst (l1 : Cache g) (l2 : Cache .l2Cache) (phyAddr : BitVec 32) (line : Line) :
    (access l1 l2 phyAddr line).1 = setAt l1 phyAddr (accessedSet l1 phyAddr line) := by
  rw [access, accessedSet]
  cases lookup l1 phyAddr with
  | some w => rfl
  | none =>
    cases lookup l2 phyAddr with
    | some u => rfl
    | none => rfl

/-- The copy an operation at `phyAddr` works on: the one found in L1, else the one found in
L2, else the one in memory. -/
def servedLine (memSpace : Mem) (l1 : Cache g) (l2 : Cache .l2Cache) (phyAddr : BitVec 32) :
    Line :=
  match lookup l1 phyAddr with
  | some w => (l1 (extractLineIndex g phyAddr) w).line
  | none =>
    match lookup l2 phyAddr with
    | some u => (l2 (extractLineIndex .l2Cache phyAddr) u).line
    | none => readMemory memSpace phyAddr

/-- What `cache_hit` does when the lookup misses. -/
theorem cacheHit_eq_none {cache : Cache g} {paddr : PhyAddr}
    (h : lookup cache (phyToInt paddr) = none) : cacheHit cache paddr = (cache, none) := by
  rw [lookup] at h
  rw [cacheHit, h]

/-- What `cache_hit` does when the lookup finds a way. -/
theorem cacheHit_eq_some {cache : Cache g} {paddr : PhyAddr} {w : Fin g.ways}
    (h : lookup cache (phyToInt paddr) = some w) :
    cacheHit cache paddr =
      (setAt cache (phyToInt paddr)
          (lruAgeUpdate (cache (extractLineIndex g (phyToInt paddr))) w),
        some
          { pLine := (cache (extractLineIndex g (phyToInt paddr)) w).line
            hitWay := w
            hitIndex := extractLineIndex g (phyToInt paddr) }) := by
  rw [lookup] at h
  rw [cacheHit, h]
  rfl

/-- Ageing on a way of age `0` changes nothing. -/
theorem lruAgeUpdate_of_age_eq_zero {set : CacheSet g} {w : Fin g.ways}
    (h : (set w).age = 0) : lruAgeUpdate set w = set := by
  funext u
  simp only [lruAgeUpdate, h]
  by_cases hu : u = w
  · subst hu
    rw [if_pos rfl, ← h]
  · rw [if_neg hu, if_neg (Nat.not_lt_zero _)]

/-! ### Reading -/

/-- The word and the caches a read leaves, at an aligned address. -/
theorem cacheRead_eq {memSpace : Mem} {paddr : PhyAddr} {l1 : Cache g} {l2 : Cache .l2Cache}
    (h : paddr.pageOffset.toNat % 4 = 0) :
    cacheRead memSpace paddr l1 l2 =
      (.errNone,
        some (servedLine memSpace l1 l2 (phyToInt paddr) (extractWordIndex (phyToInt paddr))),
        access l1 l2 (phyToInt paddr) (servedLine memSpace l1 l2 (phyToInt paddr))) := by
  rw [cacheRead, if_neg (by omega)]
  cases h1 : lookup l1 (phyToInt paddr) with
  | some w =>
    -- the line stored is the one found, so it is only touched
    simp only [cacheHit_eq_some h1, access, servedLine, h1, touchSet]
    rw [← lruAgeUpdate_self_line (l1 (extractLineIndex g (phyToInt paddr))) w w, update_eq_self]
  | none =>
    cases h2 : lookup l2 (phyToInt paddr) with
    | some u =>
      -- the way is touched by the lookup, then cleared by the promotion
      simp only [cacheHit_eq_none h1, cacheHit_eq_some h2, access, servedLine, h1, h2,
        moveEntryToLevel1, insertLevel1_eq, clearValid, setAt, update_self, update_idem,
        lruAgeUpdate_self_line, dropSet]
    | none =>
      simp only [cacheHit_eq_none h1, cacheHit_eq_none h2, access, servedLine, h1, h2,
        searchInMemoryAndAffect, insertLevel1_eq, ne_eq, not_true_eq_false, if_false]
      rfl

/-- A read at an unaligned address is refused and changes nothing. -/
theorem cacheRead_unaligned {memSpace : Mem} {paddr : PhyAddr} {l1 : Cache g}
    {l2 : Cache .l2Cache} (h : paddr.pageOffset.toNat % 4 ≠ 0) :
    cacheRead memSpace paddr l1 l2 = (.errBadParameter, none, l1, l2) := by
  rw [cacheRead, if_pos h]

theorem wordAligned_aligned (paddr : PhyAddr) :
    (wordAligned paddr).pageOffset.toNat % 4 = 0 := by
  have hlt := paddr.pageOffset.isLt
  simp only [wordAligned, BitVec.toNat_sub, BitVec.toNat_ofNat]
  omega

theorem cacheReadByte_eq (memSpace : Mem) (paddr : PhyAddr) (l1 : Cache g)
    (l2 : Cache .l2Cache) :
    cacheReadByte memSpace paddr l1 l2 =
      (.errNone,
        some (byteAt (servedLine memSpace l1 l2 (phyToInt (wordAligned paddr))
          (extractWordIndex (phyToInt (wordAligned paddr)))) (paddr.pageOffset.toNat % 4)),
        access l1 l2 (phyToInt (wordAligned paddr))
          (servedLine memSpace l1 l2 (phyToInt (wordAligned paddr)))) := by
  simp only [cacheReadByte, cacheRead_eq (wordAligned_aligned paddr), ne_eq, not_true_eq_false,
    if_false, Option.getD_some]

/-! ### Writing -/

/-- The line a write of `word` at `phyAddr` stores: the served copy with one word replaced. -/
def writtenLine (memSpace : Mem) (l1 : Cache g) (l2 : Cache .l2Cache) (phyAddr : BitVec 32)
    (word : Word) : Line :=
  update (servedLine memSpace l1 l2 phyAddr) (extractWordIndex phyAddr) word

/-- Reading back the line just written. -/
private theorem readMemory_writeMemory (memSpace : Mem) (phyAddr : BitVec 32) (line : Line) :
    readMemory (writeMemory memSpace phyAddr line) phyAddr = line := by
  funext k
  have hk := k.isLt
  simp only [readMemory, writeMemory]
  rw [dif_pos (by omega)]
  congr 1
  exact Fin.ext (by simp)

private theorem readModifyLine_eq {memSpace : Mem} {cache : Cache g} {phyAddr : BitVec 32}
    {w : Fin g.ways} {word : Word} :
    readModifyLineInsertUpdateAgesWriteBackInMemory memSpace phyAddr
        (setAt cache phyAddr (lruAgeUpdate (cache (extractLineIndex g phyAddr)) w))
        (extractLineIndex g phyAddr) w word =
      (.errNone,
        writeMemory memSpace phyAddr
          (update (cache (extractLineIndex g phyAddr) w).line (extractWordIndex phyAddr) word),
        setAt cache phyAddr (touchSet (cache (extractLineIndex g phyAddr)) w
          (update (cache (extractLineIndex g phyAddr) w).line (extractWordIndex phyAddr)
            word))) := by
  simp only [readModifyLineInsertUpdateAgesWriteBackInMemory, setWordAndWriteBack, setAt,
    cacheInsert_fin, ne_eq, not_true_eq_false, if_false, modifyAges, update_self, update_idem,
    lruAgeUpdate_self_line]
  -- the second ageing finds the entry at age `0`
  have hage : lruAgeUpdate (touchSet (cache (extractLineIndex g phyAddr)) w
      (update (cache (extractLineIndex g phyAddr) w).line (extractWordIndex phyAddr) word)) w = _ :=
    lruAgeUpdate_of_age_eq_zero (by simp [touchSet])
  rw [touchSet] at hage
  simp only [Bool.not_false, if_true, hage, touchSet]

/-- The memory and the caches a write leaves, at an aligned address. -/
theorem cacheWrite_eq {memSpace : Mem} {paddr : PhyAddr} {l1 : Cache g} {l2 : Cache .l2Cache}
    {word : Word} (h : paddr.pageOffset.toNat % 4 = 0) :
    cacheWrite memSpace paddr l1 l2 word =
      (.errNone,
        writeMemory memSpace (phyToInt paddr)
          (writtenLine memSpace l1 l2 (phyToInt paddr) word),
        access l1 l2 (phyToInt paddr) (writtenLine memSpace l1 l2 (phyToInt paddr) word)) := by
  rw [cacheWrite, if_neg (by omega)]
  cases h1 : lookup l1 (phyToInt paddr) with
  | some w =>
    simp only [cacheHit_eq_some h1, readModifyLine_eq, access, writtenLine, servedLine, h1]
  | none =>
    cases h2 : lookup l2 (phyToInt paddr) with
    | some u =>
      -- the word is written into the L2 entry first, which is then promoted
      simp only [cacheHit_eq_none h1, cacheHit_eq_some h2, readModifyLine_eq, access,
        writtenLine, servedLine, h1, h2, ne_eq, not_true_eq_false, if_false, moveEntryToLevel1,
        insertLevel1_eq]
      simp only [clearValid, setAt, update_self, update_idem, touchSet, dropSet]
    | none =>
      -- the entry is filled from the memory just written
      have hinit : ∀ line : Line, cacheEntryInit g (writeMemory memSpace (phyToInt paddr) line)
          paddr = cacheInitEntryWithParam g (phyToInt paddr) line := fun line =>
        congrArg (cacheInitEntryWithParam g (phyToInt paddr))
          (readMemory_writeMemory memSpace (phyToInt paddr) line)
      simp only [cacheHit_eq_none h1, cacheHit_eq_none h2, access, writtenLine, servedLine, h1,
        h2, setWordAndWriteBack, hinit, insertLevel1_eq]

/-- A write at an unaligned address is refused and changes nothing. -/
theorem cacheWrite_unaligned {memSpace : Mem} {paddr : PhyAddr} {l1 : Cache g}
    {l2 : Cache .l2Cache} {word : Word} (h : paddr.pageOffset.toNat % 4 ≠ 0) :
    cacheWrite memSpace paddr l1 l2 word = (.errBadParameter, memSpace, l1, l2) := by
  rw [cacheWrite, if_pos h]

/-! ### No insertion fails midway -/

/-- The way freed by an eviction is the only free one, so the next search finds it. -/
theorem evict_of_full {cache : Cache g} {i : Fin g.lines} (h : findEmptySlot cache i = none) :
    ∃ w, (evict cache i).2 = some w ∧ findEmptySlot (evict cache i).1 i = some w := by
  obtain ⟨w, hw⟩ := exists_victimWay_of_full h
  rw [evict_eq cache i hw]
  refine ⟨w, rfl, ?_⟩
  simp only [findEmptySlot_eq, clearValid, update_self]
  exact emptyWay_clear h w

/-- A fill from memory succeeds and sets the word. -/
theorem searchInMemoryAndAffect_eq (memSpace : Mem) (paddr : PhyAddr) (phyAddr : BitVec 32)
    (l1 : Cache g) (l2 : Cache .l2Cache) :
    searchInMemoryAndAffect paddr phyAddr memSpace l1 l2 =
      (.errNone, some ((cacheEntryInit g memSpace paddr).line (extractWordIndex phyAddr)),
        insertAt l1 phyAddr (cacheEntryInit g memSpace paddr),
        spill l1 l2 (extractLineIndex g phyAddr)) := by
  simp only [searchInMemoryAndAffect, insertLevel1_eq, ne_eq, not_true_eq_false, if_false]

/-- **No insertion fails midway.** Whatever the contents of the caches: `evict`, called on a
full set, points at an entry and the second search finds the way it was in; a way of a cache is
in range for `cache_insert`; the insertions at both levels, the promotion and the fill return
`ERR_NONE`; and so do `cache_read`, which always sets the word, and `cache_write`. -/
theorem insertion_never_fails (paddr : PhyAddr) (haligned : paddr.pageOffset.toNat % 4 = 0) :
    (∀ (g : Geometry) (cache : Cache g) (i : Fin g.lines),
      (findEmptySlot cache i = none →
        ∃ w, (evict cache i).2 = some w ∧ findEmptySlot (evict cache i).1 i = some w) ∧
      ∀ (w : Fin g.ways) entry, (cacheInsert i w entry cache).1 = .errNone) ∧
    (∀ l2 entry phyAddr, (insertLevel2 l2 entry phyAddr).1 = .errNone) ∧
    ∀ (g : Geometry) (l1 : Cache g) (l2 : Cache .l2Cache) (memSpace : Mem),
      (∀ entry phyAddr, (insertLevel1 l1 l2 entry phyAddr).1 = .errNone) ∧
      (∀ hitIndex hitWay phyAddr,
        (moveEntryToLevel1 l1 l2 hitIndex hitWay phyAddr).1 = .errNone) ∧
      (searchInMemoryAndAffect paddr (phyToInt paddr) memSpace l1 l2).1 = .errNone ∧
      (cacheRead memSpace paddr l1 l2).1 = .errNone ∧
      (∃ word, (cacheRead memSpace paddr l1 l2).2.1 = some word) ∧
      ∀ word, (cacheWrite memSpace paddr l1 l2 word).1 = .errNone := by
  refine ⟨fun g cache i => ⟨evict_of_full, fun w entry => ?_⟩, fun l2 entry phyAddr => ?_,
    fun g l1 l2 memSpace => ⟨fun entry phyAddr => ?_, fun hitIndex hitWay phyAddr => ?_, ?_, ?_,
      ?_, fun word => ?_⟩⟩
  · rw [cacheInsert_fin]
  · rw [insertLevel2_eq]
  · rw [insertLevel1_eq]
  · rw [moveEntryToLevel1, insertLevel1_eq]
  · rw [searchInMemoryAndAffect_eq]
  · rw [cacheRead_eq haligned]
  · rw [cacheRead_eq haligned]
    exact ⟨_, rfl⟩
  · rw [cacheWrite_eq haligned]

/-- A cache without an empty way: each set holds the tags from `tag` on, the oldest one last. -/
def fullCache (g : Geometry) (tag : ℕ) : Cache g := fun _ way =>
  { v := true, age := way, tag := BitVec.ofNat _ (tag + way), line := fun _ => BitVec.ofNat 32 way }

theorem findEmptySlot_fullCache (g : Geometry) (tag : ℕ) (i : Fin g.lines) :
    findEmptySlot (fullCache g tag) i = none :=
  emptyWay_eq_none_iff.mpr fun _ => rfl

/-- A full L1 cache over a full L2 cache: the first read finds its line in neither, so that both
evict, and the second one promotes its line. -/
theorem insertion_never_fails_full :
    (∃ w, (evict (fullCache .l2Cache 0) 1).2 = some w ∧
      findEmptySlot (evict (fullCache .l2Cache 0) 1).1 1 = some w) ∧
    (∃ word, (cacheRead (fun _ => 0) ⟨256, 20⟩ (fullCache .l1Icache 4096)
      (fullCache .l2Cache 0)).2.1 = some word) ∧
    lookup (fullCache .l2Cache 0) (phyToInt ⟨1, 16⟩) = some 0 ∧
    ∃ word, (cacheRead (fun _ => 0) ⟨1, 16⟩ (fullCache .l1Icache 4096)
      (fullCache .l2Cache 0)).2.1 = some word := by
  obtain ⟨hevict, -, hmiss⟩ := insertion_never_fails ⟨256, 20⟩ (by decide)
  obtain ⟨-, -, hpromote⟩ := insertion_never_fails ⟨1, 16⟩ (by decide)
  have hfull := findEmptySlot_fullCache .l2Cache 0 1
  obtain ⟨-, -, -, -, hword, -⟩ := hmiss _ (fullCache .l1Icache 4096) (fullCache .l2Cache 0)
    fun _ => 0
  obtain ⟨-, -, -, -, hword', -⟩ := hpromote _ (fullCache .l1Icache 4096) (fullCache .l2Cache 0)
    fun _ => 0
  exact ⟨(hevict _ _ 1).1 hfull, hword, by decide, hword'⟩

end MemoryHierarchy
