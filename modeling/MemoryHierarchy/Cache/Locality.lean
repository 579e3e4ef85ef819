import MemoryHierarchy.Cache.Memory
import MemoryHierarchy.Lib.Local
import Mathlib.Data.Set.Restrict

/-!
# Accesses to different L1 sets commute

The number of L2 sets is a multiple of the number of L1 sets, so the L1 index of a line is fixed
by its L2 index, and the state falls into 64 parts: set `k` of both L1 caches, the L2 sets and
the lines of memory congruent to `k`. A victim of L1 has the index of the set it leaves, so
whatever an access touches, the L2 set of the victim and the line written back included, lies in
the part of its own address (`localTo_readStep`, `localTo_writeStep`). Steps local to different
parts commute.
-/

namespace MemoryHierarchy

open Lib Function

/-- The L1 set a line belongs to. -/
def lineClass (n : ℕ) : Fin Geometry.l1Icache.lines :=
  ⟨n % Geometry.l1Icache.lines, Nat.mod_lt _ Geometry.l1Icache.lines_pos⟩

/-- Part `k` of the state: the L1 sets with index `k`, the L2 sets their victims fall into, and
the lines of memory that they can hold. -/
@[ext]
structure CachePart (k : Fin Geometry.l1Icache.lines) where
  l1 : MemAccess → CacheSet .l1Icache
  l2 : {j : Fin Geometry.l2Cache.lines | lineClass j = k} → CacheSet .l2Cache
  memory : {n : ℕ | lineClass n = k} → Line

/-- One part of a state. -/
def CacheState.part (k : Fin Geometry.l1Icache.lines) (s : CacheState) : CachePart k where
  l1 access := s.l1 access k
  l2 := Set.domRestrict _ s.l2Cache
  memory := Set.domRestrict _ (memLine s.memSpace)

theorem CacheState.part_eq_iff {k : Fin Geometry.l1Icache.lines} {s s' : CacheState} :
    s.part k = s'.part k ↔
      (∀ access, s.l1 access k = s'.l1 access k) ∧
        (∀ j : Fin Geometry.l2Cache.lines, lineClass j = k → s.l2Cache j = s'.l2Cache j) ∧
        ∀ n, lineClass n = k → memLine s.memSpace n = memLine s'.memSpace n := by
  rw [CachePart.ext_iff]
  refine and_congr funext_iff (and_congr Set.domRestrict_eq_domRestrict_iff ?_)
  change Set.domRestrict _ (memLine s.memSpace) = Set.domRestrict _ (memLine s'.memSpace) ↔ _
  rw [Set.domRestrict_eq_domRestrict_iff]
  rfl

/-- The parts determine the state. -/
theorem CacheState.eq_of_parts {s s' : CacheState} (h : ∀ k, s.part k = s'.part k) : s = s' := by
  have hparts := fun k => CacheState.part_eq_iff.mp (h k)
  obtain ⟨mem, icache, dcache, l2⟩ := s
  obtain ⟨mem', icache', dcache', l2'⟩ := s'
  obtain rfl : icache = icache' := funext fun k => (hparts k).1 .instruction
  obtain rfl : dcache = dcache' := funext fun k => (hparts k).1 .data
  obtain rfl : l2 = l2' := funext fun j => (hparts (lineClass j)).2.1 j rfl
  obtain rfl : mem = mem' := by
    funext i
    have hline := congrFun ((hparts (lineClass (i / 4))).2.2 (i / 4) rfl)
      ⟨i % 4, Nat.mod_lt _ (by decide)⟩
    simpa only [memLine, Nat.div_add_mod] using hline
  rfl

/-! ### Addresses -/

theorem lineClass_lineOf (phyAddr : BitVec 32) :
    lineClass (lineOf phyAddr) = extractLineIndex .l1Icache phyAddr := rfl

/-- The L2 index of an address fixes its L1 index. -/
theorem lineClass_l2_index (phyAddr : BitVec 32) :
    lineClass (extractLineIndex .l2Cache phyAddr) = extractLineIndex .l1Icache phyAddr := by
  refine Fin.ext ?_
  change phyAddr.toNat / 16 % 512 % 64 = phyAddr.toNat / 16 % 64
  omega

/-- A victim of L1 keeps its L1 index. -/
theorem extractLineIndex_oldPhyAddr (l1 : Cache .l1Icache) (i : Fin Geometry.l1Icache.lines)
    (w : Fin Geometry.l1Icache.ways) :
    extractLineIndex .l1Icache (oldPhyAddr l1 i w) = i := by
  rw [← lineClass_lineOf, lineOf_recomputeOldPhyAddr]
  refine Fin.ext ?_
  change (_ * Geometry.l1Icache.lines + i.val) % Geometry.l1Icache.lines = i.val
  rw [Nat.mul_add_mod_self_right, Nat.mod_eq_of_lt i.isLt]

/-! ### What an access leaves alone -/

section Frame

variable {l1 : Cache .l1Icache} {l2 : Cache .l2Cache} {phyAddr : BitVec 32}

theorem access_fst_of_ne (l2 : Cache .l2Cache) (line : Line) {i : Fin Geometry.l1Icache.lines}
    (hi : i ≠ extractLineIndex .l1Icache phyAddr) :
    (access l1 l2 phyAddr line).1 i = l1 i := by
  rw [access_fst, setAt, update_of_ne hi]

/-- A set of L2 with another index is not replaced. -/
private theorem setAt_of_class_ne {set : CacheSet .l2Cache} {j : Fin Geometry.l2Cache.lines}
    (hj : lineClass j ≠ extractLineIndex .l1Icache phyAddr) : setAt l2 phyAddr set j = l2 j := by
  rw [setAt, update_of_ne]
  rintro rfl
  exact hj (lineClass_l2_index phyAddr)

private theorem spill_of_class_ne {i : Fin Geometry.l1Icache.lines}
    {j : Fin Geometry.l2Cache.lines} (hj : lineClass j ≠ i) : spill l1 l2 i j = l2 j := by
  cases hempty : emptyWay (l1 i) with
  | some w => rw [spill_of_free hempty]
  | none =>
    obtain ⟨w, hw⟩ := exists_victimWay_of_full hempty
    rw [spill_of_full hempty hw]
    exact setAt_of_class_ne (by rwa [extractLineIndex_oldPhyAddr])

/-- Only L2 sets congruent to the L1 index of the address change. -/
theorem access_snd_of_class_ne (line : Line) {j : Fin Geometry.l2Cache.lines}
    (hj : lineClass j ≠ extractLineIndex .l1Icache phyAddr) :
    (access l1 l2 phyAddr line).2 j = l2 j := by
  rw [access]
  cases lookup l1 phyAddr with
  | some w => rfl
  | none =>
    cases lookup l2 phyAddr with
    | some u => exact (spill_of_class_ne hj).trans (setAt_of_class_ne hj)
    | none => exact spill_of_class_ne hj

end Frame

/-! ### What an access depends on -/

section Determined

variable {l1 l1' : Cache .l1Icache} {l2 l2' : Cache .l2Cache} {phyAddr : BitVec 32}

/-- The lookup reads the set of the address. -/
private theorem lookup_congr {g : Geometry} {cache cache' : Cache g}
    (h : cache (extractLineIndex g phyAddr) = cache' (extractLineIndex g phyAddr)) :
    lookup cache phyAddr = lookup cache' phyAddr := by
  rw [lookup, lookup, h]

/-- Replacing one set in caches that agree on some sets. -/
private theorem setAt_congr {P : Fin Geometry.l2Cache.lines → Prop}
    (h : ∀ j, P j → l2 j = l2' j) {set set' : CacheSet .l2Cache}
    (hset : P (extractLineIndex .l2Cache phyAddr) → set = set') (j : Fin Geometry.l2Cache.lines)
    (hj : P j) : setAt l2 phyAddr set j = setAt l2' phyAddr set' j := by
  rw [setAt, setAt, update_apply, update_apply]
  split_ifs with hji
  · exact hset (hji ▸ hj)
  · exact h j hj

/-- The L1 set decides what falls into L2, and where. -/
private theorem spill_congr {P : Fin Geometry.l2Cache.lines → Prop}
    {i : Fin Geometry.l1Icache.lines} (h1 : l1 i = l1' i) (h2 : ∀ j, P j → l2 j = l2' j)
    (j : Fin Geometry.l2Cache.lines) (hj : P j) : spill l1 l2 i j = spill l1' l2' i j := by
  rw [spill, spill, h1]
  cases emptyWay (l1' i) with
  | some w => exact h2 j hj
  | none =>
    cases victimWay (l1' i) with
    | some w => exact setAt_congr h2 (fun hp => by rw [h2 _ hp]) j hj
    | none => exact h2 j hj

variable (h1 : l1 (extractLineIndex .l1Icache phyAddr) = l1' (extractLineIndex .l1Icache phyAddr))
  (h2 : ∀ j : Fin Geometry.l2Cache.lines, lineClass j = extractLineIndex .l1Icache phyAddr →
    l2 j = l2' j)

include h1 in
theorem access_fst_congr (line : Line) :
    (access l1 l2 phyAddr line).1 (extractLineIndex .l1Icache phyAddr) =
      (access l1' l2' phyAddr line).1 (extractLineIndex .l1Icache phyAddr) := by
  rw [access_fst, access_fst, setAt, setAt, update_self, update_self, accessedSet, accessedSet,
    lookup_congr h1, h1]

include h1 h2 in
theorem access_snd_congr (line : Line) {j : Fin Geometry.l2Cache.lines}
    (hj : lineClass j = extractLineIndex .l1Icache phyAddr) :
    (access l1 l2 phyAddr line).2 j = (access l1' l2' phyAddr line).2 j := by
  have hset := h2 _ (lineClass_l2_index phyAddr)
  rw [access, access, lookup_congr h1, lookup_congr hset]
  cases lookup l1' phyAddr with
  | some w => exact h2 j hj
  | none =>
    cases lookup l2' phyAddr with
    | some u => exact spill_congr h1 (setAt_congr h2 fun _ => by rw [hset]) j hj
    | none => exact spill_congr h1 h2 j hj

include h1 h2 in
theorem servedLine_congr {mem mem' : Mem}
    (hmem : memLine mem (lineOf phyAddr) = memLine mem' (lineOf phyAddr)) :
    servedLine mem l1 l2 phyAddr = servedLine mem' l1' l2' phyAddr := by
  have hset := h2 _ (lineClass_l2_index phyAddr)
  rw [servedLine, servedLine, lookup_congr h1, lookup_congr hset, h1, hset, readMemory_eq,
    readMemory_eq, hmem]

end Determined

/-! ### Steps are local -/

/-- **A read is local** to the part of its address. -/
theorem localTo_readStep (access : MemAccess) (phyAddr : BitVec 32) :
    LocalTo CacheState.part (extractLineIndex .l1Icache phyAddr) fun s =>
      (readStep s access phyAddr, s.served access phyAddr) where
  frame s k hk := by
    rw [CacheState.part_eq_iff]
    refine ⟨fun access' => ?_, fun j hj => ?_, fun n _ => ?_⟩
    · by_cases ha : access' = access
      · subst ha
        rw [readStep, setCaches_l1_self]
        exact access_fst_of_ne _ _ hk
      · rw [readStep, setCaches_l1_of_ne _ _ _ ha]
    · rw [readStep, setCaches_l2Cache]
      exact access_snd_of_class_ne _ (hj ▸ hk)
    · rw [readStep, setCaches_memSpace]
  determined s s' h := by
    obtain ⟨h1, h2, hmem⟩ := CacheState.part_eq_iff.mp h
    have hserved : s.served access phyAddr = s'.served access phyAddr :=
      servedLine_congr (h1 access) h2 (hmem _ (lineClass_lineOf phyAddr))
    refine ⟨CacheState.part_eq_iff.mpr ⟨fun access' => ?_, fun j hj => ?_, fun n hn => ?_⟩,
      hserved⟩
    · by_cases ha : access' = access
      · subst ha
        rw [readStep, readStep, setCaches_l1_self, setCaches_l1_self, hserved]
        exact access_fst_congr (h1 access') _
      · rw [readStep, readStep, setCaches_l1_of_ne _ _ _ ha, setCaches_l1_of_ne _ _ _ ha]
        exact h1 access'
    · rw [readStep, readStep, setCaches_l2Cache, setCaches_l2Cache, hserved]
      exact access_snd_congr (h1 access) h2 _ hj
    · rw [readStep, readStep, setCaches_memSpace, setCaches_memSpace]
      exact hmem n hn

/-- **A write is local** to the part of its address: the line that goes back to memory is the
one accessed. -/
theorem localTo_writeStep (phyAddr : BitVec 32) (word : Word) :
    LocalTo CacheState.part (extractLineIndex .l1Icache phyAddr) fun s =>
      (writeStep s phyAddr word, ()) where
  frame s k hk := by
    rw [CacheState.part_eq_iff]
    refine ⟨fun access' => ?_, fun j hj => access_snd_of_class_ne _ (hj ▸ hk), fun n hn => ?_⟩
    · cases access' with
      | instruction => rfl
      | data => exact access_fst_of_ne _ _ hk
    · change memLine (writeMemory _ _ _) n = _
      rw [memLine_writeMemory, if_neg]
      rintro rfl
      exact hk (hn.symm.trans (lineClass_lineOf phyAddr))
  determined s s' h := by
    obtain ⟨h1, h2, hmem⟩ := CacheState.part_eq_iff.mp h
    have hserved : s.served .data phyAddr = s'.served .data phyAddr :=
      servedLine_congr (h1 .data) h2 (hmem _ (lineClass_lineOf phyAddr))
    have hwritten : s.written phyAddr word = s'.written phyAddr word := by
      rw [CacheState.written, CacheState.written, hserved]
    refine ⟨CacheState.part_eq_iff.mpr ⟨fun access' => ?_, fun j hj => ?_, fun n hn => ?_⟩, rfl⟩
    · cases access' with
      | instruction => exact h1 .instruction
      | data =>
        change (access _ _ _ _).1 _ = (access _ _ _ _).1 _
        rw [hwritten]
        exact access_fst_congr (h1 .data) _
    · change (access _ _ _ _).2 _ = (access _ _ _ _).2 _
      rw [hwritten]
      exact access_snd_congr (h1 .data) h2 _ hj
    · change memLine (writeMemory _ _ _) n = memLine (writeMemory _ _ _) n
      rw [memLine_writeMemory, memLine_writeMemory, hwritten, hmem n hn]

/-! ### Commands -/

/-- Every command is local to the part of its address. -/
theorem localTo_executeCommand (op : CacheOp) :
    LocalTo CacheState.part (extractLineIndex .l1Icache (phyToInt op.target)) fun s =>
      executeCommand s op := by
  by_cases ha : op.Aligned
  · cases op with
    | read access paddr =>
      simp only [executeCommand_read ha]
      exact (localTo_readStep access (phyToInt paddr)).reply fun line =>
        Reply.mk .errNone (some (line (extractWordIndex (phyToInt paddr)))) none
    | readByte access paddr =>
      simp only [executeCommand_readByte]
      exact (localTo_readStep access (phyToInt (wordAligned paddr))).reply fun line =>
        Reply.mk .errNone none (some (byteAt
          (line (extractWordIndex (phyToInt (wordAligned paddr)))) (paddr.pageOffset.toNat % 4)))
    | write paddr word =>
      simp only [executeCommand_write ha]
      exact (localTo_writeStep (phyToInt paddr) word).reply fun _ =>
        Reply.mk .errNone none none
    | writeByte paddr byte =>
      simp only [executeCommand_writeByte]
      -- the word that is written is made of the line that the read hands over
      exact ((localTo_readStep .data (phyToInt (wordAligned paddr))).andThen fun line =>
        localTo_writeStep (phyToInt (wordAligned paddr))
          (withByte (line (extractWordIndex (phyToInt (wordAligned paddr))))
            (paddr.pageOffset.toNat % 4) byte)).reply fun _ =>
        Reply.mk .errNone none none
  · simp only [executeCommand_unaligned ha]
    exact localTo_refused _ _ _

/-- The part of a command, from its byte address. -/
theorem extractLineIndex_target (op : CacheOp) :
    (extractLineIndex .l1Icache (phyToInt op.target)).val = op.addr / 16 % 64 := by
  cases op with
  | read access paddr => rfl
  | write paddr word => rfl
  | readByte access paddr =>
    change (phyToInt (wordAligned paddr)).toNat / 16 % 64 = (phyToInt paddr).toNat / 16 % 64
    rw [toNat_wordAligned]
    omega
  | writeByte paddr byte =>
    change (phyToInt (wordAligned paddr)).toNat / 16 % 64 = (phyToInt paddr).toNat / 16 % 64
    rw [toNat_wordAligned]
    omega

/-- **Accesses to different L1 sets commute**: from caches and a memory with any contents, the
two orders leave the same state, and each operation gets the reply it gets alone. -/
theorem executeCommand_comm (s : CacheState) {op op' : CacheOp}
    (h : op.addr / 16 % 64 ≠ op'.addr / 16 % 64) :
    (executeCommand (executeCommand s op).1 op').1 =
        (executeCommand (executeCommand s op').1 op).1 ∧
      (executeCommand (executeCommand s op').1 op).2 = (executeCommand s op).2 ∧
      (executeCommand (executeCommand s op).1 op').2 = (executeCommand s op').2 := by
  refine (localTo_executeCommand op).comm (localTo_executeCommand op') (fun heq => h ?_)
    (fun _ _ => CacheState.eq_of_parts) s
  rw [← extractLineIndex_target, ← extractLineIndex_target, heq]

/-- A write of a byte and a fetch at its neighbouring line. -/
theorem executeCommand_comm_neighbours :
    (executeCommand (stepCommand (flushed fun _ => 0) (.writeByte ⟨0, 13⟩ 5))
        (.read .instruction ⟨0, 16⟩)).1 =
      (executeCommand (stepCommand (flushed fun _ => 0) (.read .instruction ⟨0, 16⟩))
        (.writeByte ⟨0, 13⟩ 5)).1 :=
  (executeCommand_comm (flushed fun _ => 0) (by decide)).1

end MemoryHierarchy
