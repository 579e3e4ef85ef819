import MemoryHierarchy.Cache.Replacement
import MemoryHierarchy.Cache.L1
import MemoryHierarchy.Lib.Unwinding

/-!
# Each L1 cache on its own

Which lines an L1 cache holds, where and how old, is decided by the lines accessed through it:
neither the other L1 cache nor L2, the memory or the words written have a part in it
(`l1_independent`). Data apart, an access is a function of the set it goes to
(`SameKeys.access`), and the second access of a byte write finds the line just used, which
changes nothing more.
-/

namespace MemoryHierarchy

open Lib Function

variable {g : Geometry}

/-- The caches agree in every way of every set, but for the data. -/
def Cache.SameKeys (cache cache' : Cache g) : Prop :=
  ∀ i, CacheSet.SameBut (fun _ => True) (cache i) (cache' i)

/-- Entries that only differ in their data. -/
private theorem sameKeys_entry {e e' : CacheEntry g} (hv : e'.v = e.v) (hage : e'.age = e.age)
    (htag : e'.tag = e.tag) : e.SameBut (fun _ => True) e' :=
  ⟨hv, hage, htag, fun h => absurd trivial h⟩

namespace Cache.SameKeys

variable {cache cache' cache'' : Cache g}

theorem refl (cache : Cache g) : SameKeys cache cache := fun _ _ => .refl _ _

theorem symm (h : SameKeys cache cache') : SameKeys cache' cache := fun i w =>
  sameKeys_entry (h i w).v.symm (h i w).age.symm (h i w).tag.symm

theorem trans (h : SameKeys cache cache') (h' : SameKeys cache' cache'') :
    SameKeys cache cache'' := fun i w =>
  sameKeys_entry ((h' i w).v.trans (h i w).v) ((h' i w).age.trans (h i w).age)
    ((h' i w).tag.trans (h i w).tag)

/-- The data has no part in the lookup, nor has the place within the line. -/
theorem lookup_eq (h : SameKeys cache cache') {phyAddr phyAddr' : BitVec 32}
    (hline : lineOf phyAddr = lineOf phyAddr') :
    lookup cache' phyAddr' = lookup cache phyAddr := by
  have hholds : ∀ n i w, Holds cache' n i w ↔ Holds cache n i w := fun n i w => by
    rw [Holds, Holds, (h i w).v, (h i w).tag]
  have hindex : extractLineIndex g phyAddr' = extractLineIndex g phyAddr :=
    (lineNumber_inj.mp ((lineNumber_addrTag phyAddr').trans
      (hline.symm.trans (lineNumber_addrTag phyAddr).symm))).1
  refine Option.ext fun w => ?_
  rw [lookup_eq_some_iff, lookup_eq_some_iff, hindex, ← hline, hholds]
  simp only [hholds, (h _ _).v]

/-- Data apart, an access is a function of the set it goes to. -/
theorem access (h : SameKeys cache cache') {phyAddr phyAddr' : BitVec 32}
    (hline : lineOf phyAddr = lineOf phyAddr') (l2 l2' : Cache .l2Cache) (line line' : Line) :
    SameKeys (access cache l2 phyAddr line).1 (access cache' l2' phyAddr' line').1 := by
  obtain ⟨hindex, htag⟩ := lineNumber_inj.mp ((lineNumber_addrTag (g := g) phyAddr').trans
    (hline.symm.trans (lineNumber_addrTag phyAddr).symm))
  have hset : CacheSet.SameBut (fun _ => True) (accessedSet cache phyAddr line)
      (accessedSet cache' phyAddr' line') := by
    rw [accessedSet, accessedSet, h.lookup_eq hline, hindex]
    cases lookup cache phyAddr with
    | some w =>
      have htouch := (h (extractLineIndex g phyAddr)).lruAgeUpdate w
      exact htouch.update w (sameKeys_entry (htouch w).v (htouch w).age (htouch w).tag)
    | none => exact (h _).insertSet (sameKeys_entry rfl rfl htag)
  rw [access_fst, access_fst, setAt, setAt, hindex]
  intro i
  rcases eq_or_ne i (extractLineIndex g phyAddr) with rfl | hi
  · rwa [update_self, update_self]
  · rw [update_of_ne hi, update_of_ne hi]
    exact h i

/-- A further access to the line just used moves nothing. -/
theorem again (h : SameKeys cache cache') {phyAddr : BitVec 32} {w : Fin g.ways}
    (hw : lookup cache' phyAddr = some w)
    (hage : (cache' (extractLineIndex g phyAddr) w).age = 0) (l2 : Cache .l2Cache) (line : Line) :
    SameKeys cache (MemoryHierarchy.access cache' l2 phyAddr line).1 := by
  have hset : accessedSet cache' phyAddr line = update (cache' (extractLineIndex g phyAddr)) w
      { cache' (extractLineIndex g phyAddr) w with line := line } := by
    rw [accessedSet, hw]
    simp only [touchSet, lruAgeUpdate_of_age_eq_zero hage]
  refine h.trans ?_
  rw [access_fst, setAt, hset]
  intro i u
  rcases eq_or_ne i (extractLineIndex g phyAddr) with rfl | hi
  · rw [update_self]
    rcases eq_or_ne u w with rfl | hu
    · rw [update_self]
      exact sameKeys_entry rfl rfl rfl
    · rw [update_of_ne hu]
      exact .refl _ _
  · rw [update_of_ne hi]
    exact .refl _ _

end Cache.SameKeys

/-! ### Operations -/

/-- What an L1 cache sees of an operation: the line, if it goes through that cache and is not
refused. -/
def CacheOp.seenBy (access : MemAccess) (op : CacheOp) : Option ℕ :=
  if op.Aligned ∧ op.access = access then some op.line else none

/-- **One operation** is one access to the L1 cache it goes through, a byte write too. -/
private theorem sameKeys_stepCommand (s : CacheState) {op : CacheOp} (ha : op.Aligned)
    (line : Line) :
    Cache.SameKeys (access (s.l1 op.access) s.l2Cache (phyToInt op.target) line).1
      ((stepCommand s op).l1 op.access) := by
  cases op with
  | read access paddr =>
    rw [stepCommand, executeCommand_read ha, readStep, CacheOp.access, setCaches_l1_self]
    exact (Cache.SameKeys.refl _).access rfl _ _ _ _
  | readByte access paddr =>
    rw [stepCommand, executeCommand_readByte, readStep, CacheOp.access, setCaches_l1_self]
    exact (Cache.SameKeys.refl _).access rfl _ _ _ _
  | write paddr word =>
    rw [stepCommand, executeCommand_write ha]
    exact (Cache.SameKeys.refl _).access rfl _ _ _ _
  | writeByte paddr byte =>
    -- the write finds the line that the read has just used
    have hread := (Cache.SameKeys.refl s.l1Dcache).access
      (rfl : lineOf (phyToInt (wordAligned paddr)) = _) s.l2Cache s.l2Cache line
      (s.served .data (phyToInt (wordAligned paddr)))
    obtain ⟨w, hw, -, hage⟩ := lookup_access s.l1Dcache s.l2Cache (phyToInt (wordAligned paddr))
      (s.served .data (phyToInt (wordAligned paddr)))
    rw [stepCommand, executeCommand_writeByte]
    exact hread.again hw hage _ _

/-- What an L1 cache does not see leaves it as it is. -/
private theorem l1_stepCommand_of_unseen (s : CacheState) {access : MemAccess} {op : CacheOp}
    (h : op.seenBy access = none) : (stepCommand s op).l1 access = s.l1 access := by
  by_cases ha : op.Aligned
  · refine stepCommand_l1_of_ne s fun heq => ?_
    simp [CacheOp.seenBy, ha, heq] at h
  · rw [stepCommand, executeCommand_unaligned ha]

/-- **Each L1 cache runs on its own.** Two runs that start with the same lines in the same places
of an L1 cache, and access the same lines through it in the same order, end so too, and the next
access hits at the same way in both or misses in both: whatever else the two runs do, whatever L2,
the other L1 cache and the memory are, and whatever the data is. -/
theorem l1_independent {s s' : CacheState} {access : MemAccess} {ops ops' : List CacheOp}
    (hkeys : Cache.SameKeys (s.l1 access) (s'.l1 access))
    (hseen : ops.filterMap (CacheOp.seenBy access) = ops'.filterMap (CacheOp.seenBy access)) :
    Cache.SameKeys ((runCommands s ops).l1 access) ((runCommands s' ops').l1 access) ∧
      ∀ paddr, (cacheHit ((runCommands s' ops').l1 access) paddr).2.map CacheHit.hitWay =
        (cacheHit ((runCommands s ops).l1 access) paddr).2.map CacheHit.hitWay := by
  have hrun : Cache.SameKeys ((runCommands s ops).l1 access)
      ((runCommands s' ops').l1 access) := by
    refine unwinding (R := fun s s' : CacheState => Cache.SameKeys (s.l1 access) (s'.l1 access))
      (fun s s' h => h.symm) (fun s s' op hop h => ?_) (fun s s' op op' n hop hop' h => ?_)
      hkeys hseen
    · rwa [l1_stepCommand_of_unseen s' hop]
    · obtain ⟨⟨ha, rfl⟩, hn⟩ := Option.ite_none_right_eq_some.mp hop
      obtain ⟨⟨ha', haccess⟩, hn'⟩ := Option.ite_none_right_eq_some.mp hop'
      have hline : lineOf (phyToInt op.target) = lineOf (phyToInt op'.target) :=
        Option.some_injective _ (hn.trans hn'.symm)
      refine ((sameKeys_stepCommand s ha fun _ => 0).symm.trans ?_).trans
        (haccess ▸ sameKeys_stepCommand s' ha' fun _ => 0)
      exact h.access hline _ _ _ _
  refine ⟨hrun, fun paddr => ?_⟩
  have hlookup := hrun.lookup_eq (rfl : lineOf (phyToInt paddr) = _)
  cases hw : lookup ((runCommands s ops).l1 access) (phyToInt paddr) with
  | some w => rw [cacheHit_eq_some hw, cacheHit_eq_some (hlookup.trans hw)]; rfl
  | none => rw [cacheHit_eq_none hw, cacheHit_eq_none (hlookup.trans hw)]

/-- A fetch between flushed caches, and the same fetch over another memory among writes. -/
theorem l1_independent_fetch :
    (cacheHit ((runCommands (flushed fun _ => 1)
        [.write ⟨1, 20⟩ 7, .readByte .instruction ⟨1, 5⟩, .writeByte ⟨1, 4⟩ 9]).l1 .instruction)
          ⟨1, 0⟩).2.map CacheHit.hitWay =
      (cacheHit ((runCommands (flushed fun _ => 0) [.read .instruction ⟨1, 0⟩]).l1 .instruction)
          ⟨1, 0⟩).2.map CacheHit.hitWay := by
  have hseen : [CacheOp.read .instruction ⟨1, 0⟩].filterMap (CacheOp.seenBy .instruction) =
      [CacheOp.write ⟨1, 20⟩ 7, .readByte .instruction ⟨1, 5⟩, .writeByte ⟨1, 4⟩ 9].filterMap
        (CacheOp.seenBy .instruction) := by decide
  exact (l1_independent (Cache.SameKeys.refl _) hseen).2 _

end MemoryHierarchy
