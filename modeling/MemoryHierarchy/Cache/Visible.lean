import MemoryHierarchy.Cache.Replacement
import MemoryHierarchy.Cache.Memory

/-!
# Invalid entries are inert

An entry that is not valid has an age, a tag and data all the same: those of what it held before.
None of them ever matters. States that agree in what is valid (`CacheState.Alike`) get the same
replies from every operation and still agree afterwards, so that no run can tell them apart
(`CacheState.Alike.runCommands`).
-/

namespace MemoryHierarchy

open Lib Function

variable {g : Geometry}

/-- Both entries are invalid, or both are valid and they are equal. -/
structure CacheEntry.Alike (e e' : CacheEntry g) : Prop where
  v : e'.v = e.v
  valid : e.v = true → e' = e

/-- The sets agree, way by way. -/
def CacheSet.Alike (set set' : CacheSet g) : Prop := ∀ w, (set w).Alike (set' w)

/-- The caches agree in every way of every set that is valid in one of them. -/
def Cache.Alike (cache cache' : Cache g) : Prop := ∀ i, CacheSet.Alike (cache i) (cache' i)

theorem CacheEntry.Alike.refl (e : CacheEntry g) : e.Alike e := ⟨rfl, fun _ => rfl⟩

theorem CacheSet.Alike.refl (set : CacheSet g) : CacheSet.Alike set set := fun _ => .refl _

theorem Cache.Alike.refl (cache : Cache g) : Cache.Alike cache cache := fun _ => .refl _

theorem CacheEntry.Alike.symm {e e' : CacheEntry g} (h : e.Alike e') : e'.Alike e :=
  ⟨h.v.symm, fun hv => (h.valid (h.v.symm.trans hv)).symm⟩

theorem CacheEntry.Alike.trans {e e' e'' : CacheEntry g} (h : e.Alike e') (h' : e'.Alike e'') :
    e.Alike e'' :=
  ⟨h'.v.trans h.v, fun hv => (h'.valid (h.v.trans hv)).trans (h.valid hv)⟩

theorem Cache.Alike.symm {cache cache' : Cache g} (h : Cache.Alike cache cache') :
    Cache.Alike cache' cache := fun i w => (h i w).symm

theorem Cache.Alike.trans {cache cache' cache'' : Cache g} (h : Cache.Alike cache cache')
    (h' : Cache.Alike cache' cache'') : Cache.Alike cache cache'' :=
  fun i w => (h i w).trans (h' i w)

/-- Entries that are invalid agree, whatever else they hold. -/
theorem CacheEntry.alike_of_invalid {e e' : CacheEntry g} (h : e.v = false) (h' : e'.v = false) :
    e.Alike e' :=
  ⟨h'.trans h.symm, fun hv => absurd (h.symm.trans hv) Bool.false_ne_true⟩

/-! ### Sets -/

namespace CacheSet.Alike

variable {set set' : CacheSet g} {entry entry' : CacheEntry g}

/-- Related entries at one way. -/
theorem update (h : Alike set set') (w : Fin g.ways) (he : entry.Alike entry') :
    Alike (update set w entry) (update set' w entry') := by
  intro u
  by_cases hu : u = w
  · subst hu
    rwa [update_self, update_self]
  · rw [update_of_ne hu, update_of_ne hu]
    exact h u

/-- Ageing on a way that is valid. -/
theorem lruAgeUpdate (h : Alike set set') {w : Fin g.ways} (hw : (set w).v = true) :
    Alike (lruAgeUpdate set w) (lruAgeUpdate set' w) := by
  intro u
  refine ⟨by rw [lruAgeUpdate_v, lruAgeUpdate_v, (h u).v], fun hu => ?_⟩
  rw [lruAgeUpdate_v] at hu
  simp only [MemoryHierarchy.lruAgeUpdate, (h u).valid hu, (h w).valid hw]

theorem lruAgeIncrease (h : Alike set set') (w : Fin g.ways) :
    Alike (lruAgeIncrease set w) (lruAgeIncrease set' w) := by
  intro u
  refine ⟨by rw [lruAgeIncrease_v, lruAgeIncrease_v, (h u).v], fun hu => ?_⟩
  rw [lruAgeIncrease_v] at hu
  simp only [MemoryHierarchy.lruAgeIncrease, (h u).valid hu]

/-- An insertion picks the same way in both sets. -/
theorem insertSet (h : Alike set set') (entry : CacheEntry g) :
    Alike (insertSet set entry) (insertSet set' entry) := by
  rw [MemoryHierarchy.insertSet, MemoryHierarchy.insertSet, emptyWay_congr fun w => (h w).v]
  cases hempty : emptyWay set with
  | some w => exact (h.update w (.refl entry)).lruAgeIncrease w
  | none =>
    -- a full set is valid throughout, so the sets are equal
    have hset : set' = set := funext fun w =>
      (h w).valid (emptyWay_eq_none_iff.mp hempty w)
    rw [hset]
    exact .refl _

/-- Touching a way that is valid. -/
theorem touchSet (h : Alike set set') {w : Fin g.ways} (hw : (set w).v = true) (line : Line) :
    Alike (touchSet set w line) (touchSet set' w line) := by
  refine (h.lruAgeUpdate hw).update w ?_
  have hv : (MemoryHierarchy.lruAgeUpdate set w w).v = true := (lruAgeUpdate_v set w w).trans hw
  rw [((h.lruAgeUpdate hw) w).valid hv]
  exact .refl _

/-- Dropping a way that is valid. -/
theorem dropSet (h : Alike set set') {w : Fin g.ways} (hw : (set w).v = true) (line line' : Line) :
    Alike (dropSet set w line) (dropSet set' w line') :=
  (h.lruAgeUpdate hw).update w (CacheEntry.alike_of_invalid rfl rfl)

end CacheSet.Alike

/-! ### Caches -/

section Access

variable {cache cache' l1 l1' : Cache g} {l2 l2' : Cache .l2Cache} {phyAddr : BitVec 32}

/-- The lookup sees valid entries only. -/
theorem lookup_congr_of_alike (h : Cache.Alike cache cache') :
    lookup cache' phyAddr = lookup cache phyAddr := by
  have hholds : ∀ u, Holds cache' (lineOf phyAddr) (extractLineIndex g phyAddr) u ↔
      Holds cache (lineOf phyAddr) (extractLineIndex g phyAddr) u := by
    intro u
    rw [Holds, Holds, (h _ u).v]
    exact and_congr_right fun hu => by rw [(h _ u).valid hu]
  refine Option.ext fun w => ?_
  rw [lookup_eq_some_iff, lookup_eq_some_iff, hholds]
  simp only [hholds, (h _ _).v]

protected theorem Cache.Alike.setAt (h : Cache.Alike cache cache') {set set' : CacheSet g}
    (hset : CacheSet.Alike set set') :
    Cache.Alike (setAt cache phyAddr set) (setAt cache' phyAddr set') := by
  intro i
  by_cases hi : i = extractLineIndex g phyAddr
  · subst hi
    rwa [MemoryHierarchy.setAt, MemoryHierarchy.setAt, update_self, update_self]
  · rw [MemoryHierarchy.setAt, MemoryHierarchy.setAt, update_of_ne hi, update_of_ne hi]
    exact h i

protected theorem Cache.Alike.insertAt (h : Cache.Alike cache cache') (line : Line) :
    Cache.Alike (insertAt cache phyAddr (cacheInitEntryWithParam g phyAddr line))
      (insertAt cache' phyAddr (cacheInitEntryWithParam g phyAddr line)) :=
  h.setAt ((h _).insertSet _)

/-- The victim is the same, with the same data. -/
theorem alike_spill (h1 : Cache.Alike l1 l1') (h2 : Cache.Alike l2 l2') (i : Fin g.lines) :
    Cache.Alike (spill l1 l2 i) (spill l1' l2' i) := by
  rw [spill, spill, emptyWay_congr fun w => (h1 i w).v]
  cases hempty : emptyWay (l1 i) with
  | some w => exact h2
  | none =>
    have hset : l1' i = l1 i := funext fun w =>
      (h1 i w).valid (emptyWay_eq_none_iff.mp hempty w)
    rw [hset]
    cases victimWay (l1 i) with
    | some w => exact h2.insertAt _
    | none => exact h2

/-- **An access keeps caches alike.** -/
theorem alike_access (h1 : Cache.Alike l1 l1') (h2 : Cache.Alike l2 l2') (phyAddr : BitVec 32)
    (line : Line) :
    Cache.Alike (access l1 l2 phyAddr line).1 (access l1' l2' phyAddr line).1 ∧
      Cache.Alike (access l1 l2 phyAddr line).2 (access l1' l2' phyAddr line).2 := by
  rw [access, access, lookup_congr_of_alike h1, lookup_congr_of_alike h2]
  cases hl1 : lookup l1 phyAddr with
  | some w =>
    have hw := (lookup_eq_some_iff.mp hl1).1.1
    exact ⟨h1.setAt ((h1 _).touchSet hw line), h2⟩
  | none =>
    cases hl2 : lookup l2 phyAddr with
    | some u =>
      have hu := (lookup_eq_some_iff.mp hl2).1.1
      exact ⟨h1.insertAt line, alike_spill h1 (h2.setAt ((h2 _).dropSet hu line line)) _⟩
    | none => exact ⟨h1.insertAt line, alike_spill h1 h2 _⟩

/-- The copy served is a valid one, or memory's. -/
theorem servedLine_congr_of_alike (h1 : Cache.Alike l1 l1') (h2 : Cache.Alike l2 l2') (mem : Mem)
    (phyAddr : BitVec 32) : servedLine mem l1' l2' phyAddr = servedLine mem l1 l2 phyAddr := by
  rw [servedLine, servedLine, lookup_congr_of_alike h1, lookup_congr_of_alike h2]
  cases hl1 : lookup l1 phyAddr with
  | some w => simp only [(h1 _ w).valid (lookup_eq_some_iff.mp hl1).1.1]
  | none =>
    cases hl2 : lookup l2 phyAddr with
    | some u => simp only [(h2 _ u).valid (lookup_eq_some_iff.mp hl2).1.1]
    | none => rfl

end Access

/-! ### States -/

/-- The states agree in memory and in everything that is valid. -/
structure CacheState.Alike (s s' : CacheState) : Prop where
  memSpace : s'.memSpace = s.memSpace
  l1 : ∀ access, Cache.Alike (s.l1 access) (s'.l1 access)
  l2 : Cache.Alike s.l2Cache s'.l2Cache

namespace CacheState.Alike

variable {s s' s'' : CacheState}

protected theorem refl (s : CacheState) : s.Alike s := ⟨rfl, fun _ => .refl _, .refl _⟩

protected theorem symm (h : s.Alike s') : s'.Alike s :=
  ⟨h.memSpace.symm, fun access => (h.l1 access).symm, h.l2.symm⟩

protected theorem trans (h : s.Alike s') (h' : s'.Alike s'') : s.Alike s'' :=
  ⟨h'.memSpace.trans h.memSpace, fun access => (h.l1 access).trans (h'.l1 access),
    h.l2.trans h'.l2⟩

protected theorem served (h : s.Alike s') (access : MemAccess) (phyAddr : BitVec 32) :
    s'.served access phyAddr = s.served access phyAddr := by
  rw [CacheState.served, CacheState.served, h.memSpace]
  exact servedLine_congr_of_alike (h.l1 access) h.l2 _ _

protected theorem readStep (h : s.Alike s') (access : MemAccess) (phyAddr : BitVec 32) :
    (readStep s access phyAddr).Alike (readStep s' access phyAddr) := by
  obtain ⟨h1, h2⟩ := alike_access (h.l1 access) h.l2 phyAddr (s.served access phyAddr)
  rw [MemoryHierarchy.readStep, MemoryHierarchy.readStep, h.served]
  refine ⟨?_, fun access' => ?_, ?_⟩
  · rw [setCaches_memSpace, setCaches_memSpace, h.memSpace]
  · by_cases ha : access' = access
    · subst ha
      rwa [setCaches_l1_self, setCaches_l1_self]
    · rw [setCaches_l1_of_ne _ _ _ ha, setCaches_l1_of_ne _ _ _ ha]
      exact h.l1 access'
  · rwa [setCaches_l2Cache, setCaches_l2Cache]

protected theorem writeStep (h : s.Alike s') (phyAddr : BitVec 32) (word : Word) :
    (writeStep s phyAddr word).Alike (writeStep s' phyAddr word) := by
  have hwritten : s'.written phyAddr word = s.written phyAddr word := by
    rw [CacheState.written, CacheState.written, h.served]
  obtain ⟨h1, h2⟩ := alike_access (h.l1 .data) h.l2 phyAddr (s.written phyAddr word)
  rw [MemoryHierarchy.writeStep, MemoryHierarchy.writeStep, hwritten]
  refine ⟨by rw [h.memSpace], fun access => ?_, h2⟩
  cases access with
  | instruction => exact h.l1 .instruction
  | data => exact h1

/-- **One operation** gets the same reply from states that are alike, and leaves them alike. -/
protected theorem executeCommand (h : s.Alike s') (op : CacheOp) :
    (executeCommand s op).1.Alike (executeCommand s' op).1 ∧
      (executeCommand s' op).2 = (executeCommand s op).2 := by
  by_cases ha : op.Aligned
  · cases op with
    | read access paddr =>
      rw [executeCommand_read ha, executeCommand_read ha, h.served]
      exact ⟨h.readStep _ _, rfl⟩
    | readByte access paddr =>
      rw [executeCommand_readByte, executeCommand_readByte, h.served]
      exact ⟨h.readStep _ _, rfl⟩
    | write paddr word =>
      rw [executeCommand_write ha, executeCommand_write ha]
      exact ⟨h.writeStep _ _, rfl⟩
    | writeByte paddr byte =>
      rw [executeCommand_writeByte, executeCommand_writeByte, CacheState.byteWritten,
        CacheState.byteWritten, h.served]
      exact ⟨(h.readStep _ _).writeStep _ _, rfl⟩
  · rw [executeCommand_unaligned ha, executeCommand_unaligned ha]
    exact ⟨h, rfl⟩

end CacheState.Alike

/-- **Invalid entries are inert.** States that agree in memory and in what is valid, however they
came about, still do after any run. -/
theorem CacheState.Alike.runCommands {s s' : CacheState} (h : s.Alike s') (ops : List CacheOp) :
    (runCommands s ops).Alike (runCommands s' ops) := by
  induction ops generalizing s s' with
  | nil => exact h
  | cons op ops ih => exact ih (h.executeCommand op).1

end MemoryHierarchy
