import MemoryHierarchy.Cache.Access

/-!
# Reads and writes drive the replacement state alike

Which way an access uses, and what it does to the valid bits, tags and ages, does not depend on
the data. Two caches that agree in everything but the data of the copies of one line (`SameBut`)
still do after an access to that line, whatever the two lines stored. A write is an access that
stores another line than a read, so the two leave the same replacement state, from caches with
any contents.
-/

namespace MemoryHierarchy

open Lib Function

variable {g : Geometry}

/-- The entries agree in valid bit, age and tag, and also in their data unless the tag
satisfies `P`. -/
structure CacheEntry.SameBut (P : BitVec g.tagBits → Prop) (e e' : CacheEntry g) : Prop where
  v : e'.v = e.v
  age : e'.age = e.age
  tag : e'.tag = e.tag
  line : ¬ P e.tag → e'.line = e.line

theorem CacheEntry.SameBut.refl (P : BitVec g.tagBits → Prop) (e : CacheEntry g) :
    e.SameBut P e :=
  ⟨rfl, rfl, rfl, fun _ => rfl⟩

/-- The sets agree, way by way. -/
def CacheSet.SameBut (P : BitVec g.tagBits → Prop) (set set' : CacheSet g) : Prop :=
  ∀ w, (set w).SameBut P (set' w)

/-- The caches agree in every way of every set, but for the data of the copies of line `n`. -/
def Cache.SameBut (n : ℕ) (cache cache' : Cache g) : Prop :=
  ∀ i, CacheSet.SameBut (fun tag => lineNumber i tag = n) (cache i) (cache' i)

theorem Cache.SameBut.refl (n : ℕ) (cache : Cache g) : Cache.SameBut n cache cache := fun _ _ =>
  .refl _ _

/-! ### Sets -/

section Sets

variable {P : BitVec g.tagBits → Prop} {set set' : CacheSet g} {entry entry' : CacheEntry g}

/-- The free way is found by valid bits. -/
theorem emptyWay_congr (hv : ∀ w, (set' w).v = (set w).v) : emptyWay set' = emptyWay set := by
  refine Option.ext fun w => ?_
  rw [emptyWay_eq_some_iff, emptyWay_eq_some_iff, hv]
  simp only [hv]

private theorem evictLoop_congr (hv : ∀ w, (set' w).v = (set w).v)
    (hage : ∀ w, (set' w).age = (set w).age) (ways : List (Fin g.ways)) (maxAge : ℕ)
    (entryToEvict : Option (Fin g.ways)) :
    evictLoop set' ways maxAge entryToEvict = evictLoop set ways maxAge entryToEvict := by
  induction ways generalizing maxAge entryToEvict with
  | nil => rfl
  | cons way ways ih => rw [evictLoop, evictLoop, hv, hage, ih, ih]

/-- The victim is found by valid bits and ages. -/
theorem victimWay_congr (hv : ∀ w, (set' w).v = (set w).v)
    (hage : ∀ w, (set' w).age = (set w).age) : victimWay set' = victimWay set :=
  evictLoop_congr hv hage _ _ _

namespace CacheSet.SameBut

/-- Related entries at one way. -/
theorem update (h : SameBut P set set') (w : Fin g.ways) (he : entry.SameBut P entry') :
    SameBut P (update set w entry) (update set' w entry') := by
  intro u
  rcases eq_or_ne u w with rfl | hu
  · rwa [update_self, update_self]
  · rw [update_of_ne hu, update_of_ne hu]
    exact h u

theorem lruAgeUpdate (h : SameBut P set set') (w : Fin g.ways) :
    SameBut P (lruAgeUpdate set w) (lruAgeUpdate set' w) := by
  intro u
  simp only [MemoryHierarchy.lruAgeUpdate, (h u).age, (h w).age]
  split_ifs
  · exact ⟨(h u).v, rfl, (h u).tag, (h u).line⟩
  · exact ⟨(h u).v, rfl, (h u).tag, (h u).line⟩
  · exact h u

theorem lruAgeIncrease (h : SameBut P set set') (w : Fin g.ways) :
    SameBut P (lruAgeIncrease set w) (lruAgeIncrease set' w) := by
  intro u
  simp only [MemoryHierarchy.lruAgeIncrease, (h u).age]
  split_ifs
  · exact ⟨(h u).v, rfl, (h u).tag, (h u).line⟩
  · exact ⟨(h u).v, rfl, (h u).tag, (h u).line⟩
  · exact h u

/-- An insertion picks the same way in both sets. -/
theorem insertSet (h : SameBut P set set') (he : entry.SameBut P entry') :
    SameBut P (insertSet set entry) (insertSet set' entry') := by
  rw [MemoryHierarchy.insertSet, MemoryHierarchy.insertSet, emptyWay_congr fun w => (h w).v,
    victimWay_congr (fun w => (h w).v) fun w => (h w).age]
  cases emptyWay set with
  | some w => exact (h.update w he).lruAgeIncrease w
  | none =>
    cases victimWay set with
    | some w =>
      refine (h.update w ?_).lruAgeUpdate w
      exact ⟨he.v, (h w).age, he.tag, he.line⟩
    | none => exact h

end CacheSet.SameBut

end Sets

/-! ### Caches -/

section Caches

variable {n : ℕ} {cache cache' : Cache g} {phyAddr : BitVec 32}

theorem Cache.SameBut.setAt (h : Cache.SameBut n cache cache') {set set' : CacheSet g}
    (hset : CacheSet.SameBut
      (fun tag => lineNumber (extractLineIndex g phyAddr) tag = n) set set') :
    Cache.SameBut n (setAt cache phyAddr set) (setAt cache' phyAddr set') := by
  intro i
  rcases eq_or_ne i (extractLineIndex g phyAddr) with rfl | hi
  · rwa [MemoryHierarchy.setAt, MemoryHierarchy.setAt, update_self, update_self]
  · rw [MemoryHierarchy.setAt, MemoryHierarchy.setAt, update_of_ne hi, update_of_ne hi]
    exact h i

theorem Cache.SameBut.insertAt (h : Cache.SameBut n cache cache') {entry entry' : CacheEntry g}
    (he : entry.SameBut (fun tag => lineNumber (extractLineIndex g phyAddr) tag = n) entry') :
    Cache.SameBut n (insertAt cache phyAddr entry) (insertAt cache' phyAddr entry') :=
  h.setAt ((h _).insertSet he)

/-- The two entries made for the address from two lines. -/
private theorem cacheInitEntryWithParam_sameBut (phyAddr : BitVec 32) (line line' : Line) :
    (cacheInitEntryWithParam g phyAddr line).SameBut
      (fun tag => lineNumber (extractLineIndex g phyAddr) tag = lineOf phyAddr)
      (cacheInitEntryWithParam g phyAddr line') :=
  ⟨rfl, rfl, rfl, fun htag => absurd (lineNumber_addrTag phyAddr) htag⟩

end Caches

/-! ### The access -/

/-- The victim of L1 is the same, with the same data, so L2 changes alike. -/
private theorem sameBut_spill {n : ℕ} {l2 l2' : Cache .l2Cache} (h : Cache.SameBut n l2 l2')
    (l1 : Cache g) (i : Fin g.lines) :
    Cache.SameBut n (spill l1 l2 i) (spill l1 l2' i) := by
  cases hempty : emptyWay (l1 i) with
  | some w =>
    simp only [spill, hempty]
    exact h
  | none =>
    obtain ⟨w, hw⟩ := exists_victimWay_of_full hempty
    simp only [spill, hempty, hw]
    exact h.insertAt (.refl _ _)

/-- **The line stored does not matter.** Two accesses to one address from the same caches
differ at most in the data of the copies of its line. -/
theorem sameBut_access (l1 : Cache g) (l2 : Cache .l2Cache) (phyAddr : BitVec 32)
    (line line' : Line) :
    Cache.SameBut (lineOf phyAddr) (access l1 l2 phyAddr line).1 (access l1 l2 phyAddr line').1 ∧
      Cache.SameBut (lineOf phyAddr) (access l1 l2 phyAddr line).2
        (access l1 l2 phyAddr line').2 := by
  -- a way found by the lookup holds a copy of the line
  have hfound : ∀ {g : Geometry} {cache : Cache g} {w : Fin g.ways},
      lookup cache phyAddr = some w → ∀ (v : Bool) (line line' : Line),
      CacheEntry.SameBut
        (fun tag => lineNumber (extractLineIndex g phyAddr) tag = lineOf phyAddr)
        { lruAgeUpdate (cache (extractLineIndex g phyAddr)) w w with v := v, line := line }
        { lruAgeUpdate (cache (extractLineIndex g phyAddr)) w w with v := v, line := line' } := by
    intro g cache w hw v line line'
    refine ⟨rfl, rfl, rfl, fun htag => absurd ?_ htag⟩
    rw [lruAgeUpdate_tag]
    exact (lookup_eq_some_iff.mp hw).1.2
  have hinsert := (Cache.SameBut.refl (lineOf phyAddr) l1).insertAt
    (cacheInitEntryWithParam_sameBut phyAddr line line')
  rw [access, access]
  cases h1 : lookup l1 phyAddr with
  | some w =>
    refine ⟨(Cache.SameBut.refl _ l1).setAt ?_, .refl _ _⟩
    exact CacheSet.SameBut.update (fun u => .refl _ _) w (hfound h1 _ line line')
  | none =>
    cases h2 : lookup l2 phyAddr with
    | some u =>
      refine ⟨hinsert, sameBut_spill ((Cache.SameBut.refl _ l2).setAt ?_) l1 _⟩
      exact CacheSet.SameBut.update (fun u => .refl _ _) u (hfound h2 false line line')
    | none => exact ⟨hinsert, .refl _ _⟩

/-- **Reads and writes drive the replacement state alike.** -/
theorem cacheRead_sameBut_cacheWrite (memSpace : Mem) {paddr : PhyAddr}
    (haligned : paddr.pageOffset.toNat % 4 = 0) (l1 : Cache .l1Dcache) (l2 : Cache .l2Cache)
    (word : Word) :
    (cacheRead memSpace paddr l1 l2).1 = .errNone ∧
      (cacheWrite memSpace paddr l1 l2 word).1 = .errNone ∧
      Cache.SameBut (lineOf (phyToInt paddr)) (cacheRead memSpace paddr l1 l2).2.2.1
        (cacheWrite memSpace paddr l1 l2 word).2.2.1 ∧
      Cache.SameBut (lineOf (phyToInt paddr)) (cacheRead memSpace paddr l1 l2).2.2.2
        (cacheWrite memSpace paddr l1 l2 word).2.2.2 := by
  rw [cacheRead_eq haligned, cacheWrite_eq haligned]
  refine ⟨rfl, rfl, ?_⟩
  exact sameBut_access l1 l2 (phyToInt paddr) _ _

/-- A line that neither of two full caches holds: both evict. -/
theorem cacheRead_sameBut_cacheWrite_full :
    Cache.SameBut (lineOf (phyToInt ⟨256, 20⟩))
        (cacheRead (fun _ => 0) ⟨256, 20⟩ (fullCache .l1Dcache 4096)
          (fullCache .l2Cache 0)).2.2.1
        (cacheWrite (fun _ => 0) ⟨256, 20⟩ (fullCache .l1Dcache 4096)
          (fullCache .l2Cache 0) 7).2.2.1 ∧
      Cache.SameBut (lineOf (phyToInt ⟨256, 20⟩))
        (cacheRead (fun _ => 0) ⟨256, 20⟩ (fullCache .l1Dcache 4096)
          (fullCache .l2Cache 0)).2.2.2
        (cacheWrite (fun _ => 0) ⟨256, 20⟩ (fullCache .l1Dcache 4096)
          (fullCache .l2Cache 0) 7).2.2.2 :=
  (cacheRead_sameBut_cacheWrite _ (by decide) _ _ 7).2.2

end MemoryHierarchy
