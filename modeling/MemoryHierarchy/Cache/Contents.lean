import MemoryHierarchy.Cache.Access

/-!
# Where the lines are

The contents of a cache, ages put aside: `held cache (i, w)` is the line number and the data of
way `w` of set `i`, when it is valid. Each part of an access moves at most one line, so it
changes `held` at one location (`held_touch`, `held_drop`, `held_insertAt`), and a property of
all cached copies needs checking on the line that moves only (`access_allHeld`).
-/

namespace MemoryHierarchy

open Lib Function

variable {g : Geometry}

/-- The line number and the data at a location, if it is valid. -/
def held (cache : Cache g) (loc : Fin g.lines × Fin g.ways) : Option (ℕ × Line) :=
  if (cache loc.1 loc.2).v then
    some (lineNumber loc.1 (cache loc.1 loc.2).tag, (cache loc.1 loc.2).line)
  else none

theorem held_eq_some_iff {cache : Cache g} {i : Fin g.lines} {w : Fin g.ways} {n : ℕ}
    {line : Line} :
    held cache (i, w) = some (n, line) ↔ Holds cache n i w ∧ (cache i w).line = line := by
  rw [held, Holds]
  split_ifs with hv <;> simp [hv]

theorem held_eq_none_iff {cache : Cache g} {i : Fin g.lines} {w : Fin g.ways} :
    held cache (i, w) = none ↔ (cache i w).v = false := by
  rw [held]
  split_ifs with hv <;> simp [hv]

protected theorem Holds.held {cache : Cache g} {n : ℕ} {i : Fin g.lines} {w : Fin g.ways}
    (h : Holds cache n i w) : held cache (i, w) = some (n, (cache i w).line) :=
  held_eq_some_iff.mpr ⟨h, rfl⟩

@[simp]
theorem held_cacheFlush (loc : Fin g.lines × Fin g.ways) : held (cacheFlush g) loc = none := rfl

/-- Replacing a set, by ways: only way `w` changes what it holds. -/
private theorem held_setAt {cache : Cache g} {phyAddr : BitVec 32} {set : CacheSet g}
    {w : Fin g.ways} {x : Option (ℕ × Line)}
    (hw : held (setAt cache phyAddr set) (extractLineIndex g phyAddr, w) = x)
    (hne : ∀ u ≠ w, (set u).v = (cache (extractLineIndex g phyAddr) u).v ∧
      (set u).tag = (cache (extractLineIndex g phyAddr) u).tag ∧
      (set u).line = (cache (extractLineIndex g phyAddr) u).line) :
    held (setAt cache phyAddr set) = update (held cache) (extractLineIndex g phyAddr, w) x := by
  funext ⟨i, u⟩
  by_cases hloc : (i, u) = (extractLineIndex g phyAddr, w)
  · rw [hloc, update_self, hw]
  · rw [update_of_ne hloc]
    by_cases hi : i = extractLineIndex g phyAddr
    · subst hi
      obtain ⟨hv, ht, hl⟩ := hne u fun hu => hloc (by rw [hu])
      simp only [held, setAt, update_self, hv, ht, hl]
    · simp only [held, setAt, update_of_ne hi]

/-- Touching the way found stores the line there. -/
theorem held_touch {cache : Cache g} {phyAddr : BitVec 32} {w : Fin g.ways} (line : Line)
    (h : Holds cache (lineOf phyAddr) (extractLineIndex g phyAddr) w) :
    held (setAt cache phyAddr (touchSet (cache (extractLineIndex g phyAddr)) w line)) =
      update (held cache) (extractLineIndex g phyAddr, w) (some (lineOf phyAddr, line)) := by
  refine held_setAt ?_ fun u hu => ?_
  · rw [held_eq_some_iff]
    simpa [Holds, setAt, touchSet] using h
  · simp [touchSet, update_of_ne hu]

/-- Dropping a way empties it. -/
theorem held_drop (cache : Cache g) (phyAddr : BitVec 32) (w : Fin g.ways) (line : Line) :
    held (setAt cache phyAddr (dropSet (cache (extractLineIndex g phyAddr)) w line)) =
      update (held cache) (extractLineIndex g phyAddr, w) none := by
  refine held_setAt ?_ fun u hu => ?_
  · rw [held_eq_none_iff]
    simp [setAt, dropSet]
  · simp [dropSet, update_of_ne hu]

/-! ### Insertion -/

/-- The way an insertion uses. -/
def insertWay (set : CacheSet g) : Option (Fin g.ways) :=
  match emptyWay set with
  | some w => some w
  | none => victimWay set

theorem insertWay_eq_some_iff {set : CacheSet g} {w : Fin g.ways} :
    insertWay set = some w ↔
      emptyWay set = some w ∨ emptyWay set = none ∧ victimWay set = some w := by
  rw [insertWay]
  cases emptyWay set with
  | some w' => simp
  | none => simp

theorem exists_insertWay (set : CacheSet g) : ∃ w, insertWay set = some w := by
  rw [insertWay]
  cases h : emptyWay set with
  | some w => exact ⟨w, rfl⟩
  | none => exact exists_victimWay_of_full h

/-- Every way before the insertion way is valid. -/
theorem valid_of_lt_insertWay {set : CacheSet g} {w u : Fin g.ways} (h : insertWay set = some w)
    (hu : u < w) : (set u).v = true := by
  rcases insertWay_eq_some_iff.mp h with hempty | ⟨hfull, -⟩
  · exact (emptyWay_eq_some_iff.mp hempty).2 u hu
  · exact emptyWay_eq_none_iff.mp hfull u

/-- A set with a free way is inserted into at a free way. -/
theorem insertWay_free {set : CacheSet g} {w u : Fin g.ways} (h : insertWay set = some w)
    (hu : (set u).v = false) : (set w).v = false := by
  rcases insertWay_eq_some_iff.mp h with hempty | ⟨hfull, -⟩
  · exact (emptyWay_eq_some_iff.mp hempty).1
  · rw [emptyWay_eq_none_iff.mp hfull u] at hu
    cases hu

@[simp]
theorem lruAgeIncrease_v (set : CacheSet g) (w u : Fin g.ways) :
    (lruAgeIncrease set w u).v = (set u).v := by
  simp only [lruAgeIncrease]
  split_ifs <;> rfl

@[simp]
theorem lruAgeIncrease_tag (set : CacheSet g) (w u : Fin g.ways) :
    (lruAgeIncrease set w u).tag = (set u).tag := by
  simp only [lruAgeIncrease]
  split_ifs <;> rfl

@[simp]
theorem lruAgeIncrease_line (set : CacheSet g) (w u : Fin g.ways) :
    (lruAgeIncrease set w u).line = (set u).line := by
  simp only [lruAgeIncrease]
  split_ifs <;> rfl

/-- The inserted entry is at the insertion way. -/
theorem insertSet_self {set : CacheSet g} {w : Fin g.ways} (h : insertWay set = some w)
    (entry : CacheEntry g) :
    (insertSet set entry w).v = entry.v ∧ (insertSet set entry w).tag = entry.tag ∧
      (insertSet set entry w).line = entry.line := by
  rw [insertSet]
  rcases insertWay_eq_some_iff.mp h with hempty | ⟨hfull, hw⟩
  · simp [hempty]
  · simp [hfull, hw]

/-- The other ways keep their contents. -/
theorem insertSet_of_ne {set : CacheSet g} {w u : Fin g.ways} (h : insertWay set = some w)
    (entry : CacheEntry g) (hu : u ≠ w) :
    (insertSet set entry u).v = (set u).v ∧ (insertSet set entry u).tag = (set u).tag ∧
      (insertSet set entry u).line = (set u).line := by
  rw [insertSet]
  rcases insertWay_eq_some_iff.mp h with hempty | ⟨hfull, hw⟩
  · simp [hempty, update_of_ne hu]
  · simp [hfull, hw, update_of_ne hu]

/-- Inserting the line of an address stores it at the insertion way. -/
theorem held_insertAt {cache : Cache g} {phyAddr : BitVec 32} {w : Fin g.ways} (line : Line)
    (h : insertWay (cache (extractLineIndex g phyAddr)) = some w) :
    held (insertAt cache phyAddr (cacheInitEntryWithParam g phyAddr line)) =
      update (held cache) (extractLineIndex g phyAddr, w) (some (lineOf phyAddr, line)) := by
  have hself := insertSet_self h (cacheInitEntryWithParam g phyAddr line)
  refine held_setAt ?_ fun u hu => insertSet_of_ne h _ hu
  rw [held_eq_some_iff, holds_lineOf_iff]
  simp only [setAt, update_self, true_and]
  exact ⟨⟨hself.1, hself.2.1⟩, hself.2.2⟩

/-- The inserted entry is the youngest. -/
theorem insertSet_self_age {set : CacheSet g} {w : Fin g.ways} (h : insertWay set = some w)
    {entry : CacheEntry g} : (insertSet set entry w).age = 0 := by
  rw [insertSet]
  rcases insertWay_eq_some_iff.mp h with hempty | ⟨hfull, hw⟩
  · simp [hempty, lruAgeIncrease]
  · simp [hfull, hw]

/-- A line inserted after a missed lookup is found by the next one. -/
theorem lookup_insertAt {cache : Cache g} {phyAddr : BitVec 32} {w : Fin g.ways}
    (hmiss : lookup cache phyAddr = none)
    (h : insertWay (cache (extractLineIndex g phyAddr)) = some w) (line : Line) :
    lookup (insertAt cache phyAddr (cacheInitEntryWithParam g phyAddr line)) phyAddr =
      some w := by
  have hself := insertSet_self h (cacheInitEntryWithParam g phyAddr line)
  rw [lookup_eq_some_iff]
  simp only [insertAt, Holds, update_self]
  refine ⟨⟨hself.1, by rw [hself.2.1]; exact lineNumber_addrTag phyAddr⟩, fun u hu => ?_⟩
  obtain ⟨hv, ht, -⟩ := insertSet_of_ne h (cacheInitEntryWithParam g phyAddr line) hu.ne
  rw [hv, ht]
  refine ⟨valid_of_lt_insertWay h hu, fun hholds => ?_⟩
  -- the lookup missed, so a copy before `w` would lie behind a hole before `w`
  obtain ⟨u', hu', hinvalid⟩ := lookup_eq_none_iff.mp hmiss u hholds
  rw [valid_of_lt_insertWay h (hu'.trans hu)] at hinvalid
  cases hinvalid

/-! ### Spilling -/

/-- An insertion into a set with a free way leaves L2 alone. -/
theorem spill_of_free {l1 : Cache g} {l2 : Cache .l2Cache} {i : Fin g.lines} {w : Fin g.ways}
    (h : emptyWay (l1 i) = some w) : spill l1 l2 i = l2 := by
  rw [spill, h]

/-- The address under which the entry in way `w` of set `i` is inserted in L2. -/
abbrev oldPhyAddr (l1 : Cache g) (i : Fin g.lines) (w : Fin g.ways) : BitVec 32 :=
  recomputeOldPhyAddr (l1 i w).tag i

/-- An insertion into a full set moves the victim to L2. -/
theorem spill_of_full {l1 : Cache g} {l2 : Cache .l2Cache} {i : Fin g.lines} {w : Fin g.ways}
    (h : emptyWay (l1 i) = none) (hw : victimWay (l1 i) = some w) :
    spill l1 l2 i = insertAt l2 (oldPhyAddr l1 i w)
      (cacheInitEntryWithParam .l2Cache (oldPhyAddr l1 i w) (l1 i w).line) := by
  rw [spill, h]
  simp only [hw]

/-! ### The accessed line -/

/-- **After an access the line is found in L1**, the youngest of its set, with the data that the
access stored. -/
theorem lookup_access (l1 : Cache g) (l2 : Cache .l2Cache) (phyAddr : BitVec 32) (line : Line) :
    ∃ w, lookup (access l1 l2 phyAddr line).1 phyAddr = some w ∧
      ((access l1 l2 phyAddr line).1 (extractLineIndex g phyAddr) w).line = line ∧
      ((access l1 l2 phyAddr line).1 (extractLineIndex g phyAddr) w).age = 0 := by
  rw [access_fst, accessedSet]
  cases h1 : lookup l1 phyAddr with
  | some w =>
    refine ⟨w, ?_, by simp [setAt, touchSet], by simp [setAt, touchSet]⟩
    rw [lookup_eq_some_iff] at h1 ⊢
    simpa only [Holds, setAt, update_self, touchSet_v, touchSet_tag] using h1
  | none =>
    obtain ⟨w, hw⟩ := exists_insertWay (l1 (extractLineIndex g phyAddr))
    refine ⟨w, lookup_insertAt h1 hw line, ?_, ?_⟩
    · rw [setAt, update_self]
      exact (insertSet_self hw _).2.2
    · rw [setAt, update_self]
      exact insertSet_self_age hw

/-! ### Properties of all copies -/

/-- Every valid entry satisfies `P`, as a line number and data. -/
def AllHeld (P : ℕ → Line → Prop) (cache : Cache g) : Prop :=
  ∀ loc n line, held cache loc = some (n, line) → P n line

theorem allHeld_cacheFlush (P : ℕ → Line → Prop) : AllHeld P (cacheFlush g) := by
  intro loc n line h
  simp at h

/-- A property of all copies survives an update at one location. -/
private theorem allHeld_of_update {P : ℕ → Line → Prop} {cache cache' : Cache g}
    {loc : Fin g.lines × Fin g.ways} {n : ℕ} {line : Line}
    (h : held cache' = update (held cache) loc (some (n, line)))
    (hne : ∀ loc' n' line', loc' ≠ loc → held cache loc' = some (n', line') → P n' line')
    (hline : P n line) : AllHeld P cache' := by
  intro loc' n' line' h'
  rw [h] at h'
  by_cases hloc : loc' = loc
  · subst hloc
    rw [update_self] at h'
    obtain ⟨rfl, rfl⟩ : n = n' ∧ line = line' := by simpa using h'
    exact hline
  · rw [update_of_ne hloc] at h'
    exact hne _ _ _ hloc h'

/-- Inserting the line of an address keeps a property of all copies the line has. -/
protected theorem AllHeld.insertAt {P : ℕ → Line → Prop} {cache : Cache g} (h : AllHeld P cache)
    {phyAddr : BitVec 32} {line : Line} (hline : P (lineOf phyAddr) line) :
    AllHeld P (insertAt cache phyAddr (cacheInitEntryWithParam g phyAddr line)) := by
  obtain ⟨w, hw⟩ := exists_insertWay (cache (extractLineIndex g phyAddr))
  exact allHeld_of_update (held_insertAt line hw) (fun _ _ _ _ => h _ _ _) hline

/-- Spilling keeps a property of all copies: the victim was a copy. -/
protected theorem AllHeld.spill {P : ℕ → Line → Prop} {l1 : Cache g} {l2 : Cache .l2Cache}
    (h1 : AllHeld P l1) (h2 : AllHeld P l2) (i : Fin g.lines) :
    AllHeld P (spill l1 l2 i) := by
  cases hempty : emptyWay (l1 i) with
  | some w => rwa [spill_of_free hempty]
  | none =>
    obtain ⟨w, hw⟩ := exists_victimWay_of_full hempty
    rw [spill_of_full hempty hw]
    refine h2.insertAt ?_
    rw [lineOf_recomputeOldPhyAddr]
    exact h1 (i, w) _ _ (held_eq_some_iff.mpr ⟨⟨emptyWay_eq_none_iff.mp hempty w, rfl⟩, rfl⟩)

/-- **Copies after an access.** A property of every copy but the one the access found, and of
the line the access stores, holds of every copy afterwards. -/
theorem access_allHeld {P : ℕ → Line → Prop} {l1 : Cache g} {l2 : Cache .l2Cache}
    {phyAddr : BitVec 32} {line : Line}
    (h1 : ∀ i w n line', (lookup l1 phyAddr = some w → i ≠ extractLineIndex g phyAddr) →
      held l1 (i, w) = some (n, line') → P n line')
    (h2 : ∀ j u n line', (lookup l1 phyAddr = none → lookup l2 phyAddr = some u →
        j ≠ extractLineIndex .l2Cache phyAddr) →
      held l2 (j, u) = some (n, line') → P n line')
    (hline : P (lineOf phyAddr) line) :
    AllHeld P (access l1 l2 phyAddr line).1 ∧ AllHeld P (access l1 l2 phyAddr line).2 := by
  rw [access]
  cases hl1 : lookup l1 phyAddr with
  | some w =>
    -- only the way found in L1 changes
    constructor
    · refine allHeld_of_update (held_touch line (lookup_eq_some_iff.mp hl1).1) ?_ hline
      rintro ⟨i, w'⟩ n' line' hne h'
      refine h1 i w' n' line' (fun hw hi => hne ?_) h'
      rw [hl1] at hw
      rw [hi, Option.some_inj.mp hw]
    · exact fun loc n line' => h2 loc.1 loc.2 n line' (by simp [hl1])
  | none =>
    have hall1 : AllHeld P l1 := fun loc n line' => h1 loc.1 loc.2 n line' (by simp [hl1])
    cases hl2 : lookup l2 phyAddr with
    | some u =>
      -- the copy found in L2 is gone before the victim falls into L2
      have hdrop : AllHeld P (setAt l2 phyAddr
          (dropSet (l2 (extractLineIndex .l2Cache phyAddr)) u line)) := by
        rintro ⟨j, u'⟩ n line' h'
        rw [held_drop] at h'
        by_cases hloc : (j, u') = (extractLineIndex .l2Cache phyAddr, u)
        · rw [hloc, update_self] at h'
          cases h'
        · rw [update_of_ne hloc] at h'
          refine h2 j u' n line' (fun _ hu hj => hloc ?_) h'
          rw [hl2] at hu
          rw [hj, Option.some_inj.mp hu]
      exact ⟨hall1.insertAt hline, hall1.spill hdrop _⟩
    | none =>
      have hall2 : AllHeld P l2 := fun loc n line' =>
        h2 loc.1 loc.2 n line' (by simp [hl2])
      exact ⟨hall1.insertAt hline, hall1.spill hall2 _⟩

/-- What L2 holds after an access was held before in L1 or in L2. -/
protected theorem AllHeld.access {P : ℕ → Line → Prop} {l1 : Cache g} {l2 : Cache .l2Cache}
    (h1 : AllHeld P l1) (h2 : AllHeld P l2) {phyAddr : BitVec 32} {line : Line}
    (hline : P (lineOf phyAddr) line) :
    AllHeld P (access l1 l2 phyAddr line).1 ∧ AllHeld P (access l1 l2 phyAddr line).2 :=
  access_allHeld (fun i w n line' _ => h1 (i, w) n line')
    (fun j u n line' _ => h2 (j, u) n line') hline

end MemoryHierarchy
