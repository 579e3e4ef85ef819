import MemoryHierarchy.Cache.Holes
import MemoryHierarchy.Lib.Placement

/-!
# The exclusive policy

`cache.h` asks that a line is in L1 or in L2 but not in both. Data operations move lines between
the two levels one at a time, so they keep it as long as what is brought in from memory is not
in L2 already (`CacheState.FindsL2Copy`): this is the exact condition (`data_exclusive`), and it
fails when the L2 copy lies behind a hole.
-/

namespace MemoryHierarchy

open Lib Function

variable {g : Geometry}

/-- No line is cached twice on the data side: not in both levels, and not in two ways of one
set of either. -/
structure CacheState.ExclusiveData (s : CacheState) : Prop where
  levels : ∀ n i w j u, Holds s.l1Dcache n i w → ¬ Holds s.l2Cache n j u
  l1 : ∀ n i w w', Holds s.l1Dcache n i w → Holds s.l1Dcache n i w' → w = w'
  l2 : ∀ n j u u', Holds s.l2Cache n j u → Holds s.l2Cache n j u' → u = u'

/-! ### Lines as a placement -/

/-- The line number kept at a location. -/
def lineAt (cache : Cache g) (loc : Fin g.lines × Fin g.ways) : Option ℕ :=
  (held cache loc).map Prod.fst

theorem lineAt_eq_some_iff {cache : Cache g} {i : Fin g.lines} {w : Fin g.ways} {n : ℕ} :
    lineAt cache (i, w) = some n ↔ Holds cache n i w := by
  rw [lineAt, Option.map_eq_some_iff]
  constructor
  · rintro ⟨⟨n', line⟩, hheld, rfl⟩
    exact (held_eq_some_iff.mp hheld).1
  · exact fun h => ⟨_, h.held, rfl⟩

/-- The lines of an L1 cache and of L2. -/
abbrev placement (l1 : Cache g) (l2 : Cache .l2Cache) :
    (Fin g.lines × Fin g.ways) ⊕ (Fin Geometry.l2Cache.lines × Fin Geometry.l2Cache.ways) →
      Option ℕ :=
  Sum.elim (lineAt l1) (lineAt l2)

theorem exclusiveData_iff {s : CacheState} :
    s.ExclusiveData ↔ Exclusive (placement s.l1Dcache s.l2Cache) := by
  constructor
  · rintro ⟨hlevels, hl1, hl2⟩ (⟨i, w⟩ | ⟨j, u⟩) (⟨i', w'⟩ | ⟨j', u'⟩) n h h'
    · have hw := lineAt_eq_some_iff.mp h
      have hw' := lineAt_eq_some_iff.mp h'
      obtain rfl := hw.index_eq hw'
      rw [hl1 n i w w' hw hw']
    · exact absurd (lineAt_eq_some_iff.mp h') (hlevels n i w j' u' (lineAt_eq_some_iff.mp h))
    · exact absurd (lineAt_eq_some_iff.mp h) (hlevels n i' w' j u (lineAt_eq_some_iff.mp h'))
    · have hu := lineAt_eq_some_iff.mp h
      have hu' := lineAt_eq_some_iff.mp h'
      obtain rfl := hu.index_eq hu'
      rw [hl2 n j u u' hu hu']
  · intro h
    have hplace : ∀ loc loc' n, placement s.l1Dcache s.l2Cache loc = some n →
        placement s.l1Dcache s.l2Cache loc' = some n → loc = loc' := h
    refine ⟨fun n i w j u hw hu => ?_, fun n i w w' hw hw' => ?_, fun n j u u' hu hu' => ?_⟩
    · exact Sum.inl_ne_inr
        (hplace (.inl (i, w)) (.inr (j, u)) n (lineAt_eq_some_iff.mpr hw)
          (lineAt_eq_some_iff.mpr hu))
    · exact congrArg Prod.snd (Sum.inl.inj
        (hplace (.inl (i, w)) (.inl (i, w')) n (lineAt_eq_some_iff.mpr hw)
          (lineAt_eq_some_iff.mpr hw')))
    · exact congrArg Prod.snd (Sum.inr.inj
        (hplace (.inr (j, u)) (.inr (j, u')) n (lineAt_eq_some_iff.mpr hu)
          (lineAt_eq_some_iff.mpr hu')))

/-- A way of a full set holds the line that its address is rebuilt for. -/
theorem lineAt_of_full {cache : Cache g} {i : Fin g.lines} (h : emptyWay (cache i) = none)
    (w : Fin g.ways) : lineAt cache (i, w) = some (lineOf (oldPhyAddr cache i w)) := by
  rw [lineAt_eq_some_iff]
  exact ⟨emptyWay_eq_none_iff.mp h w, (lineOf_recomputeOldPhyAddr _ _).symm⟩

/-- Contents that change at one location change the lines there. -/
theorem lineAt_of_held {cache cache' : Cache g} {loc : Fin g.lines × Fin g.ways}
    {x : Option (ℕ × Line)} (h : held cache' = update (held cache) loc x) :
    lineAt cache' = update (lineAt cache) loc (x.map Prod.fst) := by
  funext loc'
  rw [lineAt, h, update_apply, update_apply]
  split_ifs <;> rfl

/-! ### One access -/

/-- Inserting a line kept nowhere. -/
private theorem exclusive_insertAt {l1 : Cache g} {l2 : Cache .l2Cache} {phyAddr : BitVec 32}
    (h : Exclusive (placement l1 l2)) (hnew : ∀ loc, placement l1 l2 loc ≠ some (lineOf phyAddr))
    (line : Line) :
    Exclusive (placement (insertAt l1 phyAddr (cacheInitEntryWithParam g phyAddr line))
      (spill l1 l2 (extractLineIndex g phyAddr))) := by
  obtain ⟨w, hw⟩ := exists_insertWay (l1 (extractLineIndex g phyAddr))
  rw [placement, lineAt_of_held (held_insertAt line hw)]
  cases hempty : emptyWay (l1 (extractLineIndex g phyAddr)) with
  | some w' =>
    rw [spill_of_free hempty, ← Sum.update_elim_inl]
    exact h.update_some hnew _
  | none =>
    -- the victim moves to L2 and the new line takes its place
    have hvictim : victimWay (l1 (extractLineIndex g phyAddr)) = some w := by
      simpa [insertWay, hempty] using hw
    obtain ⟨u, hu⟩ := exists_insertWay
      (l2 (extractLineIndex .l2Cache (oldPhyAddr l1 (extractLineIndex g phyAddr) w)))
    rw [spill_of_full hempty hvictim, lineAt_of_held (held_insertAt _ hu)]
    exact h.replace_and_move (lineAt_of_full hempty w) hnew _

/-- An access that hits in L1 moves nothing there. -/
theorem lineAt_access_of_hit {l1 : Cache g} (l2 : Cache .l2Cache) {phyAddr : BitVec 32}
    {w : Fin g.ways} (h : lookup l1 phyAddr = some w) (line : Line) :
    lineAt (access l1 l2 phyAddr line).1 = lineAt l1 := by
  have hw := (lookup_eq_some_iff.mp h).1
  rw [access, h]
  change lineAt (setAt l1 phyAddr _) = _
  rw [lineAt_of_held (held_touch line hw), Option.map_some, ← lineAt_eq_some_iff.mpr hw,
    update_eq_self]

/-- **An access keeps the placement exclusive** if what it brings in from memory is not in L2
already. -/
theorem exclusive_access {l1 : Cache g} {l2 : Cache .l2Cache} {history : Fin g.lines → List ℕ}
    (hl1 : L1Ordered l1 history) {phyAddr : BitVec 32} (h : Exclusive (placement l1 l2))
    (hfound : lookup l1 phyAddr = none → lookup l2 phyAddr = none →
      ∀ u, ¬ Holds l2 (lineOf phyAddr) (extractLineIndex .l2Cache phyAddr) u) (line : Line) :
    Exclusive (placement (access l1 l2 phyAddr line).1 (access l1 l2 phyAddr line).2) := by
  cases h1 : lookup l1 phyAddr with
  | some w =>
    rwa [placement, access_snd_of_hit l2 h1, lineAt_access_of_hit l2 h1]
  | none =>
    rw [access, h1]
    have hnot1 : ∀ loc, lineAt l1 loc ≠ some (lineOf phyAddr) := fun loc hloc =>
      hl1.lookup_eq_none_iff.mp h1 _ _ (lineAt_eq_some_iff.mp hloc)
    cases h2 : lookup l2 phyAddr with
    | some u =>
      have hu : placement l1 l2 (.inr (extractLineIndex .l2Cache phyAddr, u)) =
          some (lineOf phyAddr) := lineAt_eq_some_iff.mpr (lookup_eq_some_iff.mp h2).1
      have hdrop : placement l1 (setAt l2 phyAddr
          (dropSet (l2 (extractLineIndex .l2Cache phyAddr)) u line)) =
          update (placement l1 l2) (.inr (extractLineIndex .l2Cache phyAddr, u)) none := by
        rw [placement, lineAt_of_held (held_drop l2 phyAddr u line), Option.map_none,
          Sum.update_elim_inr]
      refine exclusive_insertAt ?_ (fun loc => ?_) line
      · rw [hdrop]
        exact h.update_none _
      · rw [hdrop]
        exact h.update_none_ne hu loc
    | none =>
      -- brought in from memory: L2 must not hold it behind a hole
      refine exclusive_insertAt h ?_ line
      rintro (loc | ⟨j, u⟩) hloc
      · exact hnot1 loc hloc
      · have hu := lineAt_eq_some_iff.mp hloc
        obtain rfl := (holds_lineOf_iff.mp hu).1
        exact hfound h1 h2 u hu

/-- A line that both lookups miss but L2 holds is still there after the access: what falls into
its set fills the hole that hides it. -/
private theorem holds_l2_access {l1 : Cache g} {l2 : Cache .l2Cache} {phyAddr : BitVec 32}
    (h1 : lookup l1 phyAddr = none) (h2 : lookup l2 phyAddr = none)
    {u : Fin Geometry.l2Cache.ways}
    (hu : Holds l2 (lineOf phyAddr) (extractLineIndex .l2Cache phyAddr) u) (line : Line) :
    Holds (access l1 l2 phyAddr line).2 (lineOf phyAddr)
      (extractLineIndex .l2Cache phyAddr) u := by
  obtain ⟨hole, -, hhole⟩ := lookup_eq_none_iff.mp h2 u hu
  rw [access, h1, h2]
  change Holds (spill l1 l2 _) _ _ _
  cases hempty : emptyWay (l1 (extractLineIndex g phyAddr)) with
  | some w => rwa [spill_of_free hempty]
  | none =>
    obtain ⟨w, hw⟩ := exists_victimWay_of_full hempty
    obtain ⟨e, he⟩ := exists_insertWay
      (l2 (extractLineIndex .l2Cache (oldPhyAddr l1 (extractLineIndex g phyAddr) w)))
    have hne : (extractLineIndex .l2Cache phyAddr, u) ≠
        (extractLineIndex .l2Cache (oldPhyAddr l1 (extractLineIndex g phyAddr) w), e) := by
      -- the victim does not overwrite a valid way, since its set has a free one
      intro heq
      obtain ⟨hj, rfl⟩ := Prod.mk.inj heq
      rw [← hj] at he
      have hfree := insertWay_free he hhole
      rw [hu.1] at hfree
      cases hfree
    rw [spill_of_full hempty hw, ← lineAt_eq_some_iff, lineAt_of_held (held_insertAt _ he),
      update_of_ne hne]
    exact lineAt_eq_some_iff.mpr hu

/-! ### Runs -/

/-- The step condition: a line that neither lookup of the operation finds is not in L2. -/
def CacheState.FindsL2Copy (s : CacheState) (op : CacheOp) : Prop :=
  op.Aligned → lookup s.l1Dcache (phyToInt op.target) = none →
    lookup s.l2Cache (phyToInt op.target) = none →
      ∀ u, ¬ Holds s.l2Cache (lineOf (phyToInt op.target))
        (extractLineIndex .l2Cache (phyToInt op.target)) u

instance {g : Geometry} (cache : Cache g) (n : ℕ) (i : Fin g.lines) (w : Fin g.ways) :
    Decidable (Holds cache n i w) :=
  inferInstanceAs (Decidable (_ ∧ _))

instance (s : CacheState) (op : CacheOp) : Decidable (s.FindsL2Copy op) := by
  unfold CacheState.FindsL2Copy
  infer_instance

/-- A data operation places lines in L1 as its first access does. -/
private theorem lineAt_stepCommand {s : CacheState} {op : CacheOp}
    (hdata : op.access = .data) (ha : op.Aligned) :
    lineAt (stepCommand s op).l1Dcache =
      lineAt (access s.l1Dcache s.l2Cache (phyToInt op.target) (s.stored op)).1 := by
  cases op with
  | read access paddr =>
    obtain rfl : access = .data := hdata
    rw [stepCommand, executeCommand_read ha]
    rfl
  | readByte access paddr =>
    obtain rfl : access = .data := hdata
    rw [stepCommand, executeCommand_readByte]
    rfl
  | write paddr word =>
    rw [stepCommand, executeCommand_write ha]
    rfl
  | writeByte paddr byte =>
    rw [stepCommand, executeCommand_writeByte]
    obtain ⟨w, hw, -⟩ := lookup_access s.l1Dcache s.l2Cache (phyToInt (wordAligned paddr))
      (s.served .data (phyToInt (wordAligned paddr)))
    exact lineAt_access_of_hit _ hw _

/-- **One data operation** keeps the lines exclusive exactly when it meets the condition. -/
theorem exclusiveData_stepCommand {s : CacheState} (hs : s.L1Sound) (h : s.ExclusiveData)
    {op : CacheOp} (hdata : op.access = .data) :
    (stepCommand s op).ExclusiveData ↔ s.FindsL2Copy op := by
  by_cases ha : op.Aligned
  · obtain ⟨history, hl1⟩ := hs .data
    change L1Ordered s.l1Dcache history at hl1
    have hl2' := stepCommand_l2Cache s ha
    rw [hdata] at hl2'
    change _ = (access s.l1Dcache _ _ _).2 at hl2'
    rw [exclusiveData_iff, placement, lineAt_stepCommand hdata ha, hl2']
    constructor
    · -- else the line is in L1 now and still in L2
      intro hafter _ h1 h2 u hu
      obtain ⟨w, hw, -⟩ := lookup_access s.l1Dcache s.l2Cache (phyToInt op.target) (s.stored op)
      have hin1 := lineAt_eq_some_iff.mpr (lookup_eq_some_iff.mp hw).1
      have hin2 := lineAt_eq_some_iff.mpr (holds_l2_access h1 h2 hu (s.stored op))
      exact Sum.inl_ne_inr (hafter (.inl _) (.inr _) _ hin1 hin2)
    · intro hfound
      exact exclusive_access hl1 (exclusiveData_iff.mp h) (hfound ha) _
  · rw [stepCommand, executeCommand_unaligned ha]
    exact iff_of_true h fun h' => absurd h' ha

theorem exclusiveData_flushed (memSpace : Mem) : (flushed memSpace).ExclusiveData where
  levels _ _ _ _ _ h := absurd h.1 Bool.false_ne_true
  l1 _ _ _ _ h := absurd h.1 Bool.false_ne_true
  l2 _ _ _ _ h := absurd h.1 Bool.false_ne_true

/-- **The exclusive policy.** Along a run of data operations no line is ever cached twice
exactly when every operation that finds its line in neither cache is right that L2 does not
hold it. -/
theorem data_exclusive (memSpace : Mem) (ops : List CacheOp)
    (hdata : ∀ op ∈ ops, op.access = .data) :
    (∀ k, (runCommands (flushed memSpace) (ops.take k)).ExclusiveData) ↔
      StepsMeet stepCommand CacheState.FindsL2Copy (flushed memSpace) ops :=
  always_iff (fun _ op _ hs => l1Sound_stepCommand hs op)
    (fun _ op hop hs h => exclusiveData_stepCommand hs h (hdata op hop))
    (l1Sound_flushed memSpace) (exclusiveData_flushed memSpace)

/-- The line a promotion brings back is in one place. -/
theorem data_exclusive_promoted :
    (runCommands (flushed fun _ => 0)
      [.read .data (lineA 1), .read .data (lineB 1), .read .data (lineB 2),
        .read .data (lineB 3), .read .data (lineB 4), .write (lineA 1) 7]).ExclusiveData :=
  (data_exclusive _ [.read .data (lineA 1), .read .data (lineB 1), .read .data (lineB 2),
    .read .data (lineB 3), .read .data (lineB 4), .write (lineA 1) 7] (by decide)).mpr
      (by decide +kernel) 6

/-- A line is cached twice once it is read again behind the hole `holeRun` leaves. -/
theorem not_data_exclusive :
    ¬ ∀ (memSpace : Mem) (ops : List CacheOp),
      (∀ op ∈ ops, op.access = .data ∧ op.Aligned) →
        (runCommands (flushed memSpace) ops).ExclusiveData := by
  intro h
  have hexclusive := h (fun _ => 0) (holeRun ++ [.read .data (lineA 2)]) (by decide)
  exact hexclusive.levels (lineOf (phyToInt (lineA 2))) 0 3 0 1 (by decide +kernel)
    (by decide +kernel)

end MemoryHierarchy
