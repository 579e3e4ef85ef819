import MemoryHierarchy.Memory.Loader

/-!
# What a failing loader leaves behind

A loader that fails is to leave `*memory` null (`LoadResult.Freed`). Every exit of the loaders does
so but one: where the location of a translation page cannot be read, `*memory` is not freed
(`clean_readTable_iff`). So a call of `mem_init_from_description` keeps the promise exactly if the
loop over the translation pages only meets lines that start with a hexadecimal number
(`loaders_free_iff`); `Memory.Accepted` says which texts those are.
-/

namespace MemoryHierarchy

open Lib

/-- If the loader has failed, `*memory` is null. -/
def LoadResult.Freed (r : LoadResult) : Prop := r.err ≠ .errNone → r.memory = none

/-- A part of a loader that leaves nothing behind if it fails, and a state in `I` if it does not. -/
def Clean {α : Type*} (I : α → Prop) : Except LoadResult α → Prop
  | .error r => r.Freed
  | .ok a => I a

variable {env : LoadEnv} {s t : LoadState}

theorem clean_exitError {α : Type*} {I : α → Prop} (s : LoadState) (err : ErrorCode) :
    Clean I (.error (s.exitError err)) := fun _ => rfl

theorem clean_bind {α β : Type} {I : α → Prop} {J : β → Prop} {x : Except LoadResult α}
    {g : α → Except LoadResult β} (hx : Clean I x) (hg : ∀ a, I a → Clean J (g a)) :
    Clean J (x >>= g) := by
  rcases x with r | a
  · exact hx
  · exact hg a hx

/-- There is memory. -/
def LoadState.Allocated (s : LoadState) : Prop := s.memory ≠ none

theorem clean_readPage (s : LoadState) (addr : BitVec 64) (filename : Path) :
    Clean LoadState.Allocated (s.readPage env addr filename) := by
  rw [LoadState.readPage]
  split_ifs with herr
  · exact clean_exitError _ _
  · exact memory_ne_none_of_pageFileRead (not_not.mp herr)

/-! ### The header -/

theorem clean_readCapacity (hs : s.memory = none) :
    Clean LoadState.Allocated (readCapacity env s) := by
  rw [readCapacity]
  rcases fscanfUnsigned 10 s.f with ⟨_ | capacity, f⟩
  · intro _
    exact hs
  · dsimp only
    split_ifs
    · exact clean_exitError _ _
    · split
      · exact clean_exitError _ _
      · exact Option.some_ne_none _

theorem clean_readPgd (s : LoadState) : Clean LoadState.Allocated (readPgd env s) := by
  rw [readPgd]
  dsimp only
  split_ifs
  · exact clean_exitError _ _
  · split
    · exact clean_exitError _ _
    · exact clean_readPage _ _ _

theorem clean_readNbTables (hs : s.Allocated) :
    Clean (fun r => r.1.Allocated) (readNbTables s) := by
  rw [readNbTables]
  split
  · exact clean_exitError _ _
  · exact hs

/-- **The header** leaves nothing behind if it fails. -/
theorem clean_readHeader (env : LoadEnv) (file : Option File) (memCapacityInBytes : BitVec 64) :
    Clean (fun r => r.1.Allocated) (readHeader env file none memCapacityInBytes) := by
  rcases file with _ | f
  · exact fun _ => rfl
  · exact clean_bind (clean_readCapacity rfl) fun s _ =>
      clean_bind (clean_readPgd s) fun s hs => clean_readNbTables hs

/-! ### The translation pages -/

/-- **One line** leaves nothing behind exactly if a location can be read. -/
theorem clean_readTable_iff (env : LoadEnv) (i : ℕ) (hs : s.Allocated) :
    Clean LoadState.Allocated (readTable env i s) ↔ (fscanfUnsigned 16 s.f).1 ≠ none := by
  rw [readTable]
  rcases fscanfUnsigned 16 s.f with ⟨_ | location, f⟩
  · refine iff_of_false (fun hclean => hs (hclean ?_)) (not_not_intro rfl)
    exact ErrorCode.noConfusion
  · refine iff_of_true ?_ (Option.some_ne_none _)
    dsimp only
    split_ifs
    · exact clean_exitError _ _
    · split
      · exact clean_exitError _ _
      · exact clean_readPage _ _ _

/-- A line that has been read starts with a location. -/
theorem location_of_readTable {i : ℕ} (h : readTable env i s = .ok t) :
    (fscanfUnsigned 16 s.f).1 ≠ none := by
  intro hnone
  rw [readTable] at h
  rcases hscan : fscanfUnsigned 16 s.f with ⟨_ | location, f⟩
  · rw [hscan] at h
    cases h
  · rw [hscan] at hnone
    cases hnone

/-- **The loop** leaves nothing behind exactly if a location can be read in every pass. -/
theorem clean_tablesLoop_iff (env : LoadEnv) (nbTables : ℕ) (hs : s.Allocated) :
    Clean (fun _ => True) (tablesLoop env nbTables (s, 0)) ↔
      ∀ t, Reaches (tablePass env nbTables) (s, 0) t → t.2 < nbTables →
        (fscanfUnsigned 16 t.1.f).1 ≠ none := by
  refine (loop_iff (I := fun s => s.1.Allocated) (P := fun _ => True)
    (C := fun s => s.2 < nbTables → (fscanfUnsigned 16 s.1.f).1 ≠ none)
    (Q := Clean fun _ => True) (fun s t hs hpass => ?_) (fun s result hs hpass => ?_)
    hs).trans (iff_of_eq (true_and _))
  · rw [tablePass] at hpass
    split_ifs at hpass
    rcases hread : readTable env s.2 s.1 with r | u
    · rw [hread] at hpass
      cases hpass
    · rw [hread] at hpass
      cases hpass
      have hlocation := location_of_readTable hread
      have hclean := (clean_readTable_iff env s.2 hs).mpr hlocation
      rw [hread] at hclean
      exact ⟨hclean, iff_of_true trivial ⟨trivial, fun _ => hlocation⟩⟩
  · rw [tablePass] at hpass
    split_ifs at hpass with hlt
    · rcases hread : readTable env s.2 s.1 with r | u
      · rw [hread] at hpass
        cases hpass
        have hiff := clean_readTable_iff env s.2 hs
        rw [hread] at hiff
        refine hiff.trans ?_
        simp [hlt]
      · rw [hread] at hpass
        cases hpass
    · cases hpass
      exact iff_of_true trivial ⟨trivial, fun h => absurd h hlt⟩

/-! ### The data pages -/

theorem freed_of_readData {virtaddr : ℕ} {filename : Path} {r : LoadResult}
    (h : readData env s virtaddr filename = .error r) : r.Freed := by
  have hclean : Clean LoadState.Allocated (readData env s virtaddr filename) := by
    rw [readData]
    split
    · exact clean_exitError _ _
    · exact clean_exitError _ _
    · split
      · exact clean_exitError _ _
      · exact clean_readPage _ _ _
  rwa [h] at hclean

/-- **The loop** over the data pages leaves nothing behind if it fails. -/
theorem freed_dataLoop (env : LoadEnv) (s : LoadState) : (dataLoop env s).Freed := by
  refine loop_of_invariant (I := fun _ => True) (Q := LoadResult.Freed)
    (fun _ _ _ _ => trivial) (fun s r _ hpass => ?_) trivial
  have hdone : ∀ s : LoadState, (s.exit .errNone).Freed := fun s hne => absurd rfl hne
  rw [dataPass] at hpass
  split at hpass
  · cases hpass
    exact hdone _
  · dsimp only at hpass
    split_ifs at hpass
    · cases hpass
      exact hdone _
    · cases hpass
      exact hdone _
    · cases hpass
      exact fun _ => rfl
    · cases hpass
      exact fun _ => rfl
    · cases hpass
      exact hdone _
    · split at hpass
      · next hread =>
        cases hpass
        exact freed_of_readData hread
      · cases hpass

/-! ### Both loaders -/

/-- **Dump files** leave nothing behind. -/
theorem freed_memInitFromDumpfile (env : LoadEnv) (file : Option (BitVec 64 × List Byte))
    (memCapacityInBytes : BitVec 64) :
    (memInitFromDumpfile env file none memCapacityInBytes).Freed := by
  rcases file with _ | ⟨ftell, content⟩
  · exact fun _ => rfl
  · rw [memInitFromDumpfile]
    split_ifs
    · exact fun _ => rfl
    · split
      · exact fun _ => rfl
      · dsimp only
        split_ifs
        · exact fun _ => rfl
        · exact fun hne => absurd rfl hne

/-- **Descriptions** leave nothing behind exactly if the loop over the translation pages does not:
the loop over the data pages frees the memory whenever it fails. -/
theorem freed_memInitFromDescription_iff (env : LoadEnv) (file : Option File)
    (memCapacityInBytes : BitVec 64) :
    (memInitFromDescription env file none memCapacityInBytes).Freed ↔
      ∀ s nbTables, readHeader env file none memCapacityInBytes = .ok (s, nbTables) →
        Clean (fun _ => True) (tablesLoop env nbTables (s, 0)) := by
  rw [memInitFromDescription]
  have hheader := clean_readHeader env file memCapacityInBytes
  rcases hread : readHeader env file none memCapacityInBytes with r | ⟨s, nbTables⟩
  · rw [hread] at hheader
    refine iff_of_true hheader fun s n heq => ?_
    cases heq
  · have hloops : Clean (fun _ => True) (tablesLoop env nbTables (s, 0)) ↔
        ∀ s' n, Except.ok (s, nbTables) = (.ok (s', n) : Except LoadResult _) →
          Clean (fun _ => True) (tablesLoop env n (s', 0)) := by
      refine ⟨fun h s' n heq => ?_, fun h => h s nbTables rfl⟩
      cases heq
      exact h
    refine Iff.trans ?_ hloops
    dsimp only
    rcases tablesLoop env nbTables (s, 0) with r | t
    · exact Iff.rfl
    · exact iff_of_true (freed_dataLoop env t) trivial

/-- **Failing loaders leave no memory behind** exactly if, in the loop over the translation pages
of a description, every pass finds a location to read. -/
theorem loaders_free_iff (env : LoadEnv) (file : Option File) (memCapacityInBytes : BitVec 64)
    (dump : Option (BitVec 64 × List Byte)) :
    ((memInitFromDescription env file none memCapacityInBytes).Freed ∧
      (memInitFromDumpfile env dump none memCapacityInBytes).Freed) ↔
    ∀ s nbTables, readHeader env file none memCapacityInBytes = .ok (s, nbTables) →
      ∀ t, Reaches (tablePass env nbTables) (s, 0) t → t.2 < nbTables →
        (fscanfUnsigned 16 t.1.f).1 ≠ none := by
  rw [and_iff_left (freed_memInitFromDumpfile env dump memCapacityInBytes),
    freed_memInitFromDescription_iff]
  refine forall₃_congr fun s nbTables hread => clean_tablesLoop_iff env nbTables ?_
  have hheader := clean_readHeader env file memCapacityInBytes
  rwa [hread] at hheader

/-- A capacity of one page, a page directory, one translation page, and the end of the file. -/
def withoutTables : List Byte :=
  [ch '4', ch '0', ch '9', ch '6', ch '\n', ch 'd', ch '\n', ch '1', ch '\n']

/-- The location of the translation page cannot be read, and the memory is left allocated. -/
theorem not_loaders_free :
    ¬ ∀ (env : LoadEnv) (file : Option File) (memCapacityInBytes : BitVec 64)
      (dump : Option (BitVec 64 × List Byte)),
      (memInitFromDescription env file none memCapacityInBytes).Freed ∧
        (memInitFromDumpfile env dump none memCapacityInBytes).Freed := by
  intro h
  have hfreed := (h ⟨fun _ => some (List.replicate pageSize 0), some fun _ => 0, fun _ => []⟩
    (some (File.open withoutTables)) 0 none).1
  have hnull := hfreed (by decide +kernel)
  rw [← Option.isNone_iff_eq_none] at hnull
  revert hnull
  decide +kernel

end MemoryHierarchy
