import MemoryHierarchy.Memory.Failures

/-!
# Loading with success

What a loader means by `ERR_NONE`: there is memory. Every part of `mem_init_from_description` that
goes on has allocated it, and every part that leaves early does so with an error of its own; the
loop over the data pages keeps this, since it loses the memory only with an error.
-/

namespace MemoryHierarchy

open Lib

/-- If the loader reports no error, there is memory. -/
def LoadResult.Loaded (r : LoadResult) : Prop := r.err = .errNone → r.memory ≠ none

/-- A part of a loader that reports its error if it fails, and a state in `I` if it does not. -/
def Reported {α : Type*} (I : α → Prop) : Except LoadResult α → Prop
  | .error r => r.err ≠ .errNone
  | .ok a => I a

variable {env : LoadEnv} {s : LoadState}

theorem reported_exit {α : Type*} {I : α → Prop} (s : LoadState) {err : ErrorCode}
    (h : err ≠ .errNone) : Reported I (.error (s.exit err)) := h

theorem reported_exitError {α : Type*} {I : α → Prop} (s : LoadState) {err : ErrorCode}
    (h : err ≠ .errNone) : Reported I (.error (s.exitError err)) := h

theorem reported_bind {α β : Type} {I : α → Prop} {J : β → Prop} {x : Except LoadResult α}
    {g : α → Except LoadResult β} (hx : Reported I x) (hg : ∀ a, I a → Reported J (g a)) :
    Reported J (x >>= g) := by
  rcases x with r | a
  · exact hx
  · exact hg a hx

theorem reported_readPage (s : LoadState) (addr : BitVec 64) (filename : Path) :
    Reported LoadState.Allocated (s.readPage env addr filename) := by
  rw [LoadState.readPage]
  split_ifs with herr
  · exact reported_exitError _ herr
  · exact memory_ne_none_of_pageFileRead (not_not.mp herr)

/-! ### The header -/

theorem reported_readCapacity (env : LoadEnv) (s : LoadState) :
    Reported LoadState.Allocated (readCapacity env s) := by
  rw [readCapacity]
  rcases fscanfUnsigned 10 s.f with ⟨_ | capacity, f⟩
  · exact reported_exit _ (by decide)
  · dsimp only
    split_ifs
    · exact reported_exitError _ (by decide)
    · split
      · exact reported_exitError _ (by decide)
      · exact Option.some_ne_none _

theorem reported_readPgd (s : LoadState) : Reported LoadState.Allocated (readPgd env s) := by
  rw [readPgd]
  dsimp only
  split_ifs
  · exact reported_exitError _ (by decide)
  · split
    · exact reported_exitError _ (by decide)
    · exact reported_readPage _ _ _

theorem reported_readNbTables (hs : s.Allocated) :
    Reported (fun x : LoadState × ℕ => x.1.Allocated) (readNbTables s) := by
  rw [readNbTables]
  rcases fscanfUnsigned 10 s.f with ⟨_ | nbTables, f⟩
  · exact reported_exitError _ (by decide)
  · exact hs

theorem reported_readHeader (env : LoadEnv) (file : Option File) (memory : Option ByteMem)
    (memCapacityInBytes : BitVec 64) :
    Reported (fun x : LoadState × ℕ => x.1.Allocated)
      (readHeader env file memory memCapacityInBytes) := by
  rcases file with _ | f
  · exact ne_of_beq_false rfl
  · exact reported_bind (reported_readCapacity env _) fun s _ =>
      reported_bind (reported_readPgd s) fun t ht => reported_readNbTables ht

/-! ### The loops -/

theorem reported_readTable (env : LoadEnv) (i : ℕ) (s : LoadState) :
    Reported LoadState.Allocated (readTable env i s) := by
  rw [readTable]
  rcases fscanfUnsigned 16 s.f with ⟨_ | location, f⟩
  · exact reported_exit _ (by decide)
  · dsimp only
    split_ifs
    · exact reported_exitError _ (by decide)
    · split
      · exact reported_exitError _ (by decide)
      · exact reported_readPage _ _ _

theorem reported_tablesLoop (env : LoadEnv) (nbTables : ℕ) (hs : s.Allocated) :
    Reported LoadState.Allocated (tablesLoop env nbTables (s, 0)) := by
  refine loop_of_invariant (I := fun x : LoadState × ℕ => x.1.Allocated)
    (Q := Reported LoadState.Allocated) (fun x y _ hpass => ?_) (fun x r hx hpass => ?_) hs
  · have hread := reported_readTable env x.2 x.1
    rw [tablePass] at hpass
    split_ifs at hpass
    split at hpass
    · cases hpass
    · next heq =>
      cases hpass
      rwa [heq] at hread
  · have hread := reported_readTable env x.2 x.1
    rw [tablePass] at hpass
    split_ifs at hpass
    · split at hpass
      · next heq =>
        cases hpass
        rwa [heq] at hread
      · cases hpass
    · cases hpass
      exact hx

theorem reported_readData (env : LoadEnv) (s : LoadState) (virtaddr : ℕ) (filename : Path) :
    Reported LoadState.Allocated (readData env s virtaddr filename) := by
  rw [readData, initVirtAddr64_eq]
  rcases s.memory with _ | bytes
  · exact reported_exitError _ (by decide)
  · dsimp only
    rw [pageWalk_eq]
    exact reported_readPage _ _ _

theorem loaded_exitError (s : LoadState) {err : ErrorCode} (h : err ≠ .errNone) :
    (s.exitError err).Loaded := fun hnone => absurd hnone h

/-- **The loop** over the data pages leaves its memory, or an error. -/
theorem loaded_dataLoop (env : LoadEnv) (hs : s.Allocated) : (dataLoop env s).Loaded := by
  refine loop_of_invariant (I := LoadState.Allocated) (Q := LoadResult.Loaded)
    (fun s t hs hpass => ?_) (fun s r hs hpass => ?_) hs
  · rw [dataPass] at hpass
    split at hpass
    · cases hpass
    · dsimp only at hpass
      split_ifs at hpass
      have hread := reported_readData env
        { s with f := (readToken Loader.maxSizeBuffer
            (readToken Loader.maxSizeBuffer s.f).input).input }
        (strtoull16 (cString (readToken Loader.maxSizeBuffer s.f).buffer)).1
        (cString (readToken Loader.maxSizeBuffer
          (readToken Loader.maxSizeBuffer s.f).input).buffer.dropLast)
      split at hpass
      · cases hpass
      · next heq =>
        cases hpass
        rwa [heq] at hread
  · rw [dataPass] at hpass
    split at hpass
    · cases hpass
      exact fun _ => hs
    · dsimp only at hpass
      split_ifs at hpass with _ _ _ herr
      · cases hpass
        exact fun _ => hs
      · cases hpass
        exact fun _ => hs
      · cases hpass
        exact loaded_exitError _ (by decide)
      · cases hpass
        exact loaded_exitError _ herr
      · cases hpass
        exact fun _ => hs
      · have hread := reported_readData env
          { s with f := (readToken Loader.maxSizeBuffer
              (readToken Loader.maxSizeBuffer s.f).input).input }
          (strtoull16 (cString (readToken Loader.maxSizeBuffer s.f).buffer)).1
          (cString (readToken Loader.maxSizeBuffer
            (readToken Loader.maxSizeBuffer s.f).input).buffer.dropLast)
        split at hpass
        · next heq =>
          cases hpass
          rw [heq] at hread
          exact fun hnone => absurd hnone hread
        · cases hpass

/-! ### Both loaders -/

theorem loaded_memInitFromDumpfile (env : LoadEnv) (file : Option (BitVec 64 × List Byte))
    (memory : Option ByteMem) (memCapacityInBytes : BitVec 64) :
    (memInitFromDumpfile env file memory memCapacityInBytes).Loaded := by
  have hfails : ∀ err : ErrorCode, err ≠ .errNone → ∀ m c, LoadResult.Loaded ⟨err, m, c⟩ :=
    fun _ herr _ _ hnone => absurd hnone herr
  rcases file with _ | ⟨ftell, content⟩
  · exact hfails _ (by decide) _ _
  · rw [memInitFromDumpfile]
    split_ifs
    · exact hfails _ (by decide) _ _
    · split
      · exact hfails _ (by decide) _ _
      · dsimp only
        split_ifs
        · exact hfails _ (by decide) _ _
        · exact fun _ => Option.some_ne_none _

theorem loaded_memInitFromDescription (env : LoadEnv) (file : Option File)
    (memory : Option ByteMem) (memCapacityInBytes : BitVec 64) :
    (memInitFromDescription env file memory memCapacityInBytes).Loaded := by
  rw [memInitFromDescription]
  have hheader := reported_readHeader env file memory memCapacityInBytes
  rcases hread : readHeader env file memory memCapacityInBytes with r | ⟨s, nbTables⟩
  · rw [hread] at hheader
    exact fun hnone => absurd hnone hheader
  · rw [hread] at hheader
    have htables := reported_tablesLoop env nbTables hheader
    dsimp only
    rcases hloop : tablesLoop env nbTables (s, 0) with r | t
    · rw [hloop] at htables
      exact fun hnone => absurd hnone htables
    · rw [hloop] at htables
      exact loaded_dataLoop env htables

end MemoryHierarchy
