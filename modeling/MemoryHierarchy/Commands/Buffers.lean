import MemoryHierarchy.Commands.Checked
import MemoryHierarchy.Commands.Grammar
import Mathlib.Data.List.DropRight

/-!
# The token buffers of the parser

The tokenizer stores at most `MAX_SIZE_BUFFER` characters, so it stays in its buffer; but its
callers write a terminator behind the token. The limits for types and values leave room for it,
that for addresses does not: an address of sixteen characters and its newline fill the buffer, and
the terminator is written past its end. `token_buffers_iff` says that this is the only such access.
Among the texts that are read without an error, those with such an address are meant, that is with a
line whose last word is too long (`accesses_programRead_iff_lines`). With one more character there
is room for the terminator (`programReadIn_of_lt`).
-/

namespace MemoryHierarchy

open Lib Lib.Traced

/-- An index inside a token buffer. -/
abbrev InBuffer (i : ℕ) : Prop := i < maxSizeBuffer

/-- A token for an address that fills the buffer. -/
def FullAddress (token : List Byte) : Prop :=
  ∃ digits, token = [ch '@', ch '0', ch 'x'] ++ digits ++ [ch '\n'] ∧ digits.length = 16

/-- A token for the type of a command. -/
def IsType (token : List Byte) : Prop := ∃ type size, (token, type, size) ∈ typeWords

/-- A token for a value. -/
def IsValue (token : List Byte) : Prop :=
  ∃ digits, token = [ch '0', ch 'x'] ++ digits ∧ 2 ≤ digits.length ∧ digits.length ≤ 9 ∧
    ∀ d ∈ digits, IsHex d

/-- The stream starts with a command whose address fills the buffer. -/
def Overruns (input : File) : Prop :=
  (nextToken input = [ch 'R'] ∧ IsType (nextToken (afterToken input)) ∧
    FullAddress (nextToken (afterToken (afterToken input)))) ∨
  (nextToken input = [ch 'W'] ∧ IsType (nextToken (afterToken input)) ∧
    IsValue (nextToken (afterToken (afterToken input))) ∧
    FullAddress (nextToken (afterToken (afterToken (afterToken input)))))

variable {f : File} {command : Command} {buffer : List Byte}

theorem accessesIn_readUntilNextWhiteSpace : AccessesIn InBuffer readUntilNextWhiteSpace f := by
  rcases Nat.lt_or_ge maxSizeBuffer (nextToken f).length with hlong | hfits
  · intro i hi
    rw [readUntilNextWhiteSpace, (readToken_err hlong).2] at hi
    exact List.mem_range.mp hi
  · intro i hi
    rw [readUntilNextWhiteSpace, readToken_eq hfits] at hi
    exact (List.mem_range.mp hi).trans_le hfits

theorem accessesIn_requireChar {P : ℕ → Prop} {i : ℕ} {c : Byte} (hi : P i) :
    AccessesIn P (requireChar buffer i c) f :=
  accessesIn_bind.mpr ⟨accessesIn_touch.mpr hi, fun _ _ _ => accessesIn_require⟩

theorem accessesIn_padWithBlanks {padding : ℕ} (hpadding : padding ≤ maxSizeBuffer) :
    AccessesIn InBuffer (padWithBlanks buffer padding) f :=
  accessesIn_bind.mpr ⟨fun _ hi => (List.mem_range.mp hi).trans_le hpadding,
    fun _ _ _ => accessesIn_pure⟩

theorem accessesIn_isHexString {start length : ℕ} (hlength : length ≤ maxSizeBuffer) :
    AccessesIn InBuffer (isHexString buffer start length) f := by
  refine accessesIn_testAll fun i hi => ?_
  obtain ⟨hle, hlt⟩ := List.mem_range'_1.mp hi
  omega

theorem accessesIn_handleTypeSize : AccessesIn InBuffer (handleTypeSize command) f := by
  simp only [handleTypeSize, accessesIn_bind]
  refine ⟨accessesIn_readUntilNextWhiteSpace, fun w _ _ => ⟨accessesIn_require,
    fun _ _ hrequire => ?_⟩⟩
  have hs : InBuffer w.length := (yields_require.mp hrequire).1.1.trans_lt (by decide)
  refine ⟨accessesIn_touch.mpr hs, fun _ _ _ => ?_⟩
  split_ifs <;> simp [accessesIn_bind, hs]

theorem accessesIn_handleWriteData : AccessesIn InBuffer (handleWriteData command) f := by
  simp only [handleWriteData, accessesIn_bind]
  refine ⟨accessesIn_readUntilNextWhiteSpace, fun w _ _ => ⟨accessesIn_require,
    fun _ _ hrequire => ?_⟩⟩
  have hs : InBuffer w.length := (yields_require.mp hrequire).1.2.trans_lt (by decide)
  exact ⟨accessesIn_requireChar (by decide), fun _ _ _ => ⟨accessesIn_requireChar (by decide),
    fun _ _ _ => ⟨accessesIn_padWithBlanks (by decide), fun _ _ _ => ⟨accessesIn_touch.mpr hs,
    fun _ _ _ => ⟨accessesIn_isHexString hs.le, fun _ _ _ => ⟨accessesIn_require,
    fun _ _ _ => ⟨accessesIn_require, fun _ _ _ => accessesIn_pure⟩⟩⟩⟩⟩⟩⟩

/-- **The address**: the accesses are in the buffer, but for the terminator behind a token that
passes the tests on its ends. -/
theorem accessesIn_handleVirtAddr_of {P : ℕ → Prop} (hbuffer : ∀ i, InBuffer i → P i)
    (hend : ∀ digits, nextToken f = [ch '@', ch '0', ch 'x'] ++ digits ++ [ch '\n'] →
      digits.length ≤ 16 → P (nextToken f).length) :
    AccessesIn P (handleVirtAddr command) f := by
  simp only [handleVirtAddr, accessesIn_bind]
  refine ⟨accessesIn_readUntilNextWhiteSpace.mono hbuffer, fun w _ hread => ⟨accessesIn_require,
    fun _ _ hrequire => ⟨accessesIn_requireChar (hbuffer 0 (by decide)), fun _ _ h0 =>
    ⟨accessesIn_requireChar (hbuffer 1 (by decide)), fun _ _ h1 =>
    ⟨accessesIn_requireChar (hbuffer 2 (by decide)), fun _ _ h2 => ?_⟩⟩⟩⟩⟩
  have hrange := (yields_require.mp hrequire).1
  have hlast : InBuffer (w.length - 1) := by
    have hmax := hrange.2
    simp only [InBuffer, virtAddrMaxLength, maxSizeBuffer] at hmax ⊢
    omega
  refine ⟨accessesIn_requireChar (hbuffer _ hlast), fun _ _ hnl =>
    ⟨(accessesIn_padWithBlanks (by decide)).mono hbuffer, fun _ _ _ => ?_⟩⟩
  obtain ⟨digits, hw, hlength⟩ := virtAddr_shape.mp ⟨hrange, (yields_requireChar.mp h0).1,
    (yields_requireChar.mp h1).1, (yields_requireChar.mp h2).1, (yields_requireChar.mp hnl).1⟩
  obtain ⟨rfl, -, -⟩ := yields_readUntilNextWhiteSpace.mp hread
  exact ⟨accessesIn_touch.mpr (hend digits hw hlength), fun _ _ _ =>
    ⟨(accessesIn_isHexString hlast.le).mono hbuffer, fun _ _ _ => ⟨accessesIn_require,
    fun _ _ _ => ⟨accessesIn_require, fun _ _ _ => by
      simp only [initVirtAddr64_eq, accessesIn_pure]⟩⟩⟩⟩

/-- The terminator is in the buffer unless the token fills it. -/
theorem accessesIn_handleVirtAddr :
    AccessesIn InBuffer (handleVirtAddr command) f ↔ ¬ FullAddress (nextToken f) := by
  constructor
  · simp only [handleVirtAddr, accessesIn_bind]
    rintro ⟨-, h⟩ ⟨digits, hw, hlength⟩
    obtain ⟨hrange, h0, h1, h2, hlast⟩ := virtAddr_shape.mpr ⟨digits, hw, hlength.le⟩
    have hs : (nextToken f).length = maxSizeBuffer := by
      rw [hw]
      simp [hlength]
    -- the tests pass, so the terminator is written
    obtain ⟨-, h⟩ := h _ _ (yields_readUntilNextWhiteSpace.mpr ⟨rfl, rfl, hrange.2⟩)
    obtain ⟨-, h⟩ := h () _ (yields_require.mpr ⟨hrange, rfl⟩)
    obtain ⟨-, h⟩ := h () _ (yields_requireChar.mpr ⟨h0, rfl⟩)
    obtain ⟨-, h⟩ := h () _ (yields_requireChar.mpr ⟨h1, rfl⟩)
    obtain ⟨-, h⟩ := h () _ (yields_requireChar.mpr ⟨h2, rfl⟩)
    obtain ⟨-, h⟩ := h () _ (yields_requireChar.mpr ⟨hlast, rfl⟩)
    obtain ⟨h, -⟩ := h _ _ (yields_padWithBlanks.mpr ⟨rfl, rfl⟩)
    exact absurd (accessesIn_touch.mp h) (by rw [hs]; exact lt_irrefl _)
  · intro hfull
    refine accessesIn_handleVirtAddr_of (fun _ hi => hi) fun digits hw hlength => ?_
    have hne : digits.length ≠ 16 := fun h16 => hfull ⟨digits, hw, h16⟩
    rw [hw]
    simp only [List.length_append, List.length_cons, List.length_nil, InBuffer, maxSizeBuffer]
    omega

theorem accessesIn_handleRead : AccessesIn InBuffer (handleRead command) f ↔
    ¬ (IsType (nextToken f) ∧ FullAddress (nextToken (afterToken f))) := by
  rw [handleRead, accessesIn_bind]
  constructor
  · rintro ⟨-, h⟩ ⟨⟨type, size, htype⟩, hfull⟩
    have haddr := h _ _ (yields_handleTypeSize.mpr ⟨rfl, type, size, htype, rfl⟩)
    exact accessesIn_handleVirtAddr.mp haddr hfull
  · intro hfull
    refine ⟨accessesIn_handleTypeSize, fun c f₁ htype => ?_⟩
    obtain ⟨rfl, type, size, hword, -⟩ := yields_handleTypeSize.mp htype
    exact accessesIn_handleVirtAddr.mpr fun h => hfull ⟨⟨type, size, hword⟩, h⟩

theorem accessesIn_handleWrite : AccessesIn InBuffer (handleWrite command) f ↔
    ¬ (IsType (nextToken f) ∧ IsValue (nextToken (afterToken f)) ∧
      FullAddress (nextToken (afterToken (afterToken f)))) := by
  rw [handleWrite, accessesIn_bind]
  constructor
  · rintro ⟨-, h⟩ ⟨⟨type, size, htype⟩, ⟨digits, hdata⟩, hfull⟩
    obtain ⟨-, h⟩ := accessesIn_bind.mp
      (h _ _ (yields_handleTypeSize.mpr ⟨rfl, type, size, htype, rfl⟩))
    have haddr := h _ _ (yields_handleWriteData.mpr
      ⟨rfl, digits, hdata.1, hdata.2.1, hdata.2.2.1, hdata.2.2.2, rfl⟩)
    exact accessesIn_handleVirtAddr.mp haddr hfull
  · intro hfull
    refine ⟨accessesIn_handleTypeSize, fun c f₁ htype =>
      accessesIn_bind.mpr ⟨accessesIn_handleWriteData, fun c f₂ hdata => ?_⟩⟩
    obtain ⟨rfl, type, size, hword, -⟩ := yields_handleTypeSize.mp htype
    obtain ⟨rfl, digits, hvalue, hmin, hmax, hdigits, -⟩ := yields_handleWriteData.mp hdata
    exact accessesIn_handleVirtAddr.mpr fun h =>
      hfull ⟨⟨type, size, hword⟩, ⟨digits, hvalue, hmin, hmax, hdigits⟩, h⟩

/-- In any case the terminator is written to the first character behind the buffer at most. -/
theorem accessesIn_handleVirtAddr_le :
    AccessesIn (· ≤ maxSizeBuffer) (handleVirtAddr command) f := by
  refine accessesIn_handleVirtAddr_of (fun _ hi => hi.le) fun digits hw hlength => ?_
  rw [hw]
  simp only [List.length_append, List.length_cons, List.length_nil, maxSizeBuffer]
  omega

/-- So does a whole command. -/
theorem accessesIn_readCommand_le :
    AccessesIn (· ≤ maxSizeBuffer) (readCommand command) f := by
  have hle : ∀ i, InBuffer i → i ≤ maxSizeBuffer := fun _ hi => hi.le
  have htype : ∀ {command} {f : File},
      AccessesIn (· ≤ maxSizeBuffer) (handleTypeSize command) f :=
    accessesIn_handleTypeSize.mono hle
  have haddr : ∀ {command} {f : File},
      AccessesIn (· ≤ maxSizeBuffer) (handleVirtAddr command) f := accessesIn_handleVirtAddr_le
  simp only [readCommand, accessesIn_bind]
  refine ⟨accessesIn_readUntilNextWhiteSpace.mono hle, fun w _ _ => ⟨accessesIn_require,
    fun _ _ _ => ⟨accessesIn_touch.mpr (by decide), fun _ _ _ => ?_⟩⟩⟩
  split_ifs
  · exact accessesIn_bind.mpr ⟨accessesIn_bind.mpr ⟨htype, fun _ _ _ => haddr⟩,
      fun _ _ _ => accessesIn_pure⟩
  · refine accessesIn_bind.mpr ⟨accessesIn_bind.mpr ⟨htype, fun _ _ _ =>
      accessesIn_bind.mpr ⟨accessesIn_handleWriteData.mono hle, fun _ _ _ => haddr⟩⟩,
      fun _ _ _ => accessesIn_pure⟩
  · exact accessesIn_pure
  · exact accessesIn_fail

/-- **One command** is parsed inside the buffers exactly when it does not overrun one. -/
theorem accessesIn_readCommand :
    AccessesIn InBuffer (readCommand command) f ↔ ¬ Overruns f := by
  simp only [readCommand, accessesIn_bind]
  constructor
  · rintro ⟨-, h⟩ (⟨hR, htype, hfull⟩ | ⟨hW, htype, hdata, hfull⟩)
    · obtain ⟨-, h⟩ := h _ _ (yields_readUntilNextWhiteSpace.mpr ⟨rfl, rfl, by rw [hR]; decide⟩)
      obtain ⟨-, h⟩ := h () _ (yields_require.mpr ⟨by rw [hR]; rfl, rfl⟩)
      have hrest := h () _ (yields_touch.mpr rfl)
      rw [if_pos (by rw [hR]; rfl), accessesIn_bind] at hrest
      exact accessesIn_handleRead.mp hrest.1 ⟨htype, hfull⟩
    · obtain ⟨-, h⟩ := h _ _ (yields_readUntilNextWhiteSpace.mpr ⟨rfl, rfl, by rw [hW]; decide⟩)
      obtain ⟨-, h⟩ := h () _ (yields_require.mpr ⟨by rw [hW]; rfl, rfl⟩)
      have hrest := h () _ (yields_touch.mpr rfl)
      rw [if_neg (by rw [hW]; decide), if_pos (by rw [hW]; rfl), accessesIn_bind] at hrest
      exact accessesIn_handleWrite.mp hrest.1 ⟨htype, hdata, hfull⟩
  · intro hover
    refine ⟨accessesIn_readUntilNextWhiteSpace, fun w f₁ hread => ⟨accessesIn_require,
      fun _ f₂ hrequire => ⟨accessesIn_touch.mpr (by decide), fun _ f₃ htouch => ?_⟩⟩⟩
    obtain ⟨rfl, rfl, -⟩ := yields_readUntilNextWhiteSpace.mp hread
    obtain ⟨hlength, rfl⟩ := yields_require.mp hrequire
    obtain rfl := yields_touch.mp htouch
    obtain ⟨c, hc⟩ := List.length_eq_one_iff.mp hlength
    have hfirst : ∀ d : Byte, (nextToken f)[0]? = some d → nextToken f = [d] := by
      intro d hd
      rw [hc] at hd ⊢
      exact congrArg (fun c => [c]) (Option.some.inj hd)
    split_ifs with hR hW hEof
    · exact accessesIn_bind.mpr ⟨accessesIn_handleRead.mpr fun h =>
        hover (.inl ⟨hfirst _ hR, h⟩), fun _ _ _ => accessesIn_pure⟩
    · exact accessesIn_bind.mpr ⟨accessesIn_handleWrite.mpr fun h =>
        hover (.inr ⟨hfirst _ hW, h⟩), fun _ _ _ => accessesIn_pure⟩
    · exact accessesIn_pure
    · exact accessesIn_fail

/-! ### A whole program -/

section Program

variable {realloc : ℕ → ℕ → Realloc} {s t : ReadState} {P : ℕ → Prop}

/-- What a result of the loop logged. -/
private def ResultIn (P : ℕ → Prop) (result : Option ProgramRead) : Prop :=
  ∀ read, result = some read → ∀ i ∈ read.accesses, P i

private theorem resultIn_some {read : ProgramRead} :
    ResultIn P (some read) ↔ ∀ i ∈ read.accesses, P i :=
  ⟨fun h => h read rfl, fun h _ hread => Option.some.inj hread ▸ h⟩

/-- **The loop** accesses only indices with a property exactly when the commands it parses do. -/
theorem accesses_readLoop_iff (hsound : s.program.Sound) (hlog : s.accesses = []) :
    (∀ read, readLoop realloc s = some read → ∀ i ∈ read.accesses, P i) ↔
      ∀ t, Reaches (readPass realloc) s t → t.input.ended = false →
        AccessesIn P (readCommand zeroCommand) t.input := by
  have hstart : ∀ i ∈ s.accesses, P i := by
    rw [hlog]
    exact List.forall_mem_nil _
  have happend : ∀ s : ReadState, s.input.ended = false →
      ((∀ i ∈ s.accesses ++ (readCommand zeroCommand s.input).accesses, P i) ↔
        (∀ i ∈ s.accesses, P i) ∧ (s.input.ended = false →
          AccessesIn P (readCommand zeroCommand) s.input)) := by
    intro s hended
    rw [List.forall_mem_append]
    exact and_congr_right fun _ => ⟨fun h _ => h, fun h => h hended⟩
  have hiff : ResultIn P (readLoop realloc s) ↔ (∀ i ∈ s.accesses, P i) ∧
      ∀ t, Reaches (readPass realloc) s t → t.input.ended = false →
        AccessesIn P (readCommand zeroCommand) t.input := by
    refine loop_iff (I := fun s : ReadState => s.program.Sound)
      (P := fun s : ReadState => ∀ i ∈ s.accesses, P i)
      (C := fun s : ReadState => s.input.ended = false →
        AccessesIn P (readCommand zeroCommand) s.input) ?_ ?_ hsound
    · intro s t hs hpass
      rcases readPass_cases hs realloc with ⟨-, hleave⟩ | ⟨hended, newC, f', -, hagain⟩ |
        ⟨hended, newC, f', -, -, program', -, hsound', -, hagain⟩ | ⟨err, program, -, hleave⟩
      · cases hleave.symm.trans hpass
      · cases hagain.symm.trans hpass
        exact ⟨hs, happend s hended⟩
      · cases hagain.symm.trans hpass
        exact ⟨hsound', happend s hended⟩
      · cases hleave.symm.trans hpass
    · intro s result hs hpass
      rcases hended : s.input.ended with _ | _
      · rcases readPass_cases hs realloc with ⟨hended', -⟩ | ⟨-, newC, f', -, hagain⟩ |
          ⟨-, newC, f', -, -, program', -, -, -, hagain⟩ | ⟨err, program, -, hleave⟩
        · cases hended.symm.trans hended'
        · cases hagain.symm.trans hpass
        · cases hagain.symm.trans hpass
        · cases hleave.symm.trans hpass
          exact resultIn_some.trans ((happend s hended).trans (by rw [hended]))
      · cases (readPass_ended realloc hended).symm.trans hpass
        have hfinish : ∃ read, finishRead (realloc s.adds) s = some read ∧
            read.accesses = s.accesses := by
          rw [finishRead]
          split_ifs
          · exact ⟨_, rfl, rfl⟩
          · rcases programShrink_cases hs (realloc s.adds) with ⟨-, hshrink⟩ | ⟨_, hshrink, -⟩
            · exact ⟨_, by rw [hshrink]; rfl, rfl⟩
            · exact ⟨_, by rw [hshrink]; rfl, rfl⟩
        obtain ⟨read, hread, haccesses⟩ := hfinish
        rw [hread, resultIn_some, haccesses]
        exact (and_iff_left fun h => absurd h (by decide)).symm
  exact hiff.trans (and_iff_right hstart)

/-- The same of `program_read`. -/
theorem accesses_programRead_iff {calloc : Bool} {file : Option File} :
    (∀ read, programRead calloc realloc file = some read → ∀ i ∈ read.accesses, P i) ↔
      ∀ input init, file = some input → programInit calloc = .ok init →
        ∀ t, Reaches (readPass realloc)
            { input := input, program := init, accesses := [], adds := 0 } t →
          t.input.ended = false → AccessesIn P (readCommand zeroCommand) t.input := by
  rcases file with _ | input
  · refine ⟨fun _ => nofun, fun _ read hread => ?_⟩
    cases hread
    exact List.forall_mem_nil _
  · rcases calloc with _ | _
    · refine ⟨fun _ => nofun, fun _ read hread => ?_⟩
      cases hread
      exact List.forall_mem_nil _
    · constructor
      · intro h input' init hinput hinit
        cases hinput
        rw [programRead, hinit] at h
        exact (accesses_readLoop_iff (sound_programInit hinit).1 rfl).mp h
      · intro h
        exact (accesses_readLoop_iff (sound_programInit rfl).1 rfl).mpr (h input _ rfl rfl)

end Program

/-- Nothing is parsed where the stream has ended. -/
private theorem not_overruns_of_ended (hended : f.ended = true) : ¬ Overruns f := by
  have hnil : nextToken f = [] := by rw [nextToken, if_pos hended]
  rintro (⟨h, -⟩ | ⟨h, -⟩)
  · rw [hnil] at h
    cases h
  · rw [hnil] at h
    cases h

/-- A pass of the loop is inside the buffers exactly when it does not overrun one. -/
private theorem accessesIn_pass_iff {f : File} :
    (f.ended = false → AccessesIn InBuffer (readCommand zeroCommand) f) ↔ ¬ Overruns f := by
  rcases hended : f.ended with _ | _
  · exact (forall_prop_of_true rfl).trans accessesIn_readCommand
  · refine iff_of_true (fun h => ?_) (not_overruns_of_ended hended)
    cases h

/-- **The token buffers** are overrun exactly by the commands, among those the loop of
`program_read` comes to, that have an address of sixteen characters. -/
theorem token_buffers_iff (calloc : Bool) (realloc : ℕ → ℕ → Realloc) (file : Option File) :
    (∀ read, programRead calloc realloc file = some read → ∀ i ∈ read.accesses, i < maxSizeBuffer) ↔
      ∀ input init, file = some input → programInit calloc = .ok init →
        ∀ t, Reaches (readPass realloc)
            { input := input, program := init, accesses := [], adds := 0 } t →
          ¬ Overruns t.input := by
  simp only [← accessesIn_pass_iff]
  exact accesses_programRead_iff

/-- The address of `R I @0x0123456789ABCDEC` fills the buffer, and the terminator is written past
its end. -/
theorem not_token_buffers :
    ∃ read, programRead true (fun _ _ => some fun _ => zeroCommand) (some (File.open
        [ch 'R', ch ' ', ch 'I', ch ' ', ch '@', ch '0', ch 'x', ch '0', ch '1', ch '2', ch '3',
          ch '4', ch '5', ch '6', ch '7', ch '8', ch '9', ch 'A', ch 'B', ch 'C', ch 'D', ch 'E',
          ch 'C', ch '\n'])) = some read ∧
      maxSizeBuffer ∈ read.accesses := by
  have hlog : (programRead true (fun _ _ => some fun _ => zeroCommand) (some (File.open
      [ch 'R', ch ' ', ch 'I', ch ' ', ch '@', ch '0', ch 'x', ch '0', ch '1', ch '2', ch '3',
        ch '4', ch '5', ch '6', ch '7', ch '8', ch '9', ch 'A', ch 'B', ch 'C', ch 'D', ch 'E',
        ch 'C', ch '\n']))).any (fun read => maxSizeBuffer ∈ read.accesses) = true := by
    decide +kernel
  obtain ⟨read, hread, hmem⟩ := (Option.any_eq_true _ _).mp hlog
  exact ⟨read, hread, of_decide_eq_true hmem⟩

/-! ### Which lines overrun a buffer -/

section Lines

variable {before word line text text' rest digits : List Byte} {b : Byte} {f' : File}
  {realloc : ℕ → ℕ → Realloc} {s : ReadState} {program : Program} {accesses : List ℕ}

/-- The last word of a line. -/
def lastWord (line : List Byte) : List Byte := line.rtakeWhile fun c => ¬ IsSpace c

/-- A line that ends in a word of nineteen characters, which are `@0x` and sixteen digits if it is
one that the parser accepts. -/
def LongAddress (line : List Byte) : Prop := (lastWord line).length = 19

instance : DecidablePred LongAddress := fun line =>
  inferInstanceAs (Decidable ((lastWord line).length = 19))

/-- The last word stands behind white space. -/
theorem lastWord_append (hb : IsBlank b) : lastWord (before ++ b :: line) = lastWord line := by
  induction line using List.reverseRecOn with
  | nil => exact List.rtakeWhile_concat_neg _ _ _ (by simpa using hb.1)
  | append_singleton line c ih =>
    simp only [lastWord] at ih
    rw [← List.cons_append, ← List.append_assoc, lastWord, lastWord, List.rtakeWhile_concat,
      List.rtakeWhile_concat, ih]

theorem lastWord_of_visible (hword : ∀ c ∈ word, ¬ IsSpace c) : lastWord word = word :=
  List.rtakeWhile_eq_self_iff.mpr fun c hc => decide_eq_true (hword c hc)

theorem lastWord_of_blanks (hline : Blanks line) : lastWord line = [] := by
  rcases List.eq_nil_or_concat line with rfl | ⟨before, b, rfl⟩
  · rfl
  · have hb : IsBlank b := hline b (by simp)
    rw [List.concat_eq_append, lastWord_append hb]
    rfl

/-- What `rest` starts with is in the first line of the text, behind a blank. -/
private def InLine (text rest : List Byte) : Prop :=
  ∃ before b, ch '\n' ∉ before ∧ IsBlank b ∧ text = before ++ b :: rest

private theorem inLine_of_startsWithWord (hword : ch '\n' ∉ word)
    (h : StartsWithWord word text rest) : InLine text rest := by
  obtain ⟨lead, b, hlead, hb, rfl⟩ := h
  refine ⟨lead ++ word, b, ?_, hb, rfl⟩
  rw [List.mem_append, not_or]
  exact ⟨fun h => (hlead _ h).2 rfl, hword⟩

private theorem InLine.trans (h : InLine text text') (h' : InLine text' rest) :
    InLine text rest := by
  obtain ⟨before, b, hbefore, hb, rfl⟩ := h
  obtain ⟨before', b', hbefore', hb', rfl⟩ := h'
  refine ⟨before ++ b :: before', b', ?_, hb', by rw [List.append_assoc, List.cons_append]⟩
  rw [List.mem_append, List.mem_cons, not_or, not_or]
  exact ⟨hbefore, fun h => hb.2 h.symm, hbefore'⟩

/-- The line that an address ends: the address fills the buffer if the line is too long. -/
private theorem exists_line_of_addr (h : InLine text f.rest)
    (hline : StartsWithLine ([ch '@', ch '0', ch 'x'] ++ digits) f.rest rest)
    (hended : f.ended = false) (hdigits : ∀ d ∈ digits, IsHex d) :
    ∃ line, ch '\n' ∉ line ∧ text = line ++ ch '\n' :: rest ∧
      (FullAddress (nextToken f) ↔ LongAddress line) := by
  have hvisible : ∀ c ∈ [ch '@', ch '0', ch 'x'] ++ digits, ¬ IsSpace c :=
    List.forall_mem_append.mpr ⟨by decide, fun d hd => (hdigits d hd).not_space⟩
  have hfull : FullAddress (nextToken f) ↔ digits.length = 16 := by
    rw [FullAddress, (hline.nextToken_eq hended hvisible).1]
    refine ⟨?_, fun hlength => ⟨digits, rfl, hlength⟩⟩
    rintro ⟨digits', htoken, hlength⟩
    rwa [List.append_cancel_left (List.append_cancel_right htoken)]
  obtain ⟨before, b, hbefore, hb, rfl⟩ := h
  obtain ⟨lead, hlead, hrest⟩ := hline
  refine ⟨before ++ b :: (lead ++ ([ch '@', ch '0', ch 'x'] ++ digits)), ?_, ?_, ?_⟩
  · simp only [List.mem_append, List.mem_cons, not_or]
    exact ⟨hbefore, fun h => hb.2 h.symm, fun h => (hlead _ h).2 rfl, by decide,
      fun h => absurd (hdigits _ h) (by decide)⟩
  · simp only [hrest, List.append_assoc, List.cons_append]
  · have hlast : lastWord (before ++ b :: (lead ++ ([ch '@', ch '0', ch 'x'] ++ digits))) =
        [ch '@', ch '0', ch 'x'] ++ digits := by
      rw [lastWord_append hb]
      rcases List.eq_nil_or_concat lead with rfl | ⟨lead, c, rfl⟩
      · exact lastWord_of_visible hvisible
      · have hc : IsBlank c := hlead c (by simp)
        rw [List.concat_eq_append, List.append_assoc, List.singleton_append, lastWord_append hc]
        exact lastWord_of_visible hvisible
    rw [hfull, LongAddress, hlast]
    simp

/-- **A command** is parsed from one line, and it overruns a buffer exactly if the last word of the
line is too long. -/
theorem exists_line_of_readCommand
    (h : Yields (readCommand zeroCommand) f (command, true) f') :
    ∃ line rest, ch '\n' ∉ line ∧ f.rest = line ++ ch '\n' :: rest ∧ f' = { f with rest := rest } ∧
      (Overruns f ↔ LongAddress line) := by
  have htypes : ∀ t ∈ typeWords, t.1 ≠ [] ∧ ch '\n' ∉ t.1 ∧ ∀ c ∈ t.1, ¬ IsSpace c := by decide
  rcases yields_readCommand.mp h with ⟨htoken, -, h⟩ | ⟨htoken, -, h⟩ | ⟨-, hvalid, -⟩
  · obtain ⟨hended, hvisible, rest₀, hR⟩ :=
      startsWithWord_of_nextToken htoken (by decide) (by decide) (by decide)
    obtain ⟨c₁, f₁, htype, haddr⟩ := yields_handleRead.mp h
    have hafter := (hR.nextToken_eq hended (by decide) hvisible).2
    rw [hafter] at htype
    obtain ⟨word, type, size, rest₁, hword, hstarts, -, rfl⟩ :=
      (yields_handleTypeSize_iff hended).mp htype
    obtain ⟨digits, rest, ⟨-, -, hdigits⟩, hline, -, rfl⟩ :=
      (yields_handleVirtAddr_iff hended).mp haddr
    obtain ⟨hne, hnl, hwordVisible⟩ := htypes _ hword
    obtain ⟨hwordToken, hwordAfter⟩ :=
      hstarts.nextToken_eq (f := { f with rest := rest₀ }) hended hne hwordVisible
    have hinLine : InLine f.rest rest₁ :=
      (inLine_of_startsWithWord (by decide) hR).trans (inLine_of_startsWithWord hnl hstarts)
    obtain ⟨line, hlineNl, hrest, hfull⟩ :=
      exists_line_of_addr (f := { f with rest := rest₁ }) hinLine hline hended hdigits
    refine ⟨line, rest, hlineNl, hrest, rfl, Iff.trans ?_ hfull⟩
    rw [Overruns, htoken, hafter, hwordToken, hwordAfter]
    refine ⟨?_, fun hfull => .inl ⟨rfl, ⟨type, size, hword⟩, hfull⟩⟩
    rintro (⟨-, -, hfull⟩ | ⟨hW, -⟩)
    · exact hfull
    · exact absurd hW (by decide)
  · obtain ⟨hended, hvisible, rest₀, hW⟩ :=
      startsWithWord_of_nextToken htoken (by decide) (by decide) (by decide)
    obtain ⟨c₁, f₁, htype, c₂, f₂, hdata, haddr⟩ := yields_handleWrite.mp h
    have hafter := (hW.nextToken_eq hended (by decide) hvisible).2
    rw [hafter] at htype
    obtain ⟨word, type, size, rest₁, hword, hstarts, -, rfl⟩ :=
      (yields_handleTypeSize_iff hended).mp htype
    obtain ⟨data, rest₂, ⟨hmin, hmax, hhex⟩, hdataStarts, -, rfl⟩ :=
      (yields_handleWriteData_iff hended).mp hdata
    obtain ⟨digits, rest, ⟨-, -, hdigits⟩, hline, -, rfl⟩ :=
      (yields_handleVirtAddr_iff hended).mp haddr
    obtain ⟨hne, hnl, hwordVisible⟩ := htypes _ hword
    have hdataVisible : ∀ c ∈ [ch '0', ch 'x'] ++ data, ¬ IsSpace c :=
      List.forall_mem_append.mpr ⟨by decide, fun d hd => (hhex d hd).not_space⟩
    have hdataNl : ch '\n' ∉ [ch '0', ch 'x'] ++ data := fun h => hdataVisible _ h (by decide)
    obtain ⟨hwordToken, hwordAfter⟩ :=
      hstarts.nextToken_eq (f := { f with rest := rest₀ }) hended hne hwordVisible
    obtain ⟨hdataToken, hdataAfter⟩ := hdataStarts.nextToken_eq (f := { f with rest := rest₁ })
      hended (by simp) hdataVisible
    have hinLine : InLine f.rest rest₂ :=
      ((inLine_of_startsWithWord (by decide) hW).trans (inLine_of_startsWithWord hnl hstarts)).trans
        (inLine_of_startsWithWord hdataNl hdataStarts)
    obtain ⟨line, hlineNl, hrest, hfull⟩ :=
      exists_line_of_addr (f := { f with rest := rest₂ }) hinLine hline hended hdigits
    refine ⟨line, rest, hlineNl, hrest, rfl, Iff.trans ?_ hfull⟩
    rw [Overruns, htoken, hafter, hwordToken, hwordAfter, hdataToken, hdataAfter]
    refine ⟨?_, fun hfull =>
      .inr ⟨rfl, ⟨type, size, hword⟩, ⟨data, rfl, hmin, hmax, hhex⟩, hfull⟩⟩
    rintro (⟨hR, -⟩ | ⟨-, -, -, hfull⟩)
    · exact absurd hR (by decide)
    · exact hfull
  · cases hvalid

/-- The lines of a text. -/
abbrev linesOf (text : List Byte) : List (List Byte) := text.splitOn (ch '\n')

theorem linesOf_textOf {lines : List (List Byte)} (hnl : ∀ line ∈ lines, ch '\n' ∉ line) :
    linesOf (textOf lines) = lines ++ [[]] := by
  induction lines with
  | nil => exact List.splitOn_nil _
  | cons line lines ih =>
    obtain ⟨hline, hlines⟩ := List.forall_mem_cons.mp hnl
    rw [textOf_cons, linesOf, List.splitOn_append_cons_self_of_not_mem hline, List.cons_append]
    exact congrArg (line :: ·) (ih hlines)

/-- What stands in front of a blank is in no last word. -/
private theorem InLine.forall_longAddress_iff (h : InLine text rest) :
    (∀ line ∈ linesOf text, ¬ LongAddress line) ↔ ∀ line ∈ linesOf rest, ¬ LongAddress line := by
  obtain ⟨before, b, hbefore, hb, rfl⟩ := h
  obtain ⟨line, lines, hlines⟩ := List.exists_cons_of_ne_nil (List.splitOn_ne_nil (ch '\n') rest)
  have hsplit : ∀ front : List Byte, ch '\n' ∉ front →
      (front ++ rest).splitOn (ch '\n') = (front ++ line) :: lines := by
    intro front hfront
    induction front with
    | nil => exact hlines
    | cons c front ih =>
      rw [List.mem_cons, not_or] at hfront
      rw [List.cons_append, List.splitOn_cons_eq_if_modifyHead,
        if_neg (by simpa using Ne.symm hfront.1), ih hfront.2, List.modifyHead_cons,
        List.cons_append]
  have hfront : ch '\n' ∉ before ++ [b] := by
    rw [List.mem_append, List.mem_singleton, not_or]
    exact ⟨hbefore, fun h => hb.2 h.symm⟩
  have hlong : LongAddress (before ++ [b] ++ line) ↔ LongAddress line := by
    rw [LongAddress, LongAddress, List.append_assoc, List.singleton_append, lastWord_append hb]
  rw [List.append_cons, linesOf, hsplit _ hfront, linesOf, hlines, List.forall_mem_cons,
    List.forall_mem_cons, hlong]

/-- A pass that parses a mark of the end of the file overruns no buffer and leaves the lines, up to
what stands in front of a blank. -/
private theorem lines_of_mark (h : Yields (readCommand zeroCommand) f (command, false) f') :
    ¬ Overruns f ∧ (f'.ended = true → f'.rest = []) ∧
      ((∀ line ∈ linesOf f.rest, ¬ LongAddress line) ↔
        ∀ line ∈ linesOf f'.rest, ¬ LongAddress line) := by
  rcases yields_readCommand.mp h with ⟨-, hvalid, -⟩ | ⟨-, hvalid, -⟩ | ⟨htoken, -, -, rfl⟩
  · cases hvalid
  · cases hvalid
  · have hover : ¬ Overruns f := by
      rw [Overruns, htoken]
      rintro (⟨hR, -⟩ | ⟨hW, -⟩)
      · exact absurd hR (by decide)
      · exact absurd hW (by decide)
    obtain ⟨hended, ⟨hblank, hafter⟩ | ⟨rest, hstarts⟩⟩ := startsWithMark_of_nextToken htoken
    · -- only the end of the text is left
      refine ⟨hover, fun _ => hafter ▸ atEnd_rest _, ?_⟩
      have hnl : ch '\n' ∉ f.rest := fun h => (hblank _ h).2 rfl
      rw [hafter, atEnd_rest, linesOf, List.splitOn_eq_singleton hnl, List.forall_mem_singleton,
        linesOf, List.splitOn_nil, List.forall_mem_singleton, LongAddress,
        lastWord_of_blanks hblank]
      rfl
    · have hafter := (hstarts.nextToken_eq hended (by decide) (by decide)).2
      rw [hafter]
      refine ⟨hover, fun h => absurd (hended.symm.trans h) (by decide), ?_⟩
      exact (inLine_of_startsWithWord (by decide) hstarts).forall_longAddress_iff

/-- **The loop**, if it reads all of the text, overruns a buffer exactly if a line is too long. -/
theorem overruns_readLoop_iff (hsound : s.program.Sound)
    (hrest : s.input.ended = true → s.input.rest = [])
    (h : readLoop realloc s =
      some { err := .errNone, program := some program, accesses := accesses }) :
    (∀ t, Reaches (readPass realloc) s t → ¬ Overruns t.input) ↔
      ∀ line ∈ linesOf s.input.rest, ¬ LongAddress line := by
  induction hn : s.input.left using Nat.strongRecOn generalizing s with
  | _ n ih =>
    subst hn
    rcases readPass_cases hsound realloc with ⟨hended, hleave⟩ |
      ⟨hended, newC, f', hparse, hagain⟩ |
      ⟨hended, newC, f', hparse, -, program', -, hsound', -, hagain⟩ |
      ⟨err, program', herr, hleave⟩
    · rw [forall_reaches_leave hleave, hrest hended]
      refine iff_of_true (not_overruns_of_ended hended) ?_
      rw [linesOf, List.splitOn_nil, List.forall_mem_singleton]
      decide
    · obtain ⟨hover, hrest', hlines⟩ := lines_of_mark hparse
      rw [readLoop, loop_again hagain] at h
      rw [forall_reaches_again hagain, and_iff_right hover, hlines]
      exact ih _ (readPass_left hagain) hsound hrest' h rfl
    · obtain ⟨line, rest, hline, htext, rfl, hover⟩ := exists_line_of_readCommand hparse
      rw [readLoop, loop_again hagain] at h
      rw [forall_reaches_again hagain, hover, htext, linesOf,
        List.splitOn_append_cons_self_of_not_mem hline, List.forall_mem_cons]
      have hopen : s.input.ended = true → rest = [] := fun h =>
        absurd (hended.symm.trans h) (by decide)
      exact and_congr_right fun _ => ih _ (readPass_left hagain) hsound' hopen h rfl
    · rw [readLoop, loop_leave hleave, Option.some.injEq, ProgramRead.mk.injEq] at h
      exact absurd h.1 herr

/-- **The texts** that overrun a buffer, among those that are read without an error: they have a
line that ends in `@0x` and sixteen digits. -/
theorem accesses_programRead_iff_lines {calloc : Bool} {text : List Byte}
    (h : programRead calloc realloc (some (File.open text)) =
      some { err := .errNone, program := some program, accesses := accesses }) :
    (∀ i ∈ accesses, i < maxSizeBuffer) ↔ ∀ line ∈ linesOf text, ¬ LongAddress line := by
  rcases calloc with _ | _
  · cases h
  · have hsound := (sound_programInit (show programInit true = .ok _ from rfl)).1
    have hopen : (File.open text).ended = true → (File.open text).rest = [] := nofun
    have hlines := overruns_readLoop_iff hsound hopen h
    simp only [← accessesIn_pass_iff] at hlines
    refine Iff.trans ?_ ((accesses_readLoop_iff hsound rfl).trans hlines)
    refine ⟨fun hall read hread => ?_, fun hall => hall _ h⟩
    cases hread.symm.trans h
    exact hall

end Lines

/-! ### Buffers with more room -/

section Room

variable {room : ℕ} {calloc : Bool} {realloc : ℕ → ℕ → Realloc} {file : Option File}
  {read : ProgramRead}

/-- `program_read` with token buffers of `room` characters; the source has `maxSizeBuffer`. An
access behind the end of a buffer is undefined: there is no result then. -/
def programReadIn (room : ℕ) (calloc : Bool) (realloc : ℕ → ℕ → Realloc) (file : Option File) :
    Option ProgramRead :=
  (programRead calloc realloc file).filter fun read => read.accesses.all (· < room)

theorem programReadIn_eq_some_iff :
    programReadIn room calloc realloc file = some read ↔
      programRead calloc realloc file = some read ∧ ∀ i ∈ read.accesses, i < room := by
  rw [programReadIn, Option.filter_eq_some_iff, List.all_eq_true]
  simp only [decide_eq_true_eq]

/-- There is a result exactly if no pass of the loop accesses what is behind a buffer. -/
theorem exists_programReadIn_iff :
    (∃ read, programReadIn room calloc realloc file = some read) ↔
      ∀ input init, file = some input → programInit calloc = .ok init →
        ∀ t, Reaches (readPass realloc)
            { input := input, program := init, accesses := [], adds := 0 } t →
          t.input.ended = false → AccessesIn (· < room) (readCommand zeroCommand) t.input := by
  obtain ⟨read, hread⟩ := exists_programRead calloc realloc file
  rw [← accesses_programRead_iff]
  constructor
  · rintro ⟨read', hread'⟩ read'' hread''
    cases hread''.symm.trans (programReadIn_eq_some_iff.mp hread').1
    exact (programReadIn_eq_some_iff.mp hread').2
  · exact fun h => ⟨read, programReadIn_eq_some_iff.mpr ⟨hread, h read hread⟩⟩

/-- **With room for the terminator** nothing is undefined. -/
theorem programReadIn_of_lt (hroom : maxSizeBuffer < room) :
    programReadIn room calloc realloc file = programRead calloc realloc file := by
  refine Option.ext fun read => programReadIn_eq_some_iff.trans ?_
  refine and_iff_left_of_imp fun hread => ?_
  have haccesses : ∀ i ∈ read.accesses, i ≤ maxSizeBuffer :=
    accesses_programRead_iff.mpr (fun _ _ _ _ _ _ _ => accessesIn_readCommand_le) read hread
  exact fun i hi => (haccesses i hi).trans_lt hroom

/-- The buffers have room for what these lines are read with: for the terminator as well, or there
is no address of sixteen digits. -/
def HasRoom (room : ℕ) (lines : List (List Byte)) : Prop :=
  maxSizeBuffer < room ∨ maxSizeBuffer ≤ room ∧ ∀ line ∈ lines, ¬ LongAddress line

theorem hasRoom_append {lines lines' : List (List Byte)} :
    HasRoom room (lines ++ lines') ↔ HasRoom room lines ∧ HasRoom room lines' := by
  rw [HasRoom, HasRoom, HasRoom, List.forall_mem_append, and_and_left, or_and_left]

/-- **Lines that are read** are read in buffers that have room for them. -/
theorem programReadIn_of_hasRoom {lines : List (List Byte)} (hroom : HasRoom room lines)
    (hnl : ∀ line ∈ lines, ch '\n' ∉ line) {program : Program} {accesses : List ℕ}
    (hread : programRead calloc realloc (some (File.open (textOf lines))) =
      some { err := .errNone, program := some program, accesses := accesses }) :
    programReadIn room calloc realloc (some (File.open (textOf lines))) =
      some { err := .errNone, program := some program, accesses := accesses } := by
  rcases hroom with hlt | ⟨hle, hlines⟩
  · exact (programReadIn_of_lt hlt).trans hread
  · have hshort : ∀ line ∈ linesOf (textOf lines), ¬ LongAddress line := by
      rw [linesOf_textOf hnl]
      exact List.forall_mem_append.mpr ⟨hlines, List.forall_mem_singleton.mpr (by decide)⟩
    have haccesses := (accesses_programRead_iff_lines hread).mpr hshort
    exact programReadIn_eq_some_iff.mpr ⟨hread, fun i hi => (haccesses i hi).trans_le hle⟩

end Room

end MemoryHierarchy
