import MemoryHierarchy.Addr.Addr
import MemoryHierarchy.Lib.Loop
import MemoryHierarchy.Lib.Stdio

/-!
# The tokenizer

`readUntilNextWhiteSpace` of `commands.c`, which `memory.c` has a copy of with a larger buffer
(`readUntilNextSpace`). It skips blanks and stores characters up to the next white space; a newline
that ends a token is stored with it, and so is the character `EOF` is converted to.

`readToken_eq` says what it reads: the word after the blanks with what ends it (`nextToken`), if
that fits in the buffer. A stream that starts with a word and the blank or newline that ends it has
that word as its next token (`StartsWithWord.nextToken_eq`, `StartsWithLine.nextToken_eq`), and
only such a stream has (`startsWithWord_of_nextToken`, `startsWithLine_of_nextToken`).
-/

namespace MemoryHierarchy

open Lib

/-- What the tokenizer leaves: its error code, the characters in the buffer, the indices it stored
them at, and the stream. -/
structure TokenRead where
  err : ErrorCode
  buffer : List Byte
  stored : List ℕ
  input : File

/-- The local variables of the tokenizer. `nbOfBytes` is the length of the buffer. -/
structure TokenState where
  input : File
  c : ℤ
  hasReadOneNonWhiteSpace : Bool
  buffer : List Byte
  stored : List ℕ

/-- One pass of the loop of the tokenizer. -/
def tokenPass (maxSizeBuffer : ℕ) (s : TokenState) : Pass TokenState TokenRead :=
  if s.input.ended || (isspace s.c && s.hasReadOneNonWhiteSpace) then
    .leave { err := .errNone, buffer := s.buffer, stored := s.stored, input := s.input }
  else
    let (c, input) := fgetc s.input
    if !isspace c || c == 10 then
      if s.buffer.length ≥ maxSizeBuffer then
        .leave { err := .errIo, buffer := s.buffer, stored := s.stored, input := input }
      else
        .again
          { input := input
            c := c
            hasReadOneNonWhiteSpace := true
            buffer := s.buffer ++ [toChar c]
            stored := s.stored ++ [s.buffer.length] }
    else .again { s with input := input, c := c }

theorem tokenPass_left {maxSizeBuffer : ℕ} {s t : TokenState}
    (h : tokenPass maxSizeBuffer s = .again t) : t.input.left < s.input.left := by
  rw [tokenPass] at h
  split at h
  · cases h
  · next hread =>
    have hended : s.input.ended = false := by
      rw [Bool.or_eq_true, not_or] at hread
      exact Bool.eq_false_iff.mpr hread.1
    have hleft := left_fgetc_lt hended
    simp only at h
    split_ifs at h
    · cases h
      exact hleft
    · cases h
      exact hleft

/-- The tokenizer, with a buffer of `maxSizeBuffer` characters. -/
def readToken (maxSizeBuffer : ℕ) (input : File) : TokenRead :=
  loop (tokenPass maxSizeBuffer) (fun s => s.input.left) (fun _ _ => tokenPass_left)
    { input := input, c := 0, hasReadOneNonWhiteSpace := false, buffer := [], stored := [] }

/-- The loop takes nothing back. -/
private theorem left_tokenLoop (maxSizeBuffer : ℕ) (s : TokenState) :
    (loop (tokenPass maxSizeBuffer) (fun s => s.input.left) (fun _ _ => tokenPass_left)
      s).input.left ≤ s.input.left := by
  refine loop_of_invariant (I := fun t => t.input.left ≤ s.input.left)
    (Q := fun r : TokenRead => r.input.left ≤ s.input.left)
    (fun t u ht hpass => (tokenPass_left hpass).le.trans ht) (fun t r ht hpass => ?_) le_rfl
  rw [tokenPass] at hpass
  split at hpass
  · cases hpass
    exact ht
  · simp only at hpass
    split_ifs at hpass
    cases hpass
    exact (left_fgetc_le t.input).trans ht

/-- The first pass takes something from a stream that has not ended. -/
private theorem left_tokenLoop_lt (maxSizeBuffer : ℕ) {s : TokenState}
    (hended : s.input.ended = false) (hstart : s.hasReadOneNonWhiteSpace = false) :
    (loop (tokenPass maxSizeBuffer) (fun s => s.input.left) (fun _ _ => tokenPass_left)
      s).input.left < s.input.left := by
  rcases hpass : tokenPass maxSizeBuffer s with r | t
  · rw [loop_leave hpass]
    rw [tokenPass, if_neg (by simp [hended, hstart])] at hpass
    simp only at hpass
    split_ifs at hpass
    cases hpass
    exact left_fgetc_lt hended
  · rw [loop_again hpass]
    exact (left_tokenLoop maxSizeBuffer t).trans_lt (tokenPass_left hpass)

theorem left_readToken_le (maxSizeBuffer : ℕ) (f : File) :
    (readToken maxSizeBuffer f).input.left ≤ f.left :=
  left_tokenLoop maxSizeBuffer _

/-- The tokenizer takes something from a stream that has not ended, whether it fits or not. -/
theorem left_readToken_lt (maxSizeBuffer : ℕ) {f : File} (hended : f.ended = false) :
    (readToken maxSizeBuffer f).input.left < f.left :=
  left_tokenLoop_lt maxSizeBuffer hended rfl

/-! ### What is read -/

/-- The character `EOF` becomes in the buffer. -/
abbrev eofChar : Byte := toChar (-1)

/-- A word from its start, with the newline or the `EOF` that ends it. -/
def tokenTail : List Byte → List Byte
  | [] => [eofChar]
  | b :: text => if IsSpace b then (if b = ch '\n' then [b] else []) else b :: tokenTail text

/-- The stream after a word has been read from it. -/
def afterTail (f : File) : List Byte → File
  | [] => { f with rest := [] }.atEnd
  | b :: text => if IsSpace b then { f with rest := text } else afterTail f text

/-- The text without the blanks in front. -/
def skipBlanks (text : List Byte) : List Byte := text.dropWhile fun b => IsBlank b

/-- The next token of a text. -/
def token (text : List Byte) : List Byte := tokenTail (skipBlanks text)

/-- The next token of a stream; there is none once the stream has ended. -/
def nextToken (f : File) : List Byte := if f.ended then [] else token f.rest

/-- The stream after its next token. -/
def afterToken (f : File) : File := if f.ended then f else afterTail f (skipBlanks f.rest)

variable {maxSizeBuffer : ℕ} {f : File} {b : Byte} {text rest w lead : List Byte}

theorem afterTail_with_rest (f : File) (rest text : List Byte) :
    afterTail { f with rest := rest } text = afterTail f text := by
  induction text with
  | nil => rfl
  | cons b text ih => rw [afterTail, afterTail, ih]

/-- The state of the loop inside a word. -/
private def inWord (f : File) (c : ℤ) (buffer : List Byte) : TokenState :=
  { input := f, c := c, hasReadOneNonWhiteSpace := true, buffer := buffer,
    stored := List.range buffer.length }

private theorem tokenPass_leave {s : TokenState}
    (h : (s.input.ended || (isspace s.c && s.hasReadOneNonWhiteSpace)) = true) :
    tokenPass maxSizeBuffer s =
      .leave { err := .errNone, buffer := s.buffer, stored := s.stored, input := s.input } := by
  rw [tokenPass, if_pos h]

/-- A character other than a blank is stored, if there is room for it. -/
private theorem tokenPass_store (maxSizeBuffer : ℕ) {s : TokenState} {c : ℤ} {input : File}
    (hgo : (s.input.ended || (isspace s.c && s.hasReadOneNonWhiteSpace)) = false)
    (hget : fgetc s.input = (c, input)) (hc : (!isspace c || c == 10) = true)
    (hstored : s.stored = List.range s.buffer.length) :
    tokenPass maxSizeBuffer s =
      if s.buffer.length ≥ maxSizeBuffer then
        .leave { err := .errIo, buffer := s.buffer, stored := s.stored, input := input }
      else .again (inWord input c (s.buffer ++ [toChar c])) := by
  rw [tokenPass, if_neg (by simp [hgo]), hget]
  simp only [hc, if_true, inWord, hstored, List.length_append, List.length_singleton,
    List.range_succ]

/-- A blank is passed over. -/
private theorem tokenPass_blank (maxSizeBuffer : ℕ) {s : TokenState} {c : ℤ} {input : File}
    (hgo : (s.input.ended || (isspace s.c && s.hasReadOneNonWhiteSpace)) = false)
    (hget : fgetc s.input = (c, input)) (hc : (!isspace c || c == 10) = false) :
    tokenPass maxSizeBuffer s = .again { s with input := input, c := c } := by
  rw [tokenPass, if_neg (by simp [hgo]), hget]
  simp only [hc, Bool.false_eq_true, if_false]

/-- What the tokenizer answers when `all` are the characters to be stored. -/
private def Reads (maxSizeBuffer : ℕ) (all : List Byte) (input : File) (r : TokenRead) : Prop :=
  (all.length ≤ maxSizeBuffer ∧
    r = { err := .errNone, buffer := all, stored := List.range all.length, input := input }) ∨
  (maxSizeBuffer < all.length ∧ r.err = .errIo ∧ r.stored = List.range maxSizeBuffer)

/-- The loop, as the tokenizer runs it. -/
private abbrev tokenLoop (maxSizeBuffer : ℕ) (s : TokenState) : TokenRead :=
  loop (tokenPass maxSizeBuffer) (fun s => s.input.left) (fun _ _ => tokenPass_left) s

/-- Storing a character and going on. -/
private theorem reads_store (maxSizeBuffer : ℕ) {s : TokenState} {c : ℤ} {input : File}
    (after : File) (tail : List Byte)
    (hgo : (s.input.ended || (isspace s.c && s.hasReadOneNonWhiteSpace)) = false)
    (hget : fgetc s.input = (c, input)) (hc : (!isspace c || c == 10) = true)
    (hstored : s.stored = List.range s.buffer.length) (hmax : s.buffer.length ≤ maxSizeBuffer)
    (hnext : (s.buffer ++ [toChar c]).length ≤ maxSizeBuffer →
      Reads maxSizeBuffer (s.buffer ++ [toChar c] ++ tail) after
        (tokenLoop maxSizeBuffer (inWord input c (s.buffer ++ [toChar c])))) :
    Reads maxSizeBuffer (s.buffer ++ toChar c :: tail) after (tokenLoop maxSizeBuffer s) := by
  have hpass := tokenPass_store maxSizeBuffer hgo hget hc hstored
  rw [List.append_cons]
  by_cases hfull : s.buffer.length ≥ maxSizeBuffer
  · have hlen : s.buffer.length = maxSizeBuffer := le_antisymm hmax hfull
    rw [if_pos hfull] at hpass
    rw [tokenLoop, loop_leave hpass]
    refine .inr ⟨?_, rfl, by rw [hstored, hlen]⟩
    simp only [List.length_append, List.length_singleton]
    omega
  · rw [if_neg hfull] at hpass
    rw [tokenLoop, loop_again hpass]
    refine hnext ?_
    rw [List.length_append]
    exact Nat.lt_of_not_ge hfull

private theorem reads_done {f : File} {c : ℤ} {buffer : List Byte}
    (h : (f.ended || isspace c) = true) (hmax : buffer.length ≤ maxSizeBuffer) :
    Reads maxSizeBuffer (buffer ++ []) f (tokenLoop maxSizeBuffer (inWord f c buffer)) := by
  rw [tokenLoop, loop_leave (tokenPass_leave (by simpa [inWord] using h)), List.append_nil]
  exact .inl ⟨hmax, rfl⟩

private theorem isspace_toNat_of_not (h : ¬ IsSpace b) : isspace b.toNat = false :=
  Bool.eq_false_iff.mpr h

private theorem eq_newline_iff : b = ch '\n' ↔ (b.toNat : ℤ) = 10 := by
  rw [← BitVec.toNat_inj]
  exact Nat.cast_inj.symm

/-- The test of the loop lets it go on. -/
private abbrev GoesOn (s : TokenState) : Prop :=
  (s.input.ended || (isspace s.c && s.hasReadOneNonWhiteSpace)) = false

private theorem goesOn_inWord {c : ℤ} {buffer : List Byte} (hended : f.ended = false)
    (hc : isspace c = false) : GoesOn (inWord f c buffer) := by
  simp [GoesOn, inWord, hended, hc]

/-- **At the end** of the stream the mark of the end is stored. -/
private theorem reads_end {s : TokenState} (hrest : s.input.rest = []) (hgo : GoesOn s)
    (hstored : s.stored = List.range s.buffer.length) (hmax : s.buffer.length ≤ maxSizeBuffer) :
    Reads maxSizeBuffer (s.buffer ++ tokenTail []) (afterTail s.input [])
      (tokenLoop maxSizeBuffer s) := by
  have hafter : afterTail s.input [] = s.input.atEnd := by rw [afterTail, ← hrest]
  rw [hafter]
  exact reads_store maxSizeBuffer _ [] hgo (fgetc_nil hrest) (by decide) hstored hmax fun hle =>
    reads_done (by rw [atEnd_ended, Bool.true_or]) hle

/-- **A character** other than a blank is stored; a newline then ends the loop, and after another
one the loop is inside a word. -/
private theorem reads_char {s : TokenState} (hrest : s.input.rest = b :: text) (hgo : GoesOn s)
    (hstored : s.stored = List.range s.buffer.length) (hmax : s.buffer.length ≤ maxSizeBuffer)
    (hb : ¬ IsBlank b)
    (hword : isspace b.toNat = false → (s.buffer ++ [b]).length ≤ maxSizeBuffer →
      Reads maxSizeBuffer (s.buffer ++ [b] ++ tokenTail text) (afterTail s.input text)
        (tokenLoop maxSizeBuffer
          (inWord { s.input with rest := text } b.toNat (s.buffer ++ [b])))) :
    Reads maxSizeBuffer (s.buffer ++ tokenTail (b :: text)) (afterTail s.input (b :: text))
      (tokenLoop maxSizeBuffer s) := by
  have hget := fgetc_cons hrest
  have hstore := fun after tail hc => reads_store maxSizeBuffer after tail hgo hget hc hstored hmax
  rw [toChar_toNat] at hstore
  by_cases hspace : IsSpace b
  · have hnl : b = ch '\n' := by
      by_contra hnl
      exact hb ⟨hspace, hnl⟩
    have hten := eq_newline_iff.mp hnl
    rw [tokenTail, if_pos hspace, if_pos hnl, afterTail, if_pos hspace]
    exact hstore _ [] (by simp [hten]) fun hle => reads_done (by rw [hspace, Bool.or_true]) hle
  · have hvisible := isspace_toNat_of_not hspace
    rw [tokenTail, if_neg hspace, afterTail, if_neg hspace]
    exact hstore _ _ (by rw [hvisible]; rfl) (hword hvisible)

/-- A blank is passed over. -/
private theorem tokenPass_of_isBlank (maxSizeBuffer : ℕ) {s : TokenState}
    (hrest : s.input.rest = b :: text) (hgo : GoesOn s) (hb : IsBlank b) :
    tokenPass maxSizeBuffer s =
      .again { s with input := { s.input with rest := text }, c := b.toNat } := by
  have hten : ((b.toNat : ℤ) == 10) = false :=
    beq_eq_false_iff_ne.mpr fun h => hb.2 (eq_newline_iff.mpr h)
  exact tokenPass_blank maxSizeBuffer hgo (fgetc_cons hrest) (by rw [hten, hb.1]; rfl)

/-- **Inside a word** the rest of the word is stored. -/
private theorem reads_inWord (text : List Byte) {f : File} (hrest : f.rest = text)
    (hended : f.ended = false) {c : ℤ} (hc : isspace c = false) {buffer : List Byte}
    (hmax : buffer.length ≤ maxSizeBuffer) :
    Reads maxSizeBuffer (buffer ++ tokenTail text) (afterTail f text)
      (tokenLoop maxSizeBuffer (inWord f c buffer)) := by
  induction text generalizing f c buffer with
  | nil => exact reads_end (s := inWord f c buffer) hrest (goesOn_inWord hended hc) rfl hmax
  | cons b text ih =>
    have hgo : GoesOn (inWord f c buffer) := goesOn_inWord hended hc
    by_cases hb : IsBlank b
    · -- a blank ends the loop with the next test
      rw [tokenTail, if_pos hb.1, if_neg hb.2, afterTail, if_pos hb.1, tokenLoop,
        loop_again (tokenPass_of_isBlank maxSizeBuffer hrest hgo hb)]
      exact reads_done (f := { f with rest := text }) (c := b.toNat)
        (by rw [hb.1, Bool.or_true]) hmax
    · refine reads_char (s := inWord f c buffer) hrest hgo rfl hmax hb fun hvisible hle => ?_
      have hword := ih (f := { f with rest := text }) rfl hended hvisible hle
      rwa [afterTail_with_rest] at hword

/-- The state of the loop before the token. -/
private def atStart (f : File) (c : ℤ) : TokenState :=
  { input := f, c := c, hasReadOneNonWhiteSpace := false, buffer := [], stored := [] }

private theorem goesOn_atStart (hended : f.ended = false) (c : ℤ) : GoesOn (atStart f c) := by
  simp [GoesOn, atStart, hended]

/-- **Before the token** blanks are passed over. -/
private theorem reads_atStart (text : List Byte) {f : File} (hrest : f.rest = text)
    (hended : f.ended = false) (c : ℤ) :
    Reads maxSizeBuffer (token text) (afterTail f (skipBlanks text))
      (tokenLoop maxSizeBuffer (atStart f c)) := by
  induction text generalizing f c with
  | nil => exact reads_end (s := atStart f c) hrest (goesOn_atStart hended c) rfl (Nat.zero_le _)
  | cons b text ih =>
    have hgo := goesOn_atStart hended c
    by_cases hb : IsBlank b
    · have hskip : skipBlanks (b :: text) = skipBlanks text :=
        List.dropWhile_cons_of_pos (decide_eq_true hb)
      rw [token, hskip, tokenLoop,
        loop_again (tokenPass_of_isBlank maxSizeBuffer (s := atStart f c) hrest hgo hb),
        ← afterTail_with_rest f text]
      exact ih (f := { f with rest := text }) rfl hended b.toNat
    · have hskip : skipBlanks (b :: text) = b :: text :=
        List.dropWhile_cons_of_neg (by simpa using hb)
      rw [token, hskip]
      refine reads_char (s := atStart f c) hrest hgo rfl (Nat.zero_le _) hb fun hvisible hle => ?_
      have hword := reads_inWord (f := { f with rest := text }) text rfl hended hvisible hle
      rwa [afterTail_with_rest] at hword

/-- **What the tokenizer reads**: the next token, if it fits in the buffer. -/
theorem readToken_eq (hfits : (nextToken f).length ≤ maxSizeBuffer) :
    readToken maxSizeBuffer f =
      { err := .errNone, buffer := nextToken f, stored := List.range (nextToken f).length,
        input := afterToken f } := by
  rcases hended : f.ended with _ | _
  · rw [nextToken, hended] at hfits ⊢
    rw [afterToken, hended]
    obtain ⟨-, h⟩ | ⟨hlong, -⟩ := reads_atStart f.rest rfl hended 0
    · exact h
    · exact absurd hfits (Nat.not_le_of_gt hlong)
  · rw [nextToken, afterToken, hended]
    exact loop_leave (tokenPass_leave (by simp [hended]))

/-- A token that does not fit fills the buffer. -/
theorem readToken_err (hlong : maxSizeBuffer < (nextToken f).length) :
    (readToken maxSizeBuffer f).err = .errIo ∧
      (readToken maxSizeBuffer f).stored = List.range maxSizeBuffer := by
  rcases hended : f.ended with _ | _
  · rw [nextToken, hended] at hlong
    obtain ⟨hfits, -⟩ | ⟨-, h⟩ := reads_atStart f.rest rfl hended 0
    · exact absurd hfits (Nat.not_le_of_gt hlong)
    · exact h
  · rw [nextToken, hended] at hlong
    exact absurd hlong (Nat.not_lt_zero _)

/-- A token takes something from a stream that has not ended. -/
theorem left_afterToken (f : File) :
    (afterToken f).left ≤ f.left ∧ (f.ended = false → (afterToken f).left < f.left) := by
  have htail : ∀ text : List Byte, f.ended = false → text.length ≤ f.rest.length →
      (afterTail f text).left < f.left := by
    intro text hended hlength
    have hleft : f.left = 2 * f.rest.length + 1 := by rw [File.left, hended]; rfl
    induction text with
    | nil =>
      rw [afterTail, left_atEnd, hleft]
      exact Nat.lt_succ_of_le (Nat.zero_le _)
    | cons b text ih =>
      have hlt : text.length < f.rest.length := hlength
      rw [afterTail]
      split_ifs
      · rw [left_with_rest, hended, hleft, if_neg Bool.false_ne_true]
        omega
      · exact ih hlt.le
  rcases hended : f.ended with _ | _
  · have hlt := htail (skipBlanks f.rest) hended (List.dropWhile_suffix _).length_le
    rw [afterToken, hended]
    exact ⟨hlt.le, fun _ => hlt⟩
  · rw [afterToken, hended]
    exact ⟨le_rfl, fun h => absurd h.symm Bool.false_ne_true⟩

/-! ### Which texts a token comes from -/

/-- The visible characters in front belong to the token. -/
theorem tokenTail_append (text : List Byte) (hw : ∀ c ∈ w, ¬ IsSpace c) :
    tokenTail (w ++ text) = w ++ tokenTail text ∧ afterTail f (w ++ text) = afterTail f text := by
  induction w with
  | nil => exact ⟨rfl, rfl⟩
  | cons c w ih =>
    have hc := hw c List.mem_cons_self
    obtain ⟨htail, hafter⟩ := ih fun d hd => hw d (List.mem_cons_of_mem c hd)
    simp only [List.cons_append, tokenTail, afterTail, if_neg hc, htail, hafter, and_self]

/-- A word that white space other than a newline ends. -/
theorem tokenTail_word (hw : ∀ c ∈ w, ¬ IsSpace c) (hb : IsBlank b) :
    tokenTail (w ++ b :: rest) = w ∧ afterTail f (w ++ b :: rest) = { f with rest := rest } := by
  obtain ⟨htail, hafter⟩ := tokenTail_append (f := f) (b :: rest) hw
  rw [htail, hafter, tokenTail, afterTail, if_pos hb.1, if_pos hb.1, if_neg hb.2]
  exact ⟨List.append_nil w, rfl⟩

/-- A word that a newline ends. -/
theorem tokenTail_line (hw : ∀ c ∈ w, ¬ IsSpace c) :
    tokenTail (w ++ ch '\n' :: rest) = w ++ [ch '\n'] ∧
      afterTail f (w ++ ch '\n' :: rest) = { f with rest := rest } :=
  tokenTail_append _ hw

/-- A word that the end of the text ends. -/
theorem tokenTail_end (hw : ∀ c ∈ w, ¬ IsSpace c) :
    tokenTail w = w ++ [eofChar] ∧ afterTail f w = { f with rest := [] }.atEnd := by
  obtain ⟨htail, hafter⟩ := tokenTail_append (f := f) [] hw
  rw [List.append_nil] at htail hafter
  exact ⟨htail, hafter⟩

/-- A token without a newline is a word that a blank or the end of the text ends. -/
theorem exists_of_tokenTail_eq_word (h : tokenTail text = w) (hw : ch '\n' ∉ w) :
    (∀ c ∈ w, ¬ IsSpace c) ∧
      (w = text ++ [eofChar] ∨ ∃ b rest, IsBlank b ∧ text = w ++ b :: rest) := by
  induction text generalizing w with
  | nil =>
    subst h
    exact ⟨by decide, .inl rfl⟩
  | cons b text ih =>
    rw [tokenTail] at h
    split_ifs at h with hb hnl
    · subst h
      exact absurd (hnl ▸ List.mem_cons_self) hw
    · subst h
      exact ⟨nofun, .inr ⟨b, text, ⟨hb, hnl⟩, rfl⟩⟩
    · subst h
      obtain ⟨hvisible, htext⟩ := ih rfl fun hmem => hw (List.mem_cons_of_mem b hmem)
      refine ⟨List.forall_mem_cons.mpr ⟨hb, hvisible⟩, htext.imp (congrArg (b :: ·)) ?_⟩
      rintro ⟨c, rest, hc, hrest⟩
      exact ⟨c, rest, hc, congrArg (b :: ·) hrest⟩

/-- A token with a newline at its end is a word that a newline ends. -/
theorem exists_of_tokenTail_eq_line (h : tokenTail text = w ++ [ch '\n']) :
    (∀ c ∈ w, ¬ IsSpace c) ∧ ∃ rest, text = w ++ ch '\n' :: rest := by
  induction text generalizing w with
  | nil =>
    have hlast := congrArg List.getLast? h
    rw [List.getLast?_concat] at hlast
    exact absurd hlast (by decide)
  | cons b text ih =>
    rw [tokenTail] at h
    split_ifs at h with hb hnl
    · rcases w with _ | ⟨c, w⟩
      · exact ⟨nofun, text, by rw [hnl]; rfl⟩
      · have hlength := congrArg List.length h
        simp at hlength
    · simp at h
    · rcases w with _ | ⟨c, w⟩
      · have hbnl : b = ch '\n' := (List.cons.inj h).1
        rw [hbnl] at hb
        exact absurd (by decide) hb
      · obtain ⟨rfl, htail⟩ := List.cons.inj h
        obtain ⟨hvisible, rest, rfl⟩ := ih htail
        exact ⟨List.forall_mem_cons.mpr ⟨hb, hvisible⟩, rest, rfl⟩

/-- The text starts with the word `w`, which a blank ends. -/
def StartsWithWord (w text rest : List Byte) : Prop :=
  ∃ lead b, (∀ c ∈ lead, IsBlank c) ∧ IsBlank b ∧ text = lead ++ w ++ b :: rest

/-- The text starts with the word `w`, which a newline ends. -/
def StartsWithLine (w text rest : List Byte) : Prop :=
  ∃ lead, (∀ c ∈ lead, IsBlank c) ∧ text = lead ++ w ++ ch '\n' :: rest

theorem skipBlanks_append (hlead : ∀ c ∈ lead, IsBlank c) :
    skipBlanks (lead ++ text) = skipBlanks text :=
  List.dropWhile_append_of_pos fun c hc => decide_eq_true (hlead c hc)

theorem skipBlanks_visible (hb : ¬ IsBlank b) : skipBlanks (b :: text) = b :: text :=
  List.dropWhile_cons_of_neg (by simpa using hb)

theorem skipBlanks_word (hne : w ≠ []) (hw : ∀ c ∈ w, ¬ IsSpace c) :
    skipBlanks (w ++ text) = w ++ text := by
  obtain ⟨c, w, rfl⟩ := List.exists_cons_of_ne_nil hne
  exact skipBlanks_visible fun hc => hw c List.mem_cons_self hc.1

/-- A text is blanks and what is left without them. -/
theorem exists_blanks (text : List Byte) :
    ∃ lead, (∀ c ∈ lead, IsBlank c) ∧ text = lead ++ skipBlanks text :=
  ⟨text.takeWhile fun b => IsBlank b,
    fun c hc => of_decide_eq_true (p := IsBlank c) (List.all_eq_true.mp List.all_takeWhile c hc),
    List.takeWhile_append_dropWhile.symm⟩

/-- The stream starts with a word of visible characters and a blank. -/
theorem StartsWithWord.nextToken_eq (h : StartsWithWord w f.rest rest) (hended : f.ended = false)
    (hne : w ≠ []) (hw : ∀ c ∈ w, ¬ IsSpace c) :
    nextToken f = w ∧ afterToken f = { f with rest := rest } := by
  obtain ⟨lead, b, hlead, hb, htext⟩ := h
  have hskip : skipBlanks f.rest = w ++ b :: rest := by
    rw [htext, List.append_assoc, skipBlanks_append hlead, skipBlanks_word hne hw]
  rw [nextToken, afterToken, hended, token, hskip]
  exact tokenTail_word hw hb

/-- The stream starts with a word of visible characters and a newline. -/
theorem StartsWithLine.nextToken_eq (h : StartsWithLine w f.rest rest) (hended : f.ended = false)
    (hw : ∀ c ∈ w, ¬ IsSpace c) :
    nextToken f = w ++ [ch '\n'] ∧ afterToken f = { f with rest := rest } := by
  obtain ⟨lead, hlead, htext⟩ := h
  have hskip : skipBlanks f.rest = w ++ ch '\n' :: rest := by
    rw [htext, List.append_assoc, skipBlanks_append hlead]
    by_cases hne : w = []
    · rw [hne]
      exact skipBlanks_visible fun hc => hc.2 rfl
    · exact skipBlanks_word hne hw
  rw [nextToken, afterToken, hended, token, hskip]
  exact tokenTail_line hw

/-- The last word of a line is read with what ends the line. -/
theorem nextToken_line (after : Option (List Byte)) (hne : w ≠ []) (hw : ∀ c ∈ w, ¬ IsSpace c) :
    ∃ mark, nextToken (File.open (w ++ endText after)) = w ++ [mark] ∧
      afterToken (File.open (w ++ endText after)) = afterLine after := by
  rcases after with _ | rest
  · have hskip : skipBlanks (w ++ []) = w ++ [] := skipBlanks_word hne hw
    refine ⟨eofChar, ?_⟩
    change token (w ++ []) = _ ∧ afterTail _ (skipBlanks (w ++ [])) = _
    rw [token, hskip, List.append_nil]
    exact tokenTail_end hw
  · have hstarts : StartsWithLine w (File.open (w ++ endText (some rest))).rest rest :=
      ⟨[], List.forall_mem_nil _, rfl⟩
    exact ⟨ch '\n', hstarts.nextToken_eq rfl hw⟩

/-- At the end of a stream the mark of the end is read. -/
theorem nextToken_nil (hrest : f.rest = []) (hended : f.ended = false) :
    nextToken f = [eofChar] ∧ afterToken f = f.atEnd := by
  rw [nextToken, afterToken, hended, hrest]
  refine ⟨rfl, ?_⟩
  change ({ f with rest := [] } : File).atEnd = f.atEnd
  rw [← hrest]

private theorem ended_of_nextToken (hne : nextToken f ≠ []) : f.ended = false := by
  by_contra hended
  exact hne (by rw [nextToken, if_pos (Bool.not_eq_false _ ▸ hended)])

/-- **Words.** A token without a newline or an `EOF` is a word that a blank ends. -/
theorem startsWithWord_of_nextToken (h : nextToken f = w) (hne : w ≠ []) (hnl : ch '\n' ∉ w)
    (heof : eofChar ∉ w) :
    f.ended = false ∧ (∀ c ∈ w, ¬ IsSpace c) ∧ ∃ rest, StartsWithWord w f.rest rest := by
  have hended := ended_of_nextToken (h ▸ hne)
  rw [nextToken, hended] at h
  obtain ⟨hvisible, hend | ⟨b, rest, hb, hskip⟩⟩ := exists_of_tokenTail_eq_word h hnl
  · exact absurd (hend ▸ List.mem_append_right _ List.mem_cons_self) heof
  · obtain ⟨lead, hlead, htext⟩ := exists_blanks f.rest
    exact ⟨hended, hvisible, rest, lead, b, hlead, hb,
      by rw [List.append_assoc, ← hskip, ← htext]⟩

/-- **Marks of the end.** The character of `EOF`, alone, is read where only blanks are left or
where it stands in the stream. -/
theorem startsWithMark_of_nextToken (h : nextToken f = [eofChar]) :
    f.ended = false ∧ ((∀ c ∈ f.rest, IsBlank c) ∧ afterToken f = { f with rest := [] }.atEnd ∨
      ∃ rest, StartsWithWord [eofChar] f.rest rest) := by
  have hended := ended_of_nextToken (f := f) (by rw [h]; exact List.cons_ne_nil _ _)
  have htoken := h
  rw [nextToken, hended] at htoken
  obtain ⟨lead, hlead, htext⟩ := exists_blanks f.rest
  refine ⟨hended, ?_⟩
  obtain ⟨-, hend | ⟨b, rest, hb, hskip⟩⟩ := exists_of_tokenTail_eq_word htoken (by decide)
  · have hnil : skipBlanks f.rest = [] := by simpa using hend.symm
    left
    rw [afterToken, hended, hnil]
    exact ⟨by rwa [htext, hnil, List.append_nil], rfl⟩
  · right
    exact ⟨rest, lead, b, hlead, hb, by rw [List.append_assoc, ← hskip, ← htext]⟩

/-- **Lines.** A token with a newline at its end is a word that a newline ends. -/
theorem startsWithLine_of_nextToken (h : nextToken f = w ++ [ch '\n']) :
    f.ended = false ∧ (∀ c ∈ w, ¬ IsSpace c) ∧ ∃ rest, StartsWithLine w f.rest rest := by
  have hended := ended_of_nextToken (f := f) (by rw [h]; exact List.concat_ne_nil _ _)
  rw [nextToken, hended] at h
  obtain ⟨hvisible, rest, hskip⟩ := exists_of_tokenTail_eq_line h
  obtain ⟨lead, hlead, htext⟩ := exists_blanks f.rest
  exact ⟨hended, hvisible, rest, lead, hlead, by rw [List.append_assoc, ← hskip, ← htext]⟩

end MemoryHierarchy
