import MemoryHierarchy.Lib.Legible
import MemoryHierarchy.Memory.Dump

/-!
# The text of a page dump

What `vmem_page_dump_with_options` prints, as a text made of the bytes of the page and the texts of
their addresses, whatever else is in memory (`dumpText_vmemPageDump`). Every byte takes two digits,
so the text is legible: it shows the bytes of the page, and its frame where addresses are shown as
offsets (`legible_pageDump`).
-/

namespace MemoryHierarchy

open Lib

/-- The text of a dump. -/
def dumpText (pointerText : BitVec 64 → List Byte) (sep : List Byte) (output : List DumpItem) :
    List Byte :=
  output.flatMap (DumpItem.text pointerText sep)

/-- The bytes of a page frame, without their offsets. -/
def pageContent (memory : ByteMem) (frame : BitVec 20) : List Byte :=
  (pageBytes memory frame).map Prod.snd

/-- Bytes in lines; `addrText i` is printed in front of a line whose first byte is at offset `i`. -/
def linesText (addrText : ℕ → List Byte) (sep : List Byte) (lineSize : BitVec 64) :
    ℕ → BitVec 64 → List Byte → List Byte
  | _, nbToPrint, [] => if nbToPrint ≠ lineSize then [ch '\n'] else []
  | i, nbToPrint, b :: bytes =>
    (if nbToPrint = lineSize then addrText i else []) ++ printHex 2 b.toNat ++ sep ++
      if nbToPrint - 1 = 0 then
        [ch '\n'] ++ linesText addrText sep lineSize (i + 1) lineSize bytes
      else linesText addrText sep lineSize (i + 1) (nbToPrint - 1) bytes

/-- The text of a page, cut at `offset` and at the end of its line. -/
def pageText (addrText : ℕ → List Byte) (sep : List Byte) (lineSize : BitVec 64) (offset : ℕ)
    (page : List Byte) : List Byte :=
  let cut := (offset / lineSize.toNat + 1) * lineSize.toNat
  linesText addrText sep lineSize 0 lineSize (page.take offset) ++
    (if offset % lineSize.toNat = 0 then [ch '\n'] else []) ++
    addrText offset ++
    (List.replicate (offset % lineSize.toNat) ([ch ' ', ch ' '] ++ sep)).flatten ++
    linesText (fun _ => []) sep lineSize offset lineSize ((page.drop offset).take (cut - offset)) ++
    linesText addrText sep lineSize cut lineSize (page.drop cut)

/-- The texts of the addresses from `start` on. -/
def addrTexts (pointerText : BitVec 64 → List Byte) (showAddr : AddrFmt) (sep : List Byte)
    (start i : ℕ) : List Byte :=
  addressPrint pointerText showAddr (BitVec.ofNat 64 (start + i)) sep

variable {pointerText : BitVec 64 → List Byte} {sep : List Byte} {showAddr : AddrFmt}
  {lineSize : BitVec 64} {memory memory' : ByteMem} {fromAddr : VirtAddr}

/-! ### The bytes -/

theorem dumpText_append (output output' : List DumpItem) :
    dumpText pointerText sep (output ++ output') =
      dumpText pointerText sep output ++ dumpText pointerText sep output' :=
  List.flatMap_append

theorem map_snd_bytesFrom_succ (memory : ByteMem) (a n : ℕ) :
    (bytesFrom memory a (n + 1)).map Prod.snd =
      memory (BitVec.ofNat 64 a) :: (bytesFrom memory (a + 1) n).map Prod.snd := by
  rw [bytesFrom, List.range'_succ]
  rfl

/-- **The loop** prints lines of the bytes that it goes over. -/
theorem dumpText_memDumpLoop (pointerText : BitVec 64 → List Byte) (sep : List Byte)
    (showAddr : AddrFmt) (lineSize : BitVec 64) (memory : ByteMem) {start stop : ℕ}
    (hstop : start + stop < 2 ^ 64) {i n : ℕ} (hi : i + n = stop) (nbToPrint : BitVec 64) :
    dumpText pointerText sep (memDumpLoop memory (BitVec.ofNat 64 (start + stop)) showAddr lineSize
        (BitVec.ofNat 64 (start + i)) nbToPrint) =
      linesText (addrTexts pointerText showAddr sep start) sep lineSize i nbToPrint
        ((bytesFrom memory (start + i) n).map Prod.snd) := by
  have htoNat : ∀ a, a ≤ start + stop → (BitVec.ofNat 64 a).toNat = a := by
    intro a ha
    rw [BitVec.toNat_ofNat, Nat.mod_eq_of_lt (by omega)]
  induction n generalizing i nbToPrint with
  | zero =>
    have hlt : ¬ BitVec.ofNat 64 (start + i) < BitVec.ofNat 64 (start + stop) := by
      rw [BitVec.lt_def, htoNat _ (by omega), htoNat _ le_rfl]
      omega
    rw [memDumpLoop, if_neg hlt]
    change _ = if nbToPrint ≠ lineSize then [ch '\n'] else []
    split_ifs <;> rfl
  | succ n ih =>
    have hlt : BitVec.ofNat 64 (start + i) < BitVec.ofNat 64 (start + stop) := by
      rw [BitVec.lt_def, htoNat _ (by omega), htoNat _ le_rfl]
      omega
    have hnext : BitVec.ofNat 64 (start + i) + 1 = BitVec.ofNat 64 (start + (i + 1)) :=
      (BitVec.ofNat_add (start + i) 1).symm
    have haddress : dumpText pointerText sep
        (if nbToPrint = lineSize then [.address showAddr (BitVec.ofNat 64 (start + i))] else []) =
          if nbToPrint = lineSize then addrTexts pointerText showAddr sep start i else [] := by
      split_ifs
      · exact List.append_nil _
      · rfl
    have hbyte : ∀ (addr : BitVec 64) (b : Byte) (output : List DumpItem),
        dumpText pointerText sep (.byte addr b :: output) =
          printHex 2 b.toNat ++ sep ++ dumpText pointerText sep output := fun _ _ _ => rfl
    rw [memDumpLoop, if_pos hlt, dumpText_append, haddress, hbyte, hnext, map_snd_bytesFrom_succ,
      linesText, List.append_assoc, List.append_assoc, List.append_assoc]
    congr 3
    split_ifs
    · exact congrArg ([ch '\n'] ++ ·) (ih (by omega) lineSize)
    · exact ih (by omega) (nbToPrint - 1)

/-- A part of a page. -/
theorem take_drop_pageContent (memory : ByteMem) (frame : BitVec 20) {i n : ℕ}
    (h : i + n ≤ pageSize) :
    ((pageContent memory frame).drop i).take n =
      (bytesFrom memory (frame.toNat * pageSize + i) n).map Prod.snd := by
  obtain ⟨k, hk⟩ := Nat.exists_eq_add_of_le h
  have hsplit : pageBytes memory frame =
      bytesFrom memory (frame.toNat * pageSize) i ++
        (bytesFrom memory (frame.toNat * pageSize + i) n ++
          bytesFrom memory (frame.toNat * pageSize + i + n) k) := by
    rw [bytesFrom_append, bytesFrom_append, pageBytes, hk, Nat.add_assoc]
  rw [pageContent, hsplit, List.map_append, List.map_append, List.drop_left', List.take_left']
  · rw [List.length_map, length_bytesFrom]
  · rw [List.length_map, length_bytesFrom]

theorem length_pageContent (memory : ByteMem) (frame : BitVec 20) :
    (pageContent memory frame).length = pageSize := by
  rw [pageContent, List.length_map, pageBytes, length_bytesFrom]

/-- **A page dump** is the text of the page, if the line of the address ends inside it. -/
theorem dumpText_vmemPageDump (pointerText : BitVec 64 → List Byte) (sep : List Byte)
    (memory : ByteMem) (fromAddr : VirtAddr) (showAddr : AddrFmt) (hline : lineSize ≠ 0)
    (hends : LineEndsInPage fromAddr.pageOffset lineSize) :
    dumpText pointerText sep (vmemPageDumpWithOptions memory fromAddr showAddr lineSize).2 =
      pageText (addrTexts pointerText showAddr sep
          ((pageFrame (wordsOf memory) fromAddr).toNat * pageSize)) sep lineSize
        fromAddr.pageOffset.toNat (pageContent memory (pageFrame (wordsOf memory) fromAddr)) := by
  rw [vmemPageDumpWithOptions, pageWalk_eq]
  generalize pageFrame (wordsOf memory) fromAddr = frame
  have hframe := frame.isLt
  have hoff := fromAddr.pageOffset.isLt
  have hpos : 0 < lineSize.toNat := Nat.pos_of_ne_zero fun h => hline (BitVec.eq_of_toNat_eq h)
  have hdiv := Nat.div_add_mod' fromAddr.pageOffset.toNat lineSize.toNat
  have hmod := Nat.mod_lt fromAddr.pageOffset.toNat hpos
  obtain ⟨cut, hcut⟩ : ∃ cut, cut =
      (fromAddr.pageOffset.toNat / lineSize.toNat + 1) * lineSize.toNat := ⟨_, rfl⟩
  have hcutLe : cut ≤ pageSize := hcut ▸ hends
  have hoffLe : fromAddr.pageOffset.toNat ≤ cut := by
    rw [hcut, Nat.add_mul, Nat.one_mul]
    omega
  have hlast : frame.toNat * pageSize + pageSize < 2 ^ 64 := by
    simp only [pageSize]
    omega
  -- the pointers, as numbers
  have hstart : (frame.setWidth 32 <<< pageOffsetBits).setWidth 64 =
      BitVec.ofNat 64 (frame.toNat * pageSize) := by
    have hlt : frame.toNat * pageSize < 2 ^ 64 := (Nat.le_add_right _ _).trans_lt hlast
    refine BitVec.eq_of_toNat_eq ?_
    rw [toNat_pageStart, BitVec.toNat_ofNat, Nat.mod_eq_of_lt hlt]
  have hfrom : (frame.setWidth 32 <<< pageOffsetBits).setWidth 64 +
      fromAddr.pageOffset.setWidth 64 =
        BitVec.ofNat 64 (frame.toNat * pageSize + fromAddr.pageOffset.toNat) := by
    rw [hstart, BitVec.ofNat_add, BitVec.ofNat_toNat]
  have hend : (frame.setWidth 32 <<< pageOffsetBits).setWidth 64 +
      fromAddr.pageOffset.setWidth 64 + (lineSize - fromAddr.pageOffset.setWidth 64 % lineSize) =
        BitVec.ofNat 64 (frame.toNat * pageSize + cut) := by
    have hsum : frame.toNat * pageSize + fromAddr.pageOffset.toNat +
        (lineSize.toNat - fromAddr.pageOffset.toNat % lineSize.toNat) =
          frame.toNat * pageSize + cut := by
      rw [hcut, Nat.add_mul, Nat.one_mul]
      omega
    refine BitVec.eq_of_toNat_eq ?_
    rw [toNat_lineEnd frame _ hline, lineEnd, hsum, BitVec.toNat_ofNat]
  have hpageEnd : (frame.setWidth 32 <<< pageOffsetBits).setWidth 64 + BitVec.ofNat 64 pageSize =
      BitVec.ofNat 64 (frame.toNat * pageSize + pageSize) := by
    rw [hstart, BitVec.ofNat_add]
  have hindent : (fromAddr.pageOffset.setWidth 64 % lineSize).toNat =
      fromAddr.pageOffset.toNat % lineSize.toNat := by
    rw [BitVec.toNat_umod, toNat_pageOffset]
  -- the three pieces
  have hfirst := dumpText_memDumpLoop pointerText sep showAddr lineSize memory
    (show frame.toNat * pageSize + fromAddr.pageOffset.toNat < 2 ^ 64 by omega)
    (Nat.zero_add fromAddr.pageOffset.toNat) lineSize
  rw [Nat.add_zero] at hfirst
  have hsecond := dumpText_memDumpLoop pointerText sep .none lineSize memory
    (show frame.toNat * pageSize + cut < 2 ^ 64 by omega)
    (Nat.add_sub_cancel' hoffLe) lineSize
  have hthird := dumpText_memDumpLoop pointerText sep showAddr lineSize memory hlast
    (Nat.add_sub_cancel' hcutLe) lineSize
  have hhead : (pageContent memory frame).take fromAddr.pageOffset.toNat =
      (bytesFrom memory (frame.toNat * pageSize) fromAddr.pageOffset.toNat).map Prod.snd := by
    rw [← List.drop_zero (l := pageContent memory frame), take_drop_pageContent _ _ (by omega),
      Nat.add_zero]
  have htail : (pageContent memory frame).drop cut =
      (bytesFrom memory (frame.toNat * pageSize + cut) (pageSize - cut)).map Prod.snd := by
    rw [← take_drop_pageContent _ _ (Nat.add_sub_cancel' hcutLe).le, List.take_of_length_le]
    rw [List.length_drop, length_pageContent]
  -- what is printed between them
  have hbreak : dumpText pointerText sep
      (if fromAddr.pageOffset.setWidth 64 % lineSize = 0 then [.newline] else []) =
        if fromAddr.pageOffset.toNat % lineSize.toNat = 0 then [ch '\n'] else [] := by
    have hzero : fromAddr.pageOffset.setWidth 64 % lineSize = 0 ↔
        fromAddr.pageOffset.toNat % lineSize.toNat = 0 := by
      rw [← hindent, ← BitVec.toNat_inj]
      rfl
    rw [if_congr hzero rfl rfl]
    split_ifs <;> rfl
  have haddress : ∀ addr, dumpText pointerText sep [.address showAddr addr] =
      addressPrint pointerText showAddr addr sep := fun _ => List.append_nil _
  have hblanks : ∀ n, dumpText pointerText sep (List.replicate n .blank) =
      (List.replicate n ([ch ' ', ch ' '] ++ sep)).flatten := by
    intro n
    rw [dumpText, List.flatMap_def, List.map_replicate]
    rfl
  simp only [dumpText_append, memDumpWithOptions, hbreak, haddress, hblanks, hindent]
  rw [hend, hpageEnd, hfrom, hstart, hfirst, hsecond, hthird, pageText, ← hcut, hhead, htail,
    take_drop_pageContent _ _ (by omega)]
  rfl

/-! ### Reading a dump -/

/-- **Lines** show their bytes, if the texts of addresses end where they should. -/
theorem linesText_legible {addrText addrText' : ℕ → List Byte}
    (haddr : ∀ i r s, addrText i ++ r = addrText' i ++ s → r = s) {bytes bytes' : List Byte}
    (hlength : bytes.length = bytes'.length) {i : ℕ} {nbToPrint : BitVec 64} {r s : List Byte}
    (heq : linesText addrText sep lineSize i nbToPrint bytes ++ r =
      linesText addrText' sep lineSize i nbToPrint bytes' ++ s) : bytes = bytes' ∧ r = s := by
  induction bytes generalizing bytes' i nbToPrint with
  | nil =>
    obtain rfl := List.length_eq_zero_iff.mp hlength.symm
    exact ⟨rfl, List.append_cancel_left heq⟩
  | cons b bytes ih =>
    obtain ⟨b', bytes', rfl⟩ := List.exists_cons_of_length_eq_add_one hlength.symm
    have hlength' := Nat.succ.inj hlength
    have haddress : ∀ x y, (if nbToPrint = lineSize then addrText i else []) ++ x =
        (if nbToPrint = lineSize then addrText' i else []) ++ y → x = y := by
      intro x y hxy
      split_ifs at hxy
      · exact haddr i x y hxy
      · exact hxy
    simp only [linesText, List.append_assoc] at heq
    obtain ⟨hbyte, hsep⟩ := legible_printHex_width 2 (fun b : Byte => b.isLt) (haddress _ _ heq)
    obtain rfl := BitVec.eq_of_toNat_eq hbyte
    have hlines := List.append_cancel_left hsep
    split_ifs at hlines
    · rw [List.append_assoc, List.append_assoc] at hlines
      obtain ⟨rfl, hrs⟩ := ih hlength' (List.append_cancel_left hlines)
      exact ⟨rfl, hrs⟩
    · obtain ⟨rfl, hrs⟩ := ih hlength' hlines
      exact ⟨rfl, hrs⟩

/-- The end of the line that an offset lies in is behind it. -/
theorem le_lineEnd (hline : lineSize ≠ 0) (offset : ℕ) :
    offset ≤ (offset / lineSize.toNat + 1) * lineSize.toNat := by
  have hpos : 0 < lineSize.toNat := Nat.pos_of_ne_zero fun h => hline (BitVec.eq_of_toNat_eq h)
  exact (Nat.lt_div_mul_add hpos).le.trans_eq (by rw [Nat.add_mul, Nat.one_mul])

/-- **The text of a page** shows its bytes, and what the text of an address shows. -/
theorem pageText_legible (hline : lineSize ≠ 0) {addrText addrText' : ℕ → List Byte} {P : Prop}
    (haddr : ∀ i r s, addrText i ++ r = addrText' i ++ s → P ∧ r = s) {page page' : List Byte}
    (hlength : page.length = page'.length) {offset : ℕ} {r s : List Byte}
    (heq : pageText addrText sep lineSize offset page ++ r =
      pageText addrText' sep lineSize offset page' ++ s) : (P ∧ page = page') ∧ r = s := by
  have hends : ∀ i r s, addrText i ++ r = addrText' i ++ s → r = s :=
    fun i r s h => (haddr i r s h).2
  have hnone : ∀ (_ : ℕ) (r s : List Byte), [] ++ r = [] ++ s → r = s := fun _ _ _ h => h
  simp only [pageText, List.append_assoc] at heq
  -- piece by piece
  obtain ⟨hbefore, hbreak⟩ := linesText_legible hends (by simp [hlength]) heq
  obtain ⟨hP, hblanks⟩ := haddr _ _ _ (List.append_cancel_left hbreak)
  obtain ⟨hwithin, hrest⟩ := linesText_legible hnone (by simp [hlength])
    (List.append_cancel_left hblanks)
  obtain ⟨hafter, hrs⟩ := linesText_legible hends (by simp [hlength]) hrest
  obtain ⟨k, hk⟩ := Nat.exists_eq_add_of_le (le_lineEnd hline offset)
  rw [hk, Nat.add_sub_cancel_left] at hwithin
  rw [hk, ← List.drop_drop, ← List.drop_drop] at hafter
  have hfrom : page.drop offset = page'.drop offset := by
    rw [← List.take_append_drop k (page.drop offset), hwithin, hafter, List.take_append_drop]
  have hpage : page = page' := by
    rw [← List.take_append_drop offset page, hbefore, hfrom, List.take_append_drop]
  exact ⟨⟨hP, hpage⟩, hrs⟩

/-- The text of an offset shows the offset. -/
theorem legible_addressPrint (pointerText : BitVec 64 → List Byte) (sep : List Byte)
    (hshow : showAddr ≠ .pointer) :
    Legible (fun addr addr' => showAddr ≠ .none → addr = addr')
      fun addr => addressPrint pointerText showAddr addr sep := by
  have hnumeral : ∀ {f : ℕ → List Byte}, Legible Eq f →
      Legible (fun addr addr' => showAddr ≠ .none → addr = addr')
        fun addr : BitVec 64 => f addr.toNat :=
    fun hf => (hf.comp BitVec.toNat).mono fun _ _ h _ => BitVec.eq_of_toNat_eq h
  cases showAddr with
  | none => exact (legible_const []).mono fun _ _ _ h => absurd rfl h
  | pointer => exact absurd rfl hshow
  | offset =>
    exact (hnumeral (legible_printHex 1 (c := ch ':') (t := sep) (by decide))).congr
      fun addr => List.append_assoc _ _ _
  | offsetU =>
    exact (hnumeral (legible_printDec (c := ch ':') (t := sep) (by decide))).congr
      fun addr => List.append_assoc _ _ _

/-- Pages that start at the same address are in the same frame. -/
theorem frame_eq_of_ofNat_eq {frame frame' : BitVec 20} {i : ℕ}
    (h : BitVec.ofNat 64 (frame.toNat * pageSize + i) =
      BitVec.ofNat 64 (frame'.toNat * pageSize + i)) : frame = frame' := by
  rw [BitVec.ofNat_add, BitVec.ofNat_add, BitVec.add_left_inj] at h
  have hframe := frame.isLt
  have hframe' := frame'.isLt
  have hstart := congrArg BitVec.toNat h
  rw [BitVec.toNat_ofNat, BitVec.toNat_ofNat, Nat.mod_eq_of_lt, Nat.mod_eq_of_lt] at hstart
  · exact BitVec.eq_of_toNat_eq (Nat.mul_right_cancel (by decide) hstart)
  · simp only [pageSize]
    omega
  · simp only [pageSize]
    omega

/-- **A page dump is legible**: it shows the bytes of the page, and the frame that they are in
where addresses are shown as offsets. -/
theorem legible_pageDump (pointerText : BitVec 64 → List Byte) (sep : List Byte)
    (fromAddr : VirtAddr) (hshow : showAddr ≠ .pointer) (hline : lineSize ≠ 0)
    (hends : LineEndsInPage fromAddr.pageOffset lineSize) :
    Legible
      (fun memory memory' =>
        let frame := pageFrame (wordsOf memory) fromAddr
        let frame' := pageFrame (wordsOf memory') fromAddr
        (showAddr ≠ .none → frame = frame') ∧
          pageContent memory frame = pageContent memory' frame')
      fun memory => dumpText pointerText sep
        (vmemPageDumpWithOptions memory fromAddr showAddr lineSize).2 := by
  intro memory memory' r s heq
  simp only [dumpText_vmemPageDump _ _ _ _ _ hline hends] at heq
  refine pageText_legible hline (fun i r s h => ?_)
    ((length_pageContent _ _).trans (length_pageContent _ _).symm) heq
  exact (legible_addressPrint pointerText sep hshow h).imp_left
    fun haddr hnone => frame_eq_of_ofNat_eq (haddr hnone)

/-- And nothing else. -/
theorem dumpText_congr (pointerText : BitVec 64 → List Byte) (sep : List Byte)
    (hline : lineSize ≠ 0) (hends : LineEndsInPage fromAddr.pageOffset lineSize)
    (hframe : showAddr ≠ .none →
      pageFrame (wordsOf memory) fromAddr = pageFrame (wordsOf memory') fromAddr)
    (hpage : pageContent memory (pageFrame (wordsOf memory) fromAddr) =
      pageContent memory' (pageFrame (wordsOf memory') fromAddr)) :
    dumpText pointerText sep (vmemPageDumpWithOptions memory fromAddr showAddr lineSize).2 =
      dumpText pointerText sep (vmemPageDumpWithOptions memory' fromAddr showAddr lineSize).2 := by
  have haddr : addrTexts pointerText showAddr sep
        ((pageFrame (wordsOf memory) fromAddr).toNat * pageSize) =
      addrTexts pointerText showAddr sep
        ((pageFrame (wordsOf memory') fromAddr).toNat * pageSize) := by
    have htexts : ∀ start, addrTexts pointerText .none sep start = fun _ => [] := fun _ => rfl
    by_cases hnone : showAddr = .none
    · rw [hnone, htexts, htexts]
    · rw [hframe hnone]
  rw [dumpText_vmemPageDump _ _ _ _ _ hline hends, dumpText_vmemPageDump _ _ _ _ _ hline hends,
    haddr, hpage]

end MemoryHierarchy
