import MemoryHierarchy.Memory.DescriptionLoads
import MemoryHierarchy.Memory.PageText
import MemoryHierarchy.Memory.Success

/-!
# The memory printer

`test-memory.c`: the memory is loaded from a dump or from a description, and the pages of the
addresses given are printed. So a description is printed as what its files hold, each page where
the translation pages put it (`main_prints_files`), and two memories are printed alike exactly if
the pages printed are alike (`dumpPages_eq_iff`).
-/

namespace MemoryHierarchy.TestMemory

open Lib

/-- `sscanf` of an argument, as a hexadecimal number of 64 bits. -/
def scanHex (arg : List Byte) : Option ℕ := (fscanfUnsigned 16 (File.open arg)).1

/-- The format an argument stands for. -/
def addrFmt (arg : List Byte) : AddrFmt :=
  if arg.head? = some (ch 'p') then .pointer
  else if arg.head? = some (ch 'o') then .offset
  else if arg.head? = some (ch 'u') then .offsetU
  else .none

/-- The loop of `main` over the addresses to print. -/
def dumpPages (pointerText : BitVec 64 → List Byte) (memory : ByteMem) (fmt : AddrFmt)
    (spacer : List Byte) : List (List Byte) → List Byte
  | [] => []
  | arg :: args =>
    match scanHex arg with
    | none =>
      chars "pas compris ! ==> Abandon\n" ++ dumpPages pointerText memory fmt spacer args
    | some vaddr64 =>
      match initVirtAddr64 (BitVec.ofNat 64 vaddr64) with
      | .error _ => chars "Mauvaise adresse ==> Abandon\n"
      | .ok vaddr =>
        dumpText pointerText spacer (vmemPageDumpWithOptions memory vaddr fmt 16).2 ++
          dumpPages pointerText memory fmt spacer args

/-- What the files that can be given as memory hold, as they are opened. -/
structure MemoryFiles where
  dump : Path → Option (BitVec 64 × List Byte)
  desc : Path → Option File

/-- `main`: its exit code, and what it prints. It has no result where the terminator behind the
spacer is not stored in the spacer. -/
def main (env : LoadEnv) (files : MemoryFiles) (pointerText : BitVec 64 → List Byte)
    (argv : List (List Byte)) : Option (ℕ × List Byte) :=
  match argv with
  | _ :: command :: filename :: fmt :: spacer :: addr :: addrs =>
    if command ≠ chars "dump" ∧ command ≠ chars "desc" then some (1, [])
    else
      let load :=
        if command = chars "dump" then memInitFromDumpfile env (files.dump filename) none 0
        else memInitFromDescription env (files.desc filename) none 0
      match spacer with
      | [] => none
      | c :: _ =>
        if load.err = .errNone then do
          let memory ← load.memory
          some (0, dumpPages pointerText memory (addrFmt fmt) [c] (addr :: addrs))
        else some (1, [])
  | _ => some (1, [])

variable {pointerText : BitVec 64 → List Byte} {memory memory' : ByteMem} {fmt : AddrFmt}
  {spacer : List Byte}

/-! ### What is printed for an argument -/

/-- What is printed for one argument. -/
def argText (pointerText : BitVec 64 → List Byte) (fmt : AddrFmt) (spacer arg : List Byte)
    (memory : ByteMem) : List Byte :=
  match scanHex arg with
  | none => chars "pas compris ! ==> Abandon\n"
  | some vaddr64 => dumpText pointerText spacer
      (vmemPageDumpWithOptions memory (virtAddr64 (BitVec.ofNat 64 vaddr64)) fmt 16).2

/-- No address is a bad one, so the loop goes over all arguments. -/
theorem dumpPages_eq (memory : ByteMem) (args : List (List Byte)) :
    dumpPages pointerText memory fmt spacer args =
      args.flatMap fun arg => argText pointerText fmt spacer arg memory := by
  induction args with
  | nil => rfl
  | cons arg args ih =>
    rw [dumpPages, List.flatMap_cons, argText, ← ih]
    cases scanHex arg with
    | none => rfl
    | some vaddr64 => simp only [initVirtAddr64_eq]

/-- The line of any address ends inside its page. -/
theorem lineEndsInPage_sixteen (pageOffset : BitVec 12) : LineEndsInPage pageOffset 16 :=
  lineEndsInPage_of_dvd pageOffset ⟨256, rfl⟩

/-! ### Two memories -/

/-- The pages of an address are alike: they hold the same, and where addresses are shown they are
in the same frame. -/
def PageAlike (fmt : AddrFmt) (memory memory' : ByteMem) (vaddr : VirtAddr) : Prop :=
  (fmt ≠ .none → pageFrame (wordsOf memory) vaddr = pageFrame (wordsOf memory') vaddr) ∧
    pageContent memory (pageFrame (wordsOf memory) vaddr) =
      pageContent memory' (pageFrame (wordsOf memory') vaddr)

/-- The text of an argument shows its page. -/
theorem legible_argText (pointerText : BitVec 64 → List Byte) (spacer arg : List Byte)
    (hfmt : fmt ≠ .pointer) :
    Legible (fun memory memory' => ∀ vaddr64, scanHex arg = some vaddr64 →
        PageAlike fmt memory memory' (virtAddr64 (BitVec.ofNat 64 vaddr64)))
      (argText pointerText fmt spacer arg) := by
  intro memory memory' r s heq
  rw [argText, argText] at heq
  cases hscan : scanHex arg with
  | none =>
    rw [hscan] at heq
    exact ⟨fun _ hsome => absurd hsome.symm (Option.some_ne_none _), List.append_cancel_left heq⟩
  | some vaddr64 =>
    rw [hscan] at heq
    obtain ⟨hpage, hrs⟩ := legible_pageDump pointerText spacer _ hfmt (by decide)
      (lineEndsInPage_sixteen _) heq
    refine ⟨fun n hn => ?_, hrs⟩
    obtain rfl := Option.some_injective _ hn
    exact hpage

/-- **Two memories are printed alike** if and only if, for every argument that is understood, its
pages are alike. -/
theorem dumpPages_eq_iff (pointerText : BitVec 64 → List Byte) (memory memory' : ByteMem)
    (fmt : AddrFmt) (hfmt : fmt ≠ .pointer) (spacer : List Byte) (args : List (List Byte)) :
    dumpPages pointerText memory fmt spacer args = dumpPages pointerText memory' fmt spacer args ↔
      ∀ arg ∈ args, ∀ vaddr64, scanHex arg = some vaddr64 →
        PageAlike fmt memory memory' (virtAddr64 (BitVec.ofNat 64 vaddr64)) := by
  rw [dumpPages_eq, dumpPages_eq]
  constructor
  · exact (legible_flatMap args fun arg _ =>
      legible_argText pointerText spacer arg hfmt).related
  · intro halike
    refine List.flatMap_congr fun arg harg => ?_
    rw [argText, argText]
    cases hscan : scanHex arg with
    | none => rfl
    | some vaddr64 =>
      obtain ⟨hframe, hpage⟩ := halike arg harg vaddr64 hscan
      exact dumpText_congr pointerText spacer (by decide) (lineEndsInPage_sixteen _) hframe hpage

/-- What lies outside of the page is not printed. -/
theorem dumpPages_eq_iff_elsewhere :
    dumpPages (fun _ => []) (fun _ => 0) .offset (chars " ") [chars "0x12", chars "page"] =
      dumpPages (fun _ => []) (fun i => if i.toNat < 4096 then 0 else 7) .offset (chars " ")
        [chars "0x12", chars "page"] := by
  have hzero : ∀ n < 4096, (if (BitVec.ofNat 64 n).toNat < 4096 then (0 : Byte) else 7) = 0 := by
    intro n hn
    rw [BitVec.toNat_ofNat, Nat.mod_eq_of_lt (by omega), if_pos hn]
  have hframe : pageFrame (wordsOf fun _ => 0) (virtAddr64 0x12) = 0 := by decide
  have hframe' : pageFrame (wordsOf fun i => if i.toNat < 4096 then 0 else 7) (virtAddr64 0x12) =
      0 := by decide +kernel
  refine (dumpPages_eq_iff (fun _ => []) _ _ .offset (by decide) (chars " ") _).mpr ?_
  intro arg harg vaddr64 hscan
  obtain rfl | rfl := List.mem_pair.mp harg
  · obtain rfl : 0x12 = vaddr64 := Option.some_injective _ ((by decide : _ = _).trans hscan)
    refine ⟨fun _ => hframe.trans hframe'.symm, ?_⟩
    change pageContent _ (pageFrame (wordsOf fun _ => 0) (virtAddr64 0x12)) =
      pageContent _ (pageFrame (wordsOf fun i => if i.toNat < 4096 then 0 else 7) (virtAddr64 0x12))
    rw [hframe, hframe', pageContent, pageContent, pageBytes, pageBytes, bytesFrom, bytesFrom,
      List.map_map, List.map_map]
    refine List.map_congr_left fun n hn => (hzero n ?_).symm
    exact (List.mem_range'_1.mp hn).2
  · exact absurd ((by decide : none = scanHex (chars "page")).trans hscan).symm
      (Option.some_ne_none _)

/-! ### From a description to its pages -/

/-- An address to print, and the page it lies in. -/
structure Request where
  vaddr64 : BitVec 64
  page : DataPage

/-- An argument that asks for a page of a description, by any of its addresses. The page is listed
by its first address. -/
structure Asks (d : Description) (arg : List Byte) (request : Request) : Prop where
  numeral : IsHexNumeral arg request.vaddr64.toNat
  listed : request.page ∈ d.dataPages
  aligned : pageSize ∣ request.page.virtaddr.toNat
  inside : request.vaddr64.toNat / pageSize = request.page.virtaddr.toNat / pageSize

/-- The text of a page as the files describe it. -/
def requestText (pointerText : BitVec 64 → List Byte) (fmt : AddrFmt) (spacer : List Byte)
    (d : Description) (files : Path → Option (List Byte)) (request : Request) : List Byte :=
  pageText (addrTexts pointerText fmt spacer (placeOf (d.tables files) request.page.virtaddr))
    spacer 16 (request.vaddr64.toNat % pageSize) (pageIn files request.page.path)

variable {d : Description} {files : Path → Option (List Byte)} {arg : List Byte}
  {request : Request}

theorem scanHex_of_isHexNumeral {n : ℕ} (h : IsHexNumeral arg n) (hn : n < 2 ^ 64) :
    scanHex arg = some n := by
  obtain ⟨lead, digits, hlead, hne, hdigits, rfl, rfl⟩ := h
  obtain ⟨c, t, hc, hct⟩ := exists_isHex_cons hlead hdigits hne
  have hskip : (c :: t).dropWhile (fun b => isspace b.toNat) = c :: t :=
    List.dropWhile_cons_of_neg (p := fun b : Byte => isspace b.toNat) hc.not_space
  have hdrop := drop_hexPrefix (s := []) hlead hdigits hne fun b hb => nomatch hb
  rw [List.append_nil, List.append_nil, hct] at hdrop
  have htake : digits.takeWhile (fun b => isxdigit b.toNat) = digits :=
    List.takeWhile_eq_self_iff.mpr hdigits
  simp only [scanHex, fscanfUnsigned, File.open, hct, hskip, splitSign_of_isHex hc, true_and,
    hdrop, if_true, htake, if_neg hne, unsigned64, if_neg (Nat.not_le_of_gt hn),
    Bool.false_eq_true, if_false]

/-- All addresses of a page are translated into one frame. -/
theorem pageFrame_virtAddr64 (memSpace : Mem) {vaddr64 vaddr64' : BitVec 64}
    (h : vaddr64.toNat / pageSize = vaddr64'.toNat / pageSize) :
    pageFrame memSpace (virtAddr64 vaddr64) = pageFrame memSpace (virtAddr64 vaddr64') := by
  refine pageFrame_congr memSpace (BitVec.eq_of_toNat_eq ?_)
  rw [virtAddrToVirtualPageNumber_toNat, virtAddrToVirtualPageNumber_toNat]
  simp only [virtAddr64, BitVec.toNat_ofNat]
  simp only [pageSize] at h
  omega

/-- A page that starts where its frame does. -/
theorem placeOf_of_dvd (memory : ByteMem) {virtaddr : BitVec 64}
    (h : pageSize ∣ virtaddr.toNat) :
    placeOf memory virtaddr =
      (pageFrame (wordsOf memory) (virtAddr64 virtaddr)).toNat * pageSize := by
  have hoffset : (virtAddr64 virtaddr).pageOffset.toNat = 0 := by
    simp only [virtAddr64, BitVec.toNat_ofNat]
    exact Nat.mod_eq_zero_of_dvd h
  rw [placeOf, pageWalk_eq]
  simp only [hoffset, Nat.add_zero]

/-- A frame that holds a page holds what is in its file. -/
theorem pageContent_eq_pageIn {frame : BitVec 20} {path : Path}
    (h : HoldsPage files memory (frame.toNat * pageSize, path)) :
    pageContent memory frame = pageIn files path := by
  obtain ⟨content, hfile, hcontent⟩ := h
  have hlength : pageSize ≤ content.length := by
    obtain ⟨hlt, -⟩ := List.getElem?_eq_some_iff.mp (hcontent (pageSize - 1) (by decide))
    simp only [pageSize] at hlt ⊢
    omega
  rw [pageIn, hfile, Option.getD_some]
  refine List.ext_getElem ?_ fun k hk _ => ?_
  · rw [length_pageContent, List.length_take_of_le hlength]
  · rw [length_pageContent] at hk
    obtain ⟨_, hbyte⟩ := List.getElem?_eq_some_iff.mp (hcontent k hk)
    simp only [pageContent, pageBytes, bytesFrom, List.getElem_map, List.getElem_range',
      List.getElem_take, hbyte, Nat.one_mul]

/-- **The text of an argument** that asks for a page. -/
theorem argText_of_asks (hfits : d.Fits files) (hmemory : HoldsTables d files memory)
    (hpages : ∀ p ∈ d.dataPages, HoldsPage files memory (p.page memory))
    (h : Asks d arg request) :
    argText pointerText fmt spacer arg memory =
      requestText pointerText fmt spacer d files request := by
  have hplace := placeOf_of_dvd memory h.aligned
  have hholds := hpages _ h.listed
  rw [DataPage.page, hplace] at hholds
  have hoffset : (virtAddr64 request.vaddr64).pageOffset.toNat =
      request.vaddr64.toNat % pageSize := by
    simp only [virtAddr64, BitVec.toNat_ofNat]
  rw [argText, scanHex_of_isHexNumeral h.numeral request.vaddr64.isLt]
  simp only [BitVec.ofNat_toNat, BitVec.setWidth_eq]
  rw [dumpText_vmemPageDump _ _ _ _ _ (by decide) (lineEndsInPage_sixteen _), hoffset,
    pageFrame_virtAddr64 _ h.inside, pageContent_eq_pageIn hholds, ← hplace,
    placeOf_eq hfits hmemory h.listed]
  rfl

/-- **From files to pages.** A description that is well formed and fits, and addresses in pages it
lists: the program returns `0`, and prints those pages as their files hold them. -/
theorem main_prints_files (env : LoadEnv) (around : ByteMem) (files : MemoryFiles)
    (pointerText : BitVec 64 → List Byte) (d : Description)
    (program filename fmt spacer : List Byte) (args : List (List Byte))
    (requests : List Request) (hcalloc : env.calloc = some around) (hwf : d.WellFormed)
    (hfits : d.Fits env.files) (hfile : files.desc filename = some (File.open d.text))
    (hspacer : spacer ≠ []) (hne : args ≠ []) (hargs : List.Forall₂ (Asks d) args requests) :
    main env files pointerText (program :: chars "desc" :: filename :: fmt :: spacer :: args) =
      some (0, requests.flatMap
        (requestText pointerText (addrFmt fmt) (spacer.take 1) d env.files)) := by
  obtain ⟨c, spacer, rfl⟩ := List.exists_cons_of_ne_nil hspacer
  obtain ⟨arg, args, rfl⟩ := List.exists_cons_of_ne_nil hne
  have hload := memInitFromDescription_eq hwf hfits hcalloc none 0
  have hmemory := holdsTables_overlays hfits hwf.capacity_le (List.Sublist.refl _)
    (List.subset_append_left _ _) (zeroed around (BitVec.ofNat 64 d.capacity))
  have hpages := (holds_overlays hfits hwf.capacity_le
    (zeroed around (BitVec.ofNat 64 d.capacity))).1
  generalize ((d.pages (d.tables env.files)).map (blockAt env.files)).foldl overlay
    (zeroed around (BitVec.ofNat 64 d.capacity)) = memory at hload hmemory hpages
  rw [← pages_eq hfits hmemory] at hpages
  have htext : dumpPages pointerText memory (addrFmt fmt) [c] (arg :: args) =
      requests.flatMap (requestText pointerText (addrFmt fmt) [c] d env.files) := by
    have htexts : List.Forall₂ Eq
        ((arg :: args).map fun arg => argText pointerText (addrFmt fmt) [c] arg memory)
        (requests.map (requestText pointerText (addrFmt fmt) [c] d env.files)) :=
      List.forall₂_map_left_iff.mpr (List.forall₂_map_right_iff.mpr
        (hargs.imp fun _ _ hasks => argText_of_asks hfits hmemory
          (fun p hp => hpages _ (List.mem_append_right _ (List.mem_map_of_mem hp))) hasks))
    rw [List.forall₂_eq_eq_eq] at htexts
    rw [dumpPages_eq, List.flatMap_def, List.flatMap_def, htexts]
  have hdump : chars "desc" ≠ chars "dump" := by decide
  rw [main]
  simp only [hdump, hfile, hload, ne_eq, not_true_eq_false, and_false, if_false, if_true,
    Option.bind_eq_bind, Option.bind_some, htext, List.take_succ_cons, List.take_zero]

/-- `0x1008` in the memory of three pages. -/
theorem main_prints_files_three :
    main ⟨threeFiles, some fun _ => 1, fun _ => []⟩
        ⟨fun _ => none, fun _ => some (File.open threePages.text)⟩ (fun _ => [])
        [chars "test-memory", chars "desc", chars "three.txt", chars "o", chars ", ",
          chars "0x1008"] =
      some (0, requestText (fun _ => []) .offset (chars ",") threePages threeFiles
        ⟨0x1008, { numeral := [ch '1', ch '0', ch '0', ch '0'], virtaddr := 0x1000,
                   path := [ch 'd'] }⟩) := by
  have hasks : Asks threePages (chars "0x1008")
      ⟨0x1008, { numeral := [ch '1', ch '0', ch '0', ch '0'], virtaddr := 0x1000,
                 path := [ch 'd'] }⟩ :=
    ⟨⟨chars "0x", chars "1008", .inr (.inl rfl), by decide, by decide, rfl, by decide⟩,
      List.mem_singleton_self _, by decide, by decide⟩
  rw [main_prints_files ⟨threeFiles, some fun _ => 1, fun _ => []⟩ (fun _ => 1)
    ⟨fun _ => none, fun _ => some (File.open threePages.text)⟩ (fun _ => []) threePages
    (chars "test-memory") (chars "three.txt") (chars "o") (chars ", ") [chars "0x1008"] _ rfl
    threePages_wellFormed threePages_fits rfl (by decide) (List.cons_ne_nil _ _)
    (.cons hasks .nil), List.flatMap_singleton]
  rfl

end MemoryHierarchy.TestMemory
