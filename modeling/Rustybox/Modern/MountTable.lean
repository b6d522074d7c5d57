import Rustybox.Modern.Mount
import Rustybox.Rust.Utf8

/-!
# The mount table

The kernel writes a line of `/proc/mounts` for each mount, with the octal of a space, a tab, a
newline or a backslash for each of these in a name.  `mount` and `umount` read the lines back word
by word and take the words as they are.

* `names_exact_iff`: both read the names that were written exactly when the names are words, with
  no backslash in them, and no source starts like a comment.
-/

namespace Rustybox.Modern.Mount

open Rustybox.Rust

/-! ### The writer -/

/-- A mount.  Its names are any bytes; the type and the options are words of the kernel's own. -/
structure Mounted where
  source : List UInt8
  dir : List UInt8
  vfstype : List Char
  opts : List Char
  source_ne : source ≠ []
  dir_ne : dir ≠ []
  vfstype_word : IsWord vfstype
  opts_word : IsWord opts

/-- A byte of a name as the kernel writes it. -/
def mangleByte (b : UInt8) : List UInt8 :=
  if b = 0x20 then asBytes "\\040".toList
  else if b = 0x09 then asBytes "\\011".toList
  else if b = 0x0A then asBytes "\\012".toList
  else if b = 0x5C then asBytes "\\134".toList
  else [b]

def mangle (name : List UInt8) : List UInt8 := name.flatMap mangleByte

/-- What stands after the two names in a line. -/
def lineTail (m : Mounted) : List Char :=
  m.vfstype ++ ' ' :: (m.opts ++ ' ' :: ("0".toList ++ ' ' :: "0".toList))

/-- A line of `/proc/mounts`. -/
def kernelLine (m : Mounted) : List UInt8 :=
  mangle m.source ++ asBytes [' '] ++ mangle m.dir ++ asBytes (' ' :: lineTail m ++ ['\n'])

def procMounts (mounts : List Mounted) : List UInt8 := mounts.flatMap kernelLine

/-! ### The readers -/

/-- `fs::read_to_string`: only UTF-8 can be read. -/
def readToString (bytes : List UInt8) : Option (List Char) :=
  if asBytes (fromUtf8Lossy bytes) = bytes then some (fromUtf8Lossy bytes) else none

/-- `MountEntry` of `umount`. -/
structure MountEntry where
  fsname : List Char
  dir : List Char
  vfstype : List Char
  deriving DecidableEq

/-- One line of `read_proc_mounts`. -/
def mountLine (line : List Char) : Option MountEntry :=
  match splitWhitespace line with
  | fsname :: dir :: vfstype :: _ => some ⟨fsname, dir, vfstype⟩
  | _ => none

def readProcMounts (content : Option (List Char)) : List MountEntry :=
  match content with
  | none => []
  | some content => (lines content).filterMap mountLine

/-- `already_mounted`, where `normalize` resolves a path. -/
def alreadyMounted (normalize : List Char → List Char) (content : Option (List Char))
    (dir : List Char) : Bool :=
  (readFstabLike content).any fun e => normalize e.dir = normalize dir

/-- What `umount -a` asks `unmount_one` for: the mount point, and the device for `-r`. -/
def umountAll (fstype : Option (List Char)) (content : Option (List Char)) :
    List (List Char × List Char) :=
  ((readProcMounts content).reverse.filter fun e =>
    (fstype.all fun f => (f.splitOn ',').contains e.vfstype) ∧ e.dir ≠ "/".toList).map
    fun e => (e.dir, e.fsname)

/-! ### Names as text -/

/-- A character of a name as the kernel writes it. -/
def mangleChar (ch : Char) : List Char :=
  if ch = ' ' then "\\040".toList
  else if ch = '\t' then "\\011".toList
  else if ch = '\n' then "\\012".toList
  else if ch = '\\' then "\\134".toList
  else [ch]

def mangleText (name : List Char) : List Char := name.flatMap mangleChar

theorem mangleByte_of_ge {b : UInt8} (h : 128 ≤ b.toNat) : mangleByte b = [b] := by
  have hne : ∀ x : UInt8, x.toNat < 128 → b ≠ x := by
    rintro x hx rfl
    omega
  rw [mangleByte, if_neg (hne _ (by decide)), if_neg (hne _ (by decide)),
    if_neg (hne _ (by decide)), if_neg (hne _ (by decide))]

theorem mangle_encode (ch : Char) :
    mangle (String.utf8EncodeChar ch) = asBytes (mangleChar ch) := by
  rcases utf8EncodeChar_ascii ch with ⟨hlt, hch⟩ | ⟨hge, hall⟩
  · have hiff : ∀ x : Char, x.val.toNat < 128 →
        (UInt8.ofNat ch.val.toNat = UInt8.ofNat x.val.toNat ↔ ch = x) := by
      intro x hx
      constructor
      · intro h
        have := congrArg UInt8.toNat h
        rw [toNat_ofNat_of_lt (by omega), toNat_ofNat_of_lt (by omega)] at this
        exact Char.ext (UInt32.toNat_inj.mp this)
      · rintro rfl
        rfl
    have h1 : UInt8.ofNat ch.val.toNat = 0x20 ↔ ch = ' ' := hiff ' ' (by decide)
    have h2 : UInt8.ofNat ch.val.toNat = 0x09 ↔ ch = '\t' := hiff '\t' (by decide)
    have h3 : UInt8.ofNat ch.val.toNat = 0x0A ↔ ch = '\n' := hiff '\n' (by decide)
    have h4 : UInt8.ofNat ch.val.toNat = 0x5C ↔ ch = '\\' := hiff '\\' (by decide)
    rw [hch, mangle, List.flatMap_singleton, mangleByte, mangleChar]
    simp only [h1, h2, h3, h4]
    split
    · rfl
    split
    · rfl
    split
    · rfl
    split
    · rfl
    · rw [asBytes, List.flatMap_singleton, hch]
  · have hne : ∀ x : Char, x.val.toNat < 128 → ch ≠ x := by
      rintro x hx rfl
      omega
    have hid : mangle (String.utf8EncodeChar ch) = String.utf8EncodeChar ch := by
      rw [mangle]
      exact (List.flatMap_congr fun b hb => mangleByte_of_ge (hall b hb)).trans
        (List.flatMap_singleton' _)
    rw [hid, mangleChar, if_neg (hne _ (by decide)), if_neg (hne _ (by decide)),
      if_neg (hne _ (by decide)), if_neg (hne _ (by decide)), asBytes, List.flatMap_singleton]

/-- **Escaping the bytes of a text is escaping its characters.** -/
theorem mangle_asBytes (s : List Char) : mangle (asBytes s) = asBytes (mangleText s) := by
  induction s with
  | nil => rfl
  | cons ch s ih =>
    have hcons : asBytes (ch :: s) = String.utf8EncodeChar ch ++ asBytes s := List.flatMap_cons
    have htext : mangleText (ch :: s) = mangleChar ch ++ mangleText s := List.flatMap_cons
    rw [hcons, htext, asBytes_append, ← mangle_encode, ← ih]
    exact List.flatMap_append

/-- A word without a backslash is written as it is, and only such a word is. -/
theorem mangleText_eq_self_iff {s : List Char} (hs : ∀ ch ∈ s, isWhitespace ch = false) :
    mangleText s = s ↔ '\\' ∉ s := by
  have hchar : ∀ ch ∈ s, ch ≠ '\\' → mangleChar ch = [ch] := by
    intro ch hch hne
    have hws : ∀ x : Char, isWhitespace x = true → ch ≠ x := by
      rintro x hx rfl
      rw [hs ch hch] at hx
      cases hx
    rw [mangleChar, if_neg (hws _ (by decide)), if_neg (hws _ (by decide)),
      if_neg (hws _ (by decide)), if_neg hne]
  constructor
  · intro h hmem
    -- a backslash makes the text longer
    have hlen : ∀ l : List Char, l.length ≤ (mangleText l).length ∧
        ('\\' ∈ l → l.length < (mangleText l).length) := by
      intro l
      induction l with
      | nil => simp [mangleText]
      | cons ch l ih =>
        have hcons : mangleText (ch :: l) = mangleChar ch ++ mangleText l := List.flatMap_cons
        have h1 : 1 ≤ (mangleChar ch).length ∧ (ch = '\\' → 1 < (mangleChar ch).length) := by
          rw [mangleChar]
          by_cases hb : ch = '\\'
          · subst hb
            decide
          · split_ifs <;> simp [hb]
        rw [hcons, List.length_append, List.length_cons, List.mem_cons]
        constructor
        · omega
        · rintro (rfl | hm)
          · have := h1.2 rfl
            omega
          · have := ih.2 hm
            omega
    have := (hlen s).2 hmem
    rw [h] at this
    omega
  · intro h
    rw [mangleText]
    exact (List.flatMap_congr fun ch hch => hchar ch hch (fun he => h (he ▸ hch))).trans
      (List.flatMap_singleton' _)

theorem isWord_mangleText {s : List Char} (hs : IsWord s) : IsWord (mangleText s) := by
  obtain ⟨hne, hall⟩ := hs
  constructor
  · cases s with
    | nil => exact absurd rfl hne
    | cons ch s =>
      intro h
      have h1 : mangleChar ch = [] := (List.append_eq_nil_iff.mp h).1
      rw [mangleChar] at h1
      split_ifs at h1 <;> cases h1
  · intro x hx
    obtain ⟨ch, hch, hx⟩ := List.mem_flatMap.mp hx
    rw [mangleChar] at hx
    split_ifs at hx
    · exact (by decide : IsWord "\\040".toList).2 x hx
    · exact (by decide : IsWord "\\011".toList).2 x hx
    · exact (by decide : IsWord "\\012".toList).2 x hx
    · exact (by decide : IsWord "\\134".toList).2 x hx
    · exact List.mem_singleton.mp hx ▸ hall ch hch

/-! ### Lines as text -/

/-- The names are words: text with no whitespace in it. -/
structure Mounted.Named (m : Mounted) (source dir : List Char) : Prop where
  source_eq : asBytes source = m.source
  dir_eq : asBytes dir = m.dir
  source_word : IsWord source
  dir_word : IsWord dir

/-- The line of a mount, as text. -/
def textLine (m : Mounted) (source dir : List Char) : List Char :=
  mangleText source ++ ' ' :: (mangleText dir ++ ' ' :: lineTail m)

theorem kernelLine_eq {m : Mounted} {source dir : List Char} (h : m.Named source dir) :
    kernelLine m = asBytes (textLine m source dir ++ ['\n']) := by
  rw [kernelLine, ← h.source_eq, ← h.dir_eq, mangle_asBytes, mangle_asBytes, ← asBytes_append,
    ← asBytes_append, ← asBytes_append, textLine]
  simp

/-- The end of a line is `0`, whatever comes before. -/
theorem textLine_eq (m : Mounted) (source dir : List Char) :
    ∃ init, textLine m source dir = init ++ ['0'] :=
  ⟨mangleText source ++ ' ' :: (mangleText dir ++ ' ' :: (m.vfstype ++ ' ' ::
    (m.opts ++ ' ' :: ("0".toList ++ [' '])))), by simp [textLine, lineTail]⟩

theorem splitWhitespace_textLine {m : Mounted} {source dir : List Char}
    (h : m.Named source dir) :
    splitWhitespace (textLine m source dir) =
      [mangleText source, mangleText dir, m.vfstype, m.opts, "0".toList, "0".toList] := by
  have hsp : isWhitespace ' ' = true := by decide
  have hzero : IsWord "0".toList := by decide
  rw [textLine, lineTail, splitWhitespace_word (isWord_mangleText h.source_word) hsp,
    splitWhitespace_word (isWord_mangleText h.dir_word) hsp,
    splitWhitespace_word m.vfstype_word hsp, splitWhitespace_word m.opts_word hsp,
    splitWhitespace_word hzero hsp, splitWhitespace_self hzero]

theorem newline_notMem {w : List Char} (h : IsWord w) : '\n' ∉ w := fun hm => by
  have := h.2 _ hm
  rw [show isWhitespace '\n' = true by decide] at this
  cases this

theorem lines_textLine {m : Mounted} {source dir : List Char} (h : m.Named source dir)
    (rest : List Char) :
    lines (textLine m source dir ++ '\n' :: rest) = textLine m source dir :: lines rest := by
  refine lines_line ?_ ?_ rest
  · have h1 := newline_notMem (isWord_mangleText h.source_word)
    have h2 := newline_notMem (isWord_mangleText h.dir_word)
    have h3 := newline_notMem m.vfstype_word
    have h4 := newline_notMem m.opts_word
    simp [textLine, lineTail, h1, h2, h3, h4]
  · obtain ⟨init, hinit⟩ := textLine_eq m source dir
    simp [hinit]

/-- Whitespace around a line does not matter here: it starts with a word and ends with one. -/
theorem trim_textLine {m : Mounted} {source dir : List Char} (h : m.Named source dir) :
    trim (textLine m source dir) = textLine m source dir := by
  have hstart : (textLine m source dir).dropWhile isWhitespace = textLine m source dir := by
    obtain ⟨hne, hall⟩ := isWord_mangleText h.source_word
    rw [textLine]
    cases hs : mangleText source with
    | nil => exact absurd hs hne
    | cons ch s =>
      rw [List.cons_append, List.dropWhile_cons_of_neg]
      rw [hall ch (hs ▸ List.mem_cons_self)]
      simp
  obtain ⟨init, hinit⟩ := textLine_eq m source dir
  rw [trim, hstart, hinit, List.reverse_append]
  simp [show isWhitespace '0' = false by decide]

theorem mountLine_textLine {m : Mounted} {source dir : List Char} (h : m.Named source dir) :
    mountLine (textLine m source dir) =
      some ⟨mangleText source, mangleText dir, m.vfstype⟩ := by
  rw [mountLine, splitWhitespace_textLine h]

theorem head_mangleText_comment (s : List Char) :
    (mangleText s).head? = some '#' ↔ s.head? = some '#' := by
  cases s with
  | nil => rfl
  | cons ch s =>
    have hcons : mangleText (ch :: s) = mangleChar ch ++ mangleText s := List.flatMap_cons
    rw [hcons, mangleChar]
    split_ifs with h1 h2 h3 h4
    · subst h1; simp
    · subst h2; simp
    · subst h3; simp
    · subst h4; simp
    · simp

theorem fstabLine_textLine {m : Mounted} {source dir : List Char} (h : m.Named source dir) :
    fstabLine (textLine m source dir) =
      if source.head? = some '#' then none
      else some ⟨mangleText source, mangleText dir, m.vfstype, m.opts⟩ := by
  have hne : textLine m source dir ≠ [] := by
    obtain ⟨init, hinit⟩ := textLine_eq m source dir
    simp [hinit]
  have hhead : (textLine m source dir).head? = (mangleText source).head? := by
    rw [textLine, List.head?_append_of_ne_nil _ (isWord_mangleText h.source_word).1]
  have hiff := head_mangleText_comment source
  rw [fstabLine, trim_textLine h, hhead]
  by_cases hc : source.head? = some '#'
  · rw [if_pos (Or.inr (hiff.mpr hc)), if_pos hc]
  · rw [if_neg (by simp [hne, hiff, hc]), if_neg hc, splitWhitespace_textLine h]
    rfl

/-! ### The table -/

/-- The names of a mount as text. -/
def Mounted.sourceText (m : Mounted) : List Char := fromUtf8Lossy m.source

def Mounted.dirText (m : Mounted) : List Char := fromUtf8Lossy m.dir

def Mounted.HasWords (m : Mounted) : Prop := m.Named m.sourceText m.dirText

/-- The line of a mount, as text. -/
def Mounted.line (m : Mounted) : List Char := textLine m m.sourceText m.dirText

theorem Mounted.Named.hasWords {m : Mounted} {source dir : List Char} (h : m.Named source dir) :
    m.HasWords ∧ m.sourceText = source ∧ m.dirText = dir := by
  have hs : m.sourceText = source := by
    rw [Mounted.sourceText, ← h.source_eq, fromUtf8Lossy_asBytes]
  have hd : m.dirText = dir := by rw [Mounted.dirText, ← h.dir_eq, fromUtf8Lossy_asBytes]
  refine ⟨?_, hs, hd⟩
  rw [Mounted.HasWords, hs, hd]
  exact h

theorem readToString_asBytes (s : List Char) : readToString (asBytes s) = some s := by
  rw [readToString, fromUtf8Lossy_asBytes, if_pos rfl]

theorem procMounts_eq {mounts : List Mounted} (h : ∀ m ∈ mounts, m.HasWords) :
    procMounts mounts = asBytes (mounts.flatMap fun m => m.line ++ ['\n']) := by
  induction mounts with
  | nil => rfl
  | cons m mounts ih =>
    have ih := ih fun m' hm' => h m' (List.mem_cons_of_mem _ hm')
    rw [procMounts] at ih
    rw [procMounts, List.flatMap_cons, List.flatMap_cons, asBytes_append, ih,
      kernelLine_eq (h m List.mem_cons_self), Mounted.line]

theorem lines_procMounts {mounts : List Mounted} (h : ∀ m ∈ mounts, m.HasWords) :
    lines (mounts.flatMap fun m => m.line ++ ['\n']) = mounts.map Mounted.line := by
  induction mounts with
  | nil => rfl
  | cons m mounts ih =>
    rw [List.flatMap_cons, List.append_assoc, List.singleton_append, Mounted.line,
      lines_textLine (h m List.mem_cons_self), List.map_cons,
      ih fun m' hm' => h m' (List.mem_cons_of_mem _ hm'), Mounted.line]

/-- **What `umount` reads**, where the names are words. -/
theorem readProcMounts_eq {mounts : List Mounted} (h : ∀ m ∈ mounts, m.HasWords) :
    readProcMounts (readToString (procMounts mounts)) =
      mounts.map fun m => ⟨mangleText m.sourceText, mangleText m.dirText, m.vfstype⟩ := by
  rw [procMounts_eq h, readToString_asBytes, readProcMounts]
  rw [lines_procMounts h, List.filterMap_map]
  induction mounts with
  | nil => rfl
  | cons m mounts ih =>
    have hm : (mountLine ∘ Mounted.line) m =
        some ⟨mangleText m.sourceText, mangleText m.dirText, m.vfstype⟩ :=
      mountLine_textLine (h m List.mem_cons_self)
    rw [List.filterMap_cons_some hm, List.map_cons,
      ih fun m' hm' => h m' (List.mem_cons_of_mem _ hm')]

/-- **What `mount` reads**: the lines of sources that look like comments are missing. -/
theorem readFstabLike_eq {mounts : List Mounted} (h : ∀ m ∈ mounts, m.HasWords) :
    readFstabLike (readToString (procMounts mounts)) =
      (mounts.filter fun m => m.sourceText.head? ≠ some '#').map fun m =>
        ⟨mangleText m.sourceText, mangleText m.dirText, m.vfstype, m.opts⟩ := by
  rw [procMounts_eq h, readToString_asBytes, readFstabLike]
  rw [lines_procMounts h, List.filterMap_map]
  induction mounts with
  | nil => rfl
  | cons m mounts ih =>
    have hm : (fstabLine ∘ Mounted.line) m = _ := fstabLine_textLine (h m List.mem_cons_self)
    have ih := ih fun m' hm' => h m' (List.mem_cons_of_mem _ hm')
    by_cases hc : m.sourceText.head? = some '#'
    · rw [if_pos hc] at hm
      rw [List.filterMap_cons_none hm, List.filter_cons_of_neg (by simpa using hc), ih]
    · rw [if_neg hc] at hm
      rw [List.filterMap_cons_some hm, List.filter_cons_of_pos (by simpa using hc), List.map_cons,
        ih]

/-- The names that `mount` reads, byte for byte. -/
def fstabNames (content : Option (List Char)) : List (List UInt8 × List UInt8) :=
  (readFstabLike content).map fun e => (asBytes e.fsname, asBytes e.dir)

def umountNames (content : Option (List Char)) : List (List UInt8 × List UInt8) :=
  (readProcMounts content).map fun e => (asBytes e.fsname, asBytes e.dir)

def names (mounts : List Mounted) : List (List UInt8 × List UInt8) :=
  mounts.map fun m => (m.source, m.dir)

/-- The names are words without a backslash, and the source does not look like a comment. -/
structure Mounted.Plain (m : Mounted) : Prop where
  words : m.HasWords
  source : '\\' ∉ m.sourceText
  dir : '\\' ∉ m.dirText
  comment : m.sourceText.head? ≠ some '#'

/-- What `umount` reads are words, so names it reads back are. -/
theorem hasWords_of_umountNames {mounts : List Mounted} {content : Option (List Char)}
    (h : umountNames content = names mounts) : ∀ m ∈ mounts, m.HasWords := by
  intro m hm
  have hmem : (m.source, m.dir) ∈ umountNames content := by
    rw [h]
    exact List.mem_map.mpr ⟨m, hm, rfl⟩
  obtain ⟨e, he, heq⟩ := List.mem_map.mp hmem
  have hwords : IsWord e.fsname ∧ IsWord e.dir := by
    cases content with
    | none => cases he
    | some content =>
      obtain ⟨line, _, hline⟩ := List.mem_filterMap.mp he
      have hword : ∀ w ∈ splitWhitespace line, IsWord w := fun w => isWord_of_mem_splitWhitespace
      rw [mountLine] at hline
      split at hline
      · next hsplit =>
        rw [hsplit] at hword
        cases hline
        exact ⟨hword _ (by simp), hword _ (by simp)⟩
      · cases hline
  have hnamed : m.Named e.fsname e.dir :=
    ⟨congrArg Prod.fst heq, congrArg Prod.snd heq, hwords.1, hwords.2⟩
  exact hnamed.hasWords.1

theorem umountNames_iff {mounts : List Mounted} (h : ∀ m ∈ mounts, m.HasWords) :
    umountNames (readToString (procMounts mounts)) = names mounts ↔
      ∀ m ∈ mounts, '\\' ∉ m.sourceText ∧ '\\' ∉ m.dirText := by
  rw [umountNames, readProcMounts_eq h, names, List.map_map, List.map_inj_left]
  refine forall₂_congr fun m hm => ?_
  obtain ⟨hs, hd, hsw, hdw⟩ := h m hm
  rw [← mangleText_eq_self_iff hsw.2, ← mangleText_eq_self_iff hdw.2, Function.comp_apply,
    Prod.mk.injEq]
  constructor
  · rintro ⟨h1, h2⟩
    exact ⟨asBytes_injective (h1.trans hs.symm), asBytes_injective (h2.trans hd.symm)⟩
  · rintro ⟨h1, h2⟩
    rw [h1, h2]
    exact ⟨hs, hd⟩

theorem fstabNames_eq {mounts : List Mounted} (h : ∀ m ∈ mounts, m.HasWords)
    (hc : ∀ m ∈ mounts, m.sourceText.head? ≠ some '#') :
    fstabNames (readToString (procMounts mounts)) =
      umountNames (readToString (procMounts mounts)) := by
  have hfilter : (mounts.filter fun m => m.sourceText.head? ≠ some '#') = mounts :=
    List.filter_eq_self.mpr fun m hm => by simpa using hc m hm
  rw [fstabNames, umountNames, readFstabLike_eq h, readProcMounts_eq h, hfilter, List.map_map,
    List.map_map]
  rfl

/-- With such lines it reads fewer names. -/
theorem comment_of_fstabNames {mounts : List Mounted} (h : ∀ m ∈ mounts, m.HasWords)
    (hf : fstabNames (readToString (procMounts mounts)) = names mounts) :
    ∀ m ∈ mounts, m.sourceText.head? ≠ some '#' := by
  have hlen := congrArg List.length hf
  rw [fstabNames, readFstabLike_eq h, names, List.length_map, List.length_map, List.length_map,
    List.length_filter_eq_length_iff] at hlen
  intro m hm
  simpa using hlen m hm

theorem readProcMounts_plain {mounts : List Mounted} (h : ∀ m ∈ mounts, m.Plain) :
    readProcMounts (readToString (procMounts mounts)) =
      mounts.map fun m => ⟨m.sourceText, m.dirText, m.vfstype⟩ := by
  rw [readProcMounts_eq fun m hm => (h m hm).words, List.map_inj_left]
  intro m hm
  obtain ⟨hw, hs, hd, _⟩ := h m hm
  rw [(mangleText_eq_self_iff hw.source_word.2).mpr hs,
    (mangleText_eq_self_iff hw.dir_word.2).mpr hd]

theorem umountAll_plain {mounts : List Mounted} (h : ∀ m ∈ mounts, m.Plain) :
    (umountAll none (readToString (procMounts mounts))).map (fun t => (asBytes t.1, asBytes t.2)) =
      (mounts.reverse.filter fun m => m.dir ≠ asBytes "/".toList).map
        fun m => (m.dir, m.source) := by
  have hroot : ∀ m ∈ mounts.reverse,
      decide (m.dirText ≠ "/".toList) = decide (m.dir ≠ asBytes "/".toList) := by
    intro m hm
    have hd := (h m (List.mem_reverse.mp hm)).words.dir_eq
    refine decide_eq_decide.mpr (not_congr ?_)
    rw [← hd]
    exact ⟨fun he => he ▸ rfl, asBytes_injective⟩
  rw [umountAll, readProcMounts_plain h, ← List.map_reverse, List.filter_map, List.map_map,
    List.map_map]
  have hfilter : (mounts.reverse.filter ((fun e : MountEntry =>
      decide (((none : Option (List Char)).all fun f => (f.splitOn ',').contains e.vfstype) = true ∧
        e.dir ≠ "/".toList)) ∘ fun m => ⟨m.sourceText, m.dirText, m.vfstype⟩)) =
      mounts.reverse.filter fun m => decide (m.dir ≠ asBytes "/".toList) := by
    refine List.filter_congr fun m hm => ?_
    rw [← hroot m hm]
    simp
  rw [hfilter, List.map_inj_left]
  intro m hm
  have hw := (h m (List.mem_reverse.mp (List.mem_of_mem_filter hm))).words
  exact Prod.ext hw.dir_eq hw.source_eq

theorem alreadyMounted_plain {mounts : List Mounted} (h : ∀ m ∈ mounts, m.Plain)
    (normalize : List Char → List Char) (dir : List Char) :
    alreadyMounted normalize (readToString (procMounts mounts)) dir = true ↔
      ∃ m ∈ mounts, ∃ text, asBytes text = m.dir ∧ normalize text = normalize dir := by
  have hwords : ∀ m ∈ mounts, m.HasWords := fun m hm => (h m hm).words
  have hfilter : (mounts.filter fun m => m.sourceText.head? ≠ some '#') = mounts :=
    List.filter_eq_self.mpr fun m hm => by simpa using (h m hm).comment
  rw [alreadyMounted, readFstabLike_eq hwords, hfilter, List.any_map, List.any_eq_true]
  refine exists_congr fun m => and_congr_right fun hm => ?_
  have hd : mangleText m.dirText = m.dirText :=
    (mangleText_eq_self_iff (hwords m hm).dir_word.2).mpr (h m hm).dir
  rw [Function.comp_apply, decide_eq_true_eq, hd]
  constructor
  · intro hn
    exact ⟨m.dirText, (hwords m hm).dir_eq, hn⟩
  · rintro ⟨text, htext, hn⟩
    rwa [← asBytes_injective (htext.trans (hwords m hm).dir_eq.symm)]

/-- **The names are read back exactly when they are plain**, by `mount` and by `umount`; then
`umount -a` works on the real mount points, with the real devices for `-r`, and a directory counts
as mounted when one of them resolves to the same path. -/
theorem names_exact_iff (mounts : List Mounted) :
    ((fstabNames (readToString (procMounts mounts)) = names mounts ∧
        umountNames (readToString (procMounts mounts)) = names mounts) ↔
      ∀ m ∈ mounts, m.Plain) ∧
    ((∀ m ∈ mounts, m.Plain) →
      (umountAll none (readToString (procMounts mounts))).map
          (fun t => (asBytes t.1, asBytes t.2)) =
        (mounts.reverse.filter fun m => m.dir ≠ asBytes "/".toList).map
          (fun m => (m.dir, m.source)) ∧
      ∀ normalize dir, alreadyMounted normalize (readToString (procMounts mounts)) dir = true ↔
        ∃ m ∈ mounts, ∃ text, asBytes text = m.dir ∧ normalize text = normalize dir) := by
  refine ⟨⟨?_, ?_⟩, fun h => ⟨umountAll_plain h, alreadyMounted_plain h⟩⟩
  · rintro ⟨hf, hu⟩ m hm
    have hw := hasWords_of_umountNames hu
    have hb := (umountNames_iff hw).mp hu m hm
    exact ⟨hw m hm, hb.1, hb.2, comment_of_fstabNames hw hf m hm⟩
  · intro h
    have hw : ∀ m ∈ mounts, m.HasWords := fun m hm => (h m hm).words
    have hu := (umountNames_iff hw).mpr fun m hm => ⟨(h m hm).source, (h m hm).dir⟩
    exact ⟨(fstabNames_eq hw fun m hm => (h m hm).comment).trans hu, hu⟩

/-- A disk that is mounted on `/mnt/my disk`. -/
def spaced : Mounted where
  source := asBytes "/dev/sdb1".toList
  dir := asBytes "/mnt/my disk".toList
  vfstype := "vfat".toList
  opts := "rw".toList
  source_ne := by decide
  dir_ne := by decide
  vfstype_word := by decide
  opts_word := by decide

/-- Its mount point is read back as `/mnt/my\040disk`. -/
theorem spaced_not_exact :
    umountNames (readToString (procMounts [spaced])) =
        [(asBytes "/dev/sdb1".toList, asBytes "/mnt/my\\040disk".toList)] ∧
      names [spaced] = [(asBytes "/dev/sdb1".toList, asBytes "/mnt/my disk".toList)] := by
  have h : procMounts [spaced] = asBytes "/dev/sdb1 /mnt/my\\040disk vfat rw 0 0\n".toList := by
    decide
  rw [h, readToString_asBytes]
  decide

end Rustybox.Modern.Mount
