import Rustybox.Rust.Str
import Rustybox.Rust.Utf8
import Rustybox.Hash.OneShot
import Mathlib.Data.List.Infix
import Mathlib.Data.Prod.Basic

/-!
# Checksum lists

`check_files` of `modern/hashsum.rs`: a list has a line with a hash and a name for each file, and
checking it cuts each line at its first two blanks, or else at its first blank with an asterisk.  A
name is a list of bytes; what the applet has of it is a `str`.  The digests come from outside.  The
messages on stderr are left out.

* `reads_back_iff`: a list reads back exactly when every name is UTF-8 and does not end in a
  carriage return, and no name behind an asterisk has two blanks in a row.
-/

namespace Rustybox.Modern.Hashsum

open Rustybox.Rust

inductive Algo where
  | md5
  | sha1
  | sha256
  | sha512
  | sha3 (width : ℕ)

/-! ### Hashing -/

def hexEncode (bytes : List UInt8) : List Char :=
  bytes.flatMap fun b => [Nat.digitChar (b.toNat / 16), Nat.digitChar (b.toNat % 16)]

/-- What the applet reads, by the bytes of the name, and the digest crates. -/
structure Env where
  file : List UInt8 → Option (List UInt8)
  digest : Algo → List UInt8 → List UInt8

variable (env : Env) (algo : Algo)

/-- `hash_path`; all of the standard input is read. -/
def hashPath (path : List Char) (stdin : List UInt8) : Option (List Char) × List UInt8 :=
  if path = "-".toList then (some (hexEncode (env.digest algo stdin)), [])
  else ((env.file (asBytes path)).map fun bytes => hexEncode (env.digest algo bytes), stdin)

/-- What is left of the standard input, what is printed, and the exit code. -/
structure Output where
  stdin : List UInt8
  out : List Char := []
  status : ℕ := 0
  deriving DecidableEq

/-! ### Checking -/

def find (pat : List Char) : List Char → Option ℕ
  | [] => if pat = [] then some 0 else none
  | c :: s => if pat.isPrefixOf (c :: s) then some 0 else (find pat s).map (· + 1)

/-- The hash and the name on a line. -/
def splitLine (line : List Char) : Option (List Char × List Char) :=
  ((find "  ".toList line).or (find " *".toList line)).map fun idx =>
    (line.take idx, line.drop (idx + 2))

def eqIgnoreAsciiCase (s t : List Char) : Bool := s.map Char.toLower == t.map Char.toLower

/-- What `check_files` counts while it reads a list. -/
structure Check where
  output : Output
  total : ℕ := 0
  failed : ℕ := 0

/-- One line; `quiet` is `-s`. -/
def checkLine (quiet : Bool) (c : Check) (line : List Char) : Check :=
  match splitLine line with
  | none => { c with failed := c.failed + 1, output := { c.output with status := 1 } }
  | some (expected, filename) =>
    let (actual, stdin) := hashPath env algo filename c.output.stdin
    let print (verdict : List Char) : List Char :=
      if quiet then c.output.out else c.output.out ++ filename ++ verdict
    if actual.any fun hex => eqIgnoreAsciiCase hex expected then
      { c with
        total := c.total + 1,
        output := { c.output with stdin := stdin, out := print ": OK\n".toList } }
    else
      { total := c.total + 1, failed := c.failed + 1,
        output := ⟨stdin, print ": FAILED\n".toList, 1⟩ }

/-- `read_to_string` and `File::open`. -/
def readToString (path : List Char) (stdin : List UInt8) : Option (List Char) × List UInt8 :=
  let decode (bytes : List UInt8) : Option (List Char) :=
    let s := fromUtf8Lossy bytes
    if asBytes s = bytes then some s else none
  if path = "-".toList then (decode stdin, [])
  else ((env.file (asBytes path)).bind decode, stdin)

/-- One list. -/
def checkList (quiet : Bool) (r : Output) (path : List Char) : Output :=
  match readToString env path r.stdin with
  | (none, stdin) => { r with stdin := stdin, status := 1 }
  | (some content, stdin) =>
    let c := (lines content).foldl (checkLine env algo quiet) { output := { r with stdin := stdin } }
    if c.total = 0 then { c.output with status := 1 } else c.output

def checkFiles (quiet : Bool) (files : List (List Char)) (stdin : List UInt8) : Output :=
  files.foldl (checkList env algo quiet) { stdin := stdin }

/-! ### Lists -/

/-- The two forms of a line. -/
inductive Form where
  | text
  | binary
  deriving DecidableEq

def Form.separator : Form → List Char
  | .text => "  ".toList
  | .binary => " *".toList

/-- A line of a list is to be about a file. -/
structure Entry where
  form : Form
  name : List UInt8

/-- The operand `-` is the standard input. -/
def IsReadable (name : List UInt8) : Prop :=
  name ≠ asBytes "-".toList ∧ (env.file name).isSome = true

def hashOf (name : List UInt8) : List Char :=
  hexEncode (env.digest algo ((env.file name).getD []))

def listBytes (entries : List Entry) : List UInt8 :=
  entries.flatMap fun e =>
    asBytes (hashOf env algo e.name) ++ asBytes e.form.separator ++ e.name ++ [0x0A]

/-- The list can be read, every line is split into the hash and the name, every file is reported,
and nothing fails. -/
def ReadsBack (quiet : Bool) (list : List Char) (entries : List Entry) (stdin : List UInt8) :
    Prop :=
  (∃ content, asBytes content = listBytes env algo entries ∧
    (lines content).map (fun line => (splitLine line).map (Prod.map id asBytes)) =
      entries.map fun e => some (hashOf env algo e.name, e.name)) ∧
  ∃ out, checkFiles env algo quiet [list] stdin = { stdin := stdin, status := 0, out := out } ∧
    asBytes out =
      if quiet then [] else entries.flatMap fun e => e.name ++ asBytes ": OK\n".toList

/-! ### Lists as text -/

/-- A line about a file whose name is a text. -/
structure Item where
  form : Form
  name : List Char

def Item.entry (i : Item) : Entry := ⟨i.form, asBytes i.name⟩

def Item.hash (i : Item) : List Char := hashOf env algo (asBytes i.name)

def Item.line (i : Item) : List Char := i.hash env algo ++ i.form.separator ++ i.name

def listText (items : List Item) : List Char :=
  items.flatMap fun i => i.line env algo ++ ['\n']

theorem asBytes_listText (items : List Item) :
    asBytes (listText env algo items) = listBytes env algo (items.map Item.entry) := by
  induction items with
  | nil => rfl
  | cons i items ih =>
    rw [listText, List.flatMap_cons, ← listText, asBytes_append, ih, listBytes, listBytes,
      List.map_cons, List.flatMap_cons, Item.line, asBytes_append, asBytes_append, asBytes_append]
    rfl

/-- Only names that are UTF-8 make a list that is. -/
theorem exists_items {content : List Char} {entries : List Entry}
    (h : asBytes content = listBytes env algo entries) :
    ∃ items : List Item, items.map Item.entry = entries := by
  induction entries generalizing content with
  | nil => exact ⟨[], rfl⟩
  | cons e entries ih =>
    obtain ⟨form, name⟩ := e
    rw [listBytes, List.flatMap_cons, ← listBytes, List.append_assoc, List.append_assoc] at h
    have hname : ∃ front b, b.toNat < 128 ∧
        asBytes content = front ++ b :: (name ++ 0x0A :: listBytes env algo entries) := by
      cases form with
      | text =>
        exact ⟨asBytes (hashOf env algo name) ++ [0x20], 0x20, by decide, h.trans (by
          simp [Form.separator, asBytes, List.append_assoc, String.utf8EncodeChar])⟩
      | binary =>
        exact ⟨asBytes (hashOf env algo name) ++ [0x20], 0x2A, by decide, h.trans (by
          simp [Form.separator, asBytes, List.append_assoc, String.utf8EncodeChar])⟩
    obtain ⟨front, b, hb, hname⟩ := hname
    obtain ⟨-, t, ht⟩ := exists_asBytes_of_ascii hb hname
    obtain ⟨⟨s, hs⟩, rest, hrest⟩ := exists_asBytes_of_ascii (by decide) ht
    obtain ⟨items, hitems⟩ := ih hrest
    exact ⟨⟨form, s⟩ :: items, by rw [List.map_cons, hitems, Item.entry, hs]⟩

/-! ### Searching -/

theorem find_nil (pat : List Char) : find pat [] = if pat = [] then some 0 else none := rfl

theorem find_cons (pat : List Char) (c : Char) (s : List Char) :
    find pat (c :: s) =
      if pat.isPrefixOf (c :: s) then some 0 else (find pat s).map (· + 1) := rfl

theorem find_some {pat s : List Char} {i : ℕ} (h : find pat s = some i) :
    ∃ t, s = s.take i ++ pat ++ t ∧ i + pat.length ≤ s.length := by
  induction s generalizing i with
  | nil =>
    rw [find_nil] at h
    split at h
    · next hpat =>
      cases h
      exact ⟨[], by simp [hpat]⟩
    · cases h
  | cons c s ih =>
    rw [find_cons] at h
    split at h
    · next hpre =>
      cases h
      obtain ⟨t, ht⟩ := List.isPrefixOf_iff_prefix.mp hpre
      refine ⟨t, ht.symm, ?_⟩
      rw [← ht, List.length_append]
      omega
    · obtain ⟨j, hj, rfl⟩ := Option.map_eq_some_iff.mp h
      obtain ⟨t, ht, hle⟩ := ih hj
      refine ⟨t, ?_, by rw [List.length_cons]; omega⟩
      rw [List.take_succ_cons, List.cons_append, List.cons_append, ← ht]

theorem find_eq_none_iff {pat : List Char} (hpat : pat ≠ []) (s : List Char) :
    find pat s = none ↔ ¬ pat <:+: s := by
  induction s with
  | nil => simp [find_nil, hpat]
  | cons c s ih =>
    rw [find_cons]
    split
    · next hpre => simp [(List.isPrefixOf_iff_prefix.mp hpre).isInfix]
    · next hpre =>
      rw [Option.map_eq_none_iff, ih, List.infix_cons_iff]
      have hnot : ¬ pat <+: c :: s := fun h => hpre (List.isPrefixOf_iff_prefix.mpr h)
      simp [hnot]

/-- Nothing is found where the first character of the pattern does not occur. -/
theorem find_append {pre : List Char} {c : Char} (h : c ∉ pre) (pat s : List Char) :
    find (c :: pat) (pre ++ s) = (find (c :: pat) s).map (· + pre.length) := by
  induction pre with
  | nil => simp
  | cons d pre ih =>
    have hne : c ≠ d := fun he => h (he ▸ List.mem_cons_self)
    have hpre : (c :: pat).isPrefixOf (d :: (pre ++ s)) = false := by
      rw [List.isPrefixOf, beq_eq_false_iff_ne.mpr hne, Bool.false_and]
    rw [List.cons_append, find_cons, hpre, if_neg Bool.false_ne_true,
      ih fun hm => h (List.mem_cons_of_mem _ hm), Option.map_map]
    rfl

theorem mem_hexEncode {bytes : List UInt8} {c : Char} (h : c ∈ hexEncode bytes) :
    ∃ n < 16, Nat.digitChar n = c := by
  obtain ⟨b, -, hb⟩ := List.mem_flatMap.mp h
  have hlt : b.toNat < 256 := b.toNat_lt
  rcases List.mem_pair.mp hb with hc | hc
  · exact ⟨_, by omega, hc.symm⟩
  · exact ⟨_, Nat.mod_lt _ (by decide), hc.symm⟩

theorem blank_notMem_hexEncode (bytes : List UInt8) : ' ' ∉ hexEncode bytes := by
  intro h
  obtain ⟨n, hn, hdigit⟩ := mem_hexEncode h
  have hno : ∀ n < 16, Nat.digitChar n ≠ ' ' := by decide
  exact hno n hn hdigit

theorem newline_notMem_hexEncode (bytes : List UInt8) : '\n' ∉ hexEncode bytes := by
  intro h
  obtain ⟨n, hn, hdigit⟩ := mem_hexEncode h
  have hno : ∀ n < 16, Nat.digitChar n ≠ '\n' := by decide
  exact hno n hn hdigit

/-! ### One line -/

theorem splitLine_length {line hash name : List Char} (h : splitLine line = some (hash, name)) :
    line.length = hash.length + 2 + name.length := by
  obtain ⟨i, hi, heq⟩ := Option.map_eq_some_iff.mp h
  obtain ⟨rfl, rfl⟩ := Prod.mk.inj heq
  have hle : i + 2 ≤ line.length := by
    rcases Option.or_eq_some_iff.mp hi with hf | ⟨-, hf⟩
    · obtain ⟨t, -, hle⟩ := find_some hf
      exact hle
    · obtain ⟨t, -, hle⟩ := find_some hf
      exact hle
  rw [List.length_take, List.length_drop]
  omega

theorem splitLine_text {hash : List Char} (h : ' ' ∉ hash) (name : List Char) :
    splitLine (hash ++ "  ".toList ++ name) = some (hash, name) := by
  have hfind : find "  ".toList (hash ++ ("  ".toList ++ name)) = some hash.length := by
    rw [show "  ".toList = [' ', ' '] from rfl, find_append h]
    simp [find_cons]
  rw [splitLine, List.append_assoc, hfind]
  simp

theorem splitLine_binary {hash : List Char} (h : ' ' ∉ hash) (name : List Char) :
    splitLine (hash ++ " *".toList ++ name) = some (hash, name) ↔ ¬ "  ".toList <:+: name := by
  have hblanks : find "  ".toList (hash ++ (" *".toList ++ name)) =
      (find "  ".toList name).map (· + (hash.length + 2)) := by
    rw [show "  ".toList = [' ', ' '] from rfl, find_append h]
    have hstep : find [' ', ' '] (' ' :: '*' :: name) = (find [' ', ' '] name).map (· + 2) := by
      rw [find_cons, if_neg (by simp [List.isPrefixOf]), find_cons, if_neg (by simp [List.isPrefixOf]),
        Option.map_map]
      rfl
    rw [show " *".toList ++ name = ' ' :: '*' :: name from rfl, hstep, Option.map_map]
    refine Option.map_congr fun i _ => ?_
    show i + 2 + hash.length = i + (hash.length + 2)
    omega
  have hstar : find " *".toList (hash ++ (" *".toList ++ name)) = some hash.length := by
    rw [show " *".toList = [' ', '*'] from rfl, find_append h]
    simp [find_cons]
  rw [← find_eq_none_iff (by decide), splitLine, List.append_assoc, hblanks, hstar]
  cases find "  ".toList name with
  | none => simp
  | some i =>
    simp only [Option.map_some, Option.some_or, Option.some.injEq, Prod.mk.injEq, reduceCtorEq,
      iff_false, not_and]
    intro htake
    have := congrArg List.length htake
    rw [List.length_take, List.length_append, List.length_append] at this
    have hpat : " *".toList.length = 2 := rfl
    -- the cut lies behind the hash
    intro hdrop
    have hlen := congrArg List.length hdrop
    rw [List.length_drop, List.length_append, List.length_append] at hlen
    omega

/-- A line without the carriage return that `lines` takes for a part of its end. -/
def stripReturn (line : List Char) : List Char :=
  if line.getLast? = some '\r' then line.dropLast else line

theorem lines_cons {l : List Char} (h : '\n' ∉ l) (rest : List Char) :
    lines (l ++ '\n' :: rest) = stripReturn l :: lines rest := by
  rw [lines, splitInclusive_line h, List.map_cons, stripTerminator]
  simp [lines, stripReturn]

variable {env algo}

/-- The name is a text that does not keep a line from being cut as it was written. -/
def Item.Unharmed (i : Item) : Prop :=
  i.name.getLast? ≠ some '\r' ∧ (i.form = .binary → ¬ "  ".toList <:+: i.name)

theorem splitLine_line_iff (i : Item) :
    splitLine (stripReturn (i.line env algo)) = some (i.hash env algo, i.name) ↔ i.Unharmed := by
  have hblank : ' ' ∉ i.hash env algo := blank_notMem_hexEncode _
  have hlast : (i.line env algo).getLast? = some '\r' ↔ i.name.getLast? = some '\r' := by
    rw [Item.line, List.getLast?_append]
    cases hname : i.name.getLast? with
    | some c => simp
    | none =>
      obtain ⟨form, name⟩ := i
      cases form <;> simp [Form.separator]
  have hlen : (i.line env algo).length = (i.hash env algo).length + 2 + i.name.length := by
    rw [Item.line, List.length_append, List.length_append]
    obtain ⟨form, name⟩ := i
    cases form <;> rfl
  by_cases hcr : i.name.getLast? = some '\r'
  · constructor
    · intro h
      have := splitLine_length h
      rw [stripReturn, if_pos (hlast.mpr hcr), List.length_dropLast, hlen] at this
      omega
    · exact fun h => absurd hcr h.1
  · rw [stripReturn, if_neg (fun h => hcr (hlast.mp h)), Item.line, Item.Unharmed]
    obtain ⟨form, name⟩ := i
    cases form with
    | text =>
      rw [Form.separator, splitLine_text hblank]
      simp [hcr]
    | binary =>
      rw [Form.separator, splitLine_binary hblank]
      simp [hcr]

/-! ### A whole list -/

theorem newline_notMem_line {i : Item} (h : '\n' ∉ i.name) : '\n' ∉ i.line env algo := by
  rw [Item.line, List.mem_append, List.mem_append]
  rintro ((hhash | hsep) | hname)
  · exact newline_notMem_hexEncode _ hhash
  · obtain ⟨form, name⟩ := i
    cases form <;> simp [Form.separator] at hsep
  · exact h hname

theorem lines_listText {items : List Item} (h : ∀ i ∈ items, '\n' ∉ i.name) :
    lines (listText env algo items) = items.map fun i => stripReturn (i.line env algo) := by
  induction items with
  | nil => rfl
  | cons i items ih =>
    have hline : '\n' ∉ i.line env algo := newline_notMem_line (h i List.mem_cons_self)
    rw [listText, List.flatMap_cons, List.append_assoc, List.singleton_append, lines_cons hline,
      List.map_cons, ← listText, ih fun i hi => h i (List.mem_cons_of_mem _ hi)]

theorem hashPath_file {name : List Char} (h : IsReadable env (asBytes name))
    (stdin : List UInt8) :
    hashPath env algo name stdin = (some (hashOf env algo (asBytes name)), stdin) := by
  obtain ⟨bytes, hbytes⟩ := Option.isSome_iff_exists.mp h.2
  rw [hashPath, if_neg fun hdash => h.1 (congrArg asBytes hdash), hashOf, hbytes]
  rfl

theorem checkLine_ok {quiet : Bool} {c : Check} {line name : List Char}
    (h : IsReadable env (asBytes name))
    (hsplit : splitLine line = some (hashOf env algo (asBytes name), name)) :
    checkLine env algo quiet c line =
      { c with
        total := c.total + 1,
        output := { c.output with
          out := c.output.out ++ if quiet then [] else name ++ ": OK\n".toList } } := by
  rw [checkLine, hsplit]
  dsimp only
  rw [hashPath_file h]
  simp only [Option.any_some, eqIgnoreAsciiCase, beq_self_eq_true, if_true]
  cases quiet <;> simp

/-- Lines that are cut as they were written report their files. -/
theorem foldl_checkLine {quiet : Bool} {items : List Item}
    (h : ∀ i ∈ items, IsReadable env (asBytes i.name)) {ls : List (List Char)}
    (hsplit : ls.map splitLine = items.map fun i => some (i.hash env algo, i.name))
    (c : Check) :
    ls.foldl (checkLine env algo quiet) c =
      { c with
        total := c.total + items.length,
        output := { c.output with
          out := c.output.out ++
            if quiet then [] else items.flatMap fun i => i.name ++ ": OK\n".toList } } := by
  induction items generalizing ls c with
  | nil =>
    obtain rfl : ls = [] := List.map_eq_nil_iff.mp hsplit
    cases quiet <;> simp
  | cons i items ih =>
    cases ls with
    | nil => cases hsplit
    | cons l ls =>
      obtain ⟨hl, hls⟩ := List.cons.inj hsplit
      rw [List.foldl_cons, checkLine_ok (h i List.mem_cons_self) hl,
        ih (fun i hi => h i (List.mem_cons_of_mem _ hi)) hls]
      cases quiet <;> simp [Nat.add_comm, Nat.add_left_comm]

theorem map_splitLine_iff {items : List Item} (hnewline : ∀ i ∈ items, '\n' ∉ i.name) :
    (lines (listText env algo items)).map splitLine =
      items.map (fun i => some (i.hash env algo, i.name)) ↔ ∀ i ∈ items, i.Unharmed := by
  rw [lines_listText hnewline, List.map_map, List.map_inj_left]
  exact forall₂_congr fun i _ => splitLine_line_iff i

theorem map_splitLine_bytes (ls : List (List Char)) (items : List Item) :
    ls.map (fun line => (splitLine line).map (Prod.map id asBytes)) =
        (items.map Item.entry).map (fun e => some (hashOf env algo e.name, e.name)) ↔
      ls.map splitLine = items.map fun i => some (i.hash env algo, i.name) := by
  have hinj : Function.Injective (Option.map (Prod.map (id : List Char → _) asBytes)) :=
    Option.map_injective (Function.injective_id.prodMap fun _ _ h => asBytes_injective h)
  rw [← (List.map_injective_iff.mpr hinj).eq_iff, List.map_map, List.map_map, List.map_map]
  rfl

theorem checkFiles_ok {quiet : Bool} {list : List Char} {items : List Item} {stdin : List UInt8}
    (hne : items ≠ []) (hfiles : ∀ i ∈ items, IsReadable env (asBytes i.name))
    (hdash : list ≠ "-".toList)
    (hlist : env.file (asBytes list) = some (asBytes (listText env algo items)))
    (hsplit : (lines (listText env algo items)).map splitLine =
      items.map fun i => some (i.hash env algo, i.name)) :
    checkFiles env algo quiet [list] stdin =
      { stdin := stdin, status := 0,
        out := if quiet then [] else items.flatMap fun i => i.name ++ ": OK\n".toList } := by
  have hread : readToString env list stdin = (some (listText env algo items), stdin) := by
    rw [readToString, if_neg hdash, hlist, Option.bind_some]
    dsimp only
    rw [fromUtf8Lossy_asBytes, if_pos rfl]
  have hpos : 0 < items.length := List.length_pos_iff.mpr hne
  rw [checkFiles, List.foldl_cons, List.foldl_nil, checkList, hread]
  dsimp only
  rw [foldl_checkLine hfiles hsplit, if_neg (by dsimp only; omega), List.nil_append]

/-- What keeps a line from being cut as it was written. -/
def Entry.Unharmed (e : Entry) : Prop :=
  ∃ name, asBytes name = e.name ∧ name.getLast? ≠ some '\r' ∧
    (e.form = .binary → ¬ "  ".toList <:+: name)

theorem unharmed_entry_iff (i : Item) : i.entry.Unharmed ↔ i.Unharmed := by
  constructor
  · rintro ⟨name, hname, h⟩
    obtain rfl := asBytes_injective hname
    exact h
  · exact fun h => ⟨i.name, rfl, h⟩

/-- **A list reads back exactly when every name is UTF-8 and does not end in a carriage return, and
no name behind an asterisk has two blanks in a row.** -/
theorem reads_back_iff (env : Env) (algo : Algo) (quiet : Bool) {list : List Char}
    {entries : List Entry} (stdin : List UInt8) (hne : entries ≠ [])
    (hfiles : ∀ e ∈ entries, IsReadable env e.name) (hnewline : ∀ e ∈ entries, 0x0A ∉ e.name)
    (hdash : list ≠ "-".toList)
    (hlist : env.file (asBytes list) = some (listBytes env algo entries)) :
    ReadsBack env algo quiet list entries stdin ↔ ∀ e ∈ entries, e.Unharmed := by
  have hitems : (∃ items : List Item, items.map Item.entry = entries) →
      (ReadsBack env algo quiet list entries stdin ↔ ∀ e ∈ entries, e.Unharmed) := by
    rintro ⟨items, rfl⟩
    have hfiles' : ∀ i ∈ items, IsReadable env (asBytes i.name) := fun i hi =>
      hfiles _ (List.mem_map_of_mem hi)
    have hnewline' : ∀ i ∈ items, '\n' ∉ i.name := fun i hi hmem =>
      hnewline _ (List.mem_map_of_mem hi) (List.mem_flatMap.mpr ⟨'\n', hmem, by decide⟩)
    have hall : (∀ e ∈ items.map Item.entry, e.Unharmed) ↔ ∀ i ∈ items, i.Unharmed := by
      rw [List.forall_mem_map]
      exact forall₂_congr fun i _ => unharmed_entry_iff i
    rw [← asBytes_listText] at hlist
    rw [hall, ← @map_splitLine_iff env algo _ hnewline', ReadsBack,
      ← asBytes_listText]
    constructor
    · rintro ⟨⟨content, hcontent, hsplit⟩, -⟩
      rw [asBytes_injective hcontent] at hsplit
      exact (map_splitLine_bytes _ _).mp hsplit
    · intro hsplit
      refine ⟨⟨_, rfl, (map_splitLine_bytes _ _).mpr hsplit⟩, _,
        checkFiles_ok (by simpa using hne) hfiles' hdash hlist hsplit, ?_⟩
      cases quiet with
      | true => rfl
      | false =>
        simp only [Bool.false_eq_true, if_false, asBytes, List.flatMap_assoc, List.flatMap_map,
          List.flatMap_append]
        rfl
  constructor
  · intro h
    obtain ⟨⟨content, hcontent, -⟩, -⟩ := id h
    exact (hitems (exists_items env algo hcontent)).mp h
  · intro h
    refine (hitems ?_).mpr h
    refine ⟨entries.map fun e => ⟨e.form, fromUtf8Lossy e.name⟩, ?_⟩
    rw [List.map_map]
    refine (List.map_congr_left fun e he => ?_).trans (List.map_id _)
    obtain ⟨name, hname, -⟩ := h e he
    have hback : asBytes (fromUtf8Lossy e.name) = e.name :=
      (asBytes_fromUtf8Lossy_iff _).mpr ⟨name, hname⟩
    exact congrArg (Entry.mk e.form) hback

def twoFiles : Env where
  file name :=
    if name = asBytes "a b".toList ∨ name = asBytes "c".toList then some [0x78, 0x0A] else none
  digest _ := Hash.md5

/-- They are listed in the two forms. -/
def bothForms : List Entry := [⟨.text, asBytes "a b".toList⟩, ⟨.binary, asBytes "c".toList⟩]

/-- Their list is a file as well. -/
def withList : Env where
  file name :=
    if name = asBytes "l".toList then some (listBytes twoFiles .md5 bothForms)
    else twoFiles.file name
  digest := twoFiles.digest

theorem reads_back_both_forms :
    bothForms ≠ [] ∧ ReadsBack withList .md5 false "l".toList bothForms [] := by
  refine ⟨by decide, (reads_back_iff withList .md5 false [] (by decide) ?_ ?_ (by decide) ?_).mpr ?_⟩
  · intro e he
    rcases List.mem_pair.mp he with rfl | rfl
    · exact ⟨by decide, by rfl⟩
    · exact ⟨by decide, by rfl⟩
  · decide
  · -- the list is not one of the listed files
    have hsame : ∀ e ∈ bothForms, hashOf withList .md5 e.name = hashOf twoFiles .md5 e.name := by
      intro e he
      rcases List.mem_pair.mp he with rfl | rfl
      · rfl
      · rfl
    have hbytes : listBytes withList .md5 bothForms = listBytes twoFiles .md5 bothForms :=
      List.flatMap_congr fun e he => by rw [hsame e he]
    rw [hbytes]
    rfl
  · intro e he
    rcases List.mem_pair.mp he with rfl | rfl
    · exact ⟨_, rfl, by decide, nofun⟩
    · exact ⟨_, rfl, by decide, fun _ => by decide⟩

/-- A file with two blanks in its name. -/
def blanks : Env where
  file name := if name = asBytes "a  b".toList then some [] else none
  digest _ := Hash.md5

/-- Its line is cut in the middle of the name. -/
theorem blanks_not_read_back :
    IsReadable blanks (asBytes "a  b".toList) ∧
      ¬ ReadsBack blanks .md5 false "l".toList [⟨.binary, asBytes "a  b".toList⟩] [] := by
  refine ⟨⟨by decide, rfl⟩, ?_⟩
  rintro ⟨⟨content, hcontent, hsplit⟩, -⟩
  let i : Item := ⟨.binary, "a  b".toList⟩
  have htext : content = listText blanks .md5 [i] := by
    apply asBytes_injective
    rw [hcontent, asBytes_listText]
    rfl
  rw [htext] at hsplit
  have hunharmed : ∀ j ∈ [i], Item.Unharmed j :=
    (map_splitLine_iff (by decide)).mp ((map_splitLine_bytes _ _).mp hsplit)
  exact (hunharmed _ List.mem_cons_self).2 rfl (by decide)

end Rustybox.Modern.Hashsum
