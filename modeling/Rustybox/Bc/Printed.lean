import Rustybox.Bc.Num
import Rustybox.Bc.Quotients

/-!
# Printing numbers of bc

`zxc_num_print` writes a number in the output base and breaks the line with a backslash
wherever the column has come to the end of it.

The characters of a number come out in order, with line breaks between them (`Broken`).  Where
the breaks are depends on the column; behind a point that starts the number there is none.
-/

namespace Rustybox.Bc

open Positional

/-- What printing reads and changes of `BcProgram`: the length of a line, the column, the output
base; and what has been written so far. -/
structure Prog where
  len : UInt64
  nchars : UInt64
  obase : ℕ
  out : List Char

/-- `bb_putchar`. -/
def putchar (c : Char) (p : Prog) : Prog := { p with out := p.out ++ [c] }

def advance (width : ℕ) (p : Prog) : Prog :=
  { p with nchars := p.nchars + UInt64.ofNat width }

/-- `bc_num_printNewline`. -/
def printNewline (p : Prog) : Prog :=
  if p.nchars = p.len - 1 then { putchar '\n' (putchar '\\' p) with nchars := 0 } else p

/-! ### Digits -/

/-- `bb_hexdigits_upcase`. -/
def hexdigitsUpcase : List Char :=
  ['0', '1', '2', '3', '4', '5', '6', '7', '8', '9', 'A', 'B', 'C', 'D', 'E', 'F']

/-- `BcNumDigitOp`: prints a digit of some width, with the point before it. -/
abbrev DigitOp := ℕ → ℕ → Bool → Prog → Prog

def printPoint (radix : Bool) (p : Prog) : Prog :=
  if radix then advance 1 (putchar '.' (printNewline p)) else p

/-- `bc_num_printHex`. -/
def printHex : DigitOp := fun num width radix p =>
  advance width (putchar (hexdigitsUpcase.getD num '\x00') (printNewline (printPoint radix p)))

/-- The loop of `bc_num_printDigits` over the decimal digits of a digit. -/
def printDigitsLoop : ℕ → ℕ → ℕ → Prog → Prog
  | 0, _, _, p => p
  | exp + 1, num, pow, p =>
    let dig := num / pow
    printDigitsLoop exp (num - dig * pow) (pow / 10)
      (advance 1 (putchar (Char.ofNat (dig + 48)) (printNewline p)))

/-- `bc_num_printDigits`. -/
def printDigits : DigitOp := fun num width radix p =>
  let p := advance 1 (putchar (if radix then '.' else ' ') (printNewline p))
  printDigitsLoop width num (10 ^ (width - 1)) (printNewline p)

/-! ### Numbers -/

/-- The loop of `bc_num_printDecimal`, when `i` digits are left. -/
def printDecimalLoop (n : BcNum) : ℕ → Prog → Prog
  | 0, p => p
  | i + 1, p => printDecimalLoop n i (printHex (n.num.getD i 0).toNat 1 (i + 1 = n.rdx) p)

def printSign (n : BcNum) (p : Prog) : Prog := if n.neg then advance 1 (putchar '-' p) else p

/-- `bc_num_printDecimal`. -/
def printDecimal (n : BcNum) (p : Prog) : Prog := printDecimalLoop n n.len (printSign n p)

/-- The loop of `zxc_num_printNum` that takes the digits off the integer part; the last one
comes first. -/
def digitStack (fuel : ℕ) (base : BcNum) : ℕ → BcNum → List ℕ → Except Err (List ℕ)
  | 0, _, _ => .error .unfinished
  | n + 1, intp, stack =>
    if intp.len ≠ 0 then do
      let (intp, digit) ← divmod fuel intp base 0
      let dig ← ulong digit
      digitStack fuel base n intp (dig :: stack)
    else .ok stack

/-- The loop over the digits behind the point. -/
def printFraction (fuel rdx width : ℕ) (base : BcNum) (print : DigitOp) :
    ℕ → BcNum → BcNum → Bool → Prog → Except Err Prog
  | 0, _, _, _, _ => .error .unfinished
  | n + 1, fracp, fracLen, radix, p =>
    if fracLen.len ≤ rdx then do
      let fracp ← mul fuel fracp base rdx
      let dig ← ulong fracp
      let fracp := sub fracp (ulong2num dig)
      let fracLen ← mul fuel fracLen base 0
      printFraction fuel rdx width base print n fracp fracLen false (print dig width radix p)
    else .ok p

/-- `zxc_num_printNum`.  What is written before an error is not kept. -/
def printNum (fuel : ℕ) (n : BcNum) (base width : ℕ) (print : DigitOp) (p : Prog) :
    Except Err Prog :=
  if n.len = 0 then .ok (print 0 width false p)
  else do
    let base := ulong2num base
    let intp := truncate n n.rdx
    let fracp := sub n intp
    let stack ← digitStack fuel base fuel intp []
    let p := stack.foldl (fun p dig => print dig width false p) p
    if n.rdx = 0 then pure p
    else printFraction fuel n.rdx width base print fuel fracp one true p

/-- The number of decimal digits of the largest digit. -/
def digitWidth (obase : ℕ) : ℕ := max 1 (Nat.digits 10 ((obase - 1) % 2 ^ 32)).length

/-- `zxc_num_printBase`. -/
def printBase (fuel : ℕ) (n : BcNum) (p : Prog) : Except Err Prog :=
  let p := printSign n p
  let n := { n with neg := false }
  if p.obase ≤ 16 then printNum fuel n (p.obase % 2 ^ 32) 1 printHex p
  else printNum fuel n (p.obase % 2 ^ 32) (digitWidth p.obase) printDigits p

/-- The part of `zxc_num_print` between the line break and the newline. -/
def printValue (fuel : ℕ) (n : BcNum) (p : Prog) : Except Err Prog :=
  if n.len = 0 then .ok (advance 1 (putchar '0' p))
  else if p.obase = 10 then .ok (printDecimal n p)
  else printBase fuel n p

/-- `zxc_num_print`. -/
def numPrint (fuel : ℕ) (n : BcNum) (newline : Bool) (p : Prog) : Except Err Prog := do
  let p ← printValue fuel n (printNewline p)
  pure (if newline then { putchar '\n' p with nchars := 0 } else p)

/-! ## What bc prints -/

/-! ### Line breaks -/

/-- The characters `o` are those of `text`, with line breaks between them. -/
inductive Broken : List Char → List Char → Prop
  | nil : Broken [] []
  | char (c : Char) {text o : List Char} : Broken text o → Broken (c :: text) (c :: o)
  | brk {text o : List Char} : Broken text o → Broken text ('\\' :: '\n' :: o)

theorem Broken.append {text o text' o' : List Char} (h : Broken text o) (h' : Broken text' o') :
    Broken (text ++ text') (o ++ o') := by
  induction h with
  | nil => exact h'
  | char c _ ih => exact ih.char c
  | brk _ ih => exact ih.brk

/-- From `p` to `q` the characters of `text` are written. -/
structure Prints (p q : Prog) (text : List Char) : Prop where
  out : ∃ o, q.out = p.out ++ o ∧ Broken text o
  len : q.len = p.len
  obase : q.obase = p.obase

section

variable {p q r : Prog} {text text' : List Char}

theorem Prints.refl (p : Prog) : Prints p p [] :=
  ⟨⟨[], (List.append_nil _).symm, .nil⟩, rfl, rfl⟩

theorem Prints.trans (h : Prints p q text) (h' : Prints q r text') :
    Prints p r (text ++ text') := by
  obtain ⟨o, ho, hb⟩ := h.out
  obtain ⟨o', ho', hb'⟩ := h'.out
  refine ⟨⟨o ++ o', ?_, hb.append hb'⟩, h'.len.trans h.len, h'.obase.trans h.obase⟩
  rw [ho', ho, List.append_assoc]

theorem prints_putchar (c : Char) (p : Prog) : Prints p (putchar c p) [c] :=
  ⟨⟨[c], rfl, .char c .nil⟩, rfl, rfl⟩

theorem Prints.advance (h : Prints p q text) (width : ℕ) : Prints p (advance width q) text :=
  ⟨h.out, h.len, h.obase⟩

theorem prints_printNewline (p : Prog) : Prints p (printNewline p) [] := by
  unfold printNewline
  split
  · refine ⟨⟨['\\', '\n'], ?_, .brk .nil⟩, rfl, rfl⟩
    exact List.append_assoc _ _ _
  · exact .refl p

theorem prints_printPoint (radix : Bool) (p : Prog) :
    Prints p (printPoint radix p) (if radix then ['.'] else []) := by
  cases radix with
  | false => exact .refl p
  | true => exact (((prints_printNewline p).trans (prints_putchar '.' _)).advance 1)

/-- The digit of a number below sixteen. -/
def hexdigit (num : ℕ) : Char := hexdigitsUpcase.getD num '\x00'

theorem prints_printHex (num width : ℕ) (radix : Bool) (p : Prog) :
    Prints p (printHex num width radix p) ((if radix then ['.'] else []) ++ [hexdigit num]) :=
  (((prints_printPoint radix p).trans
    ((prints_printNewline _).trans (prints_putchar _ _))).advance width)

/-! ### Decimal numbers -/

/-- The text of the last `i` digits. -/
def decimalText (n : BcNum) : ℕ → List Char
  | 0 => []
  | i + 1 => (if i + 1 = n.rdx then ['.'] else []) ++ [hexdigit (n.num.getD i 0).toNat] ++
      decimalText n i

theorem prints_printDecimalLoop (n : BcNum) (i : ℕ) (p : Prog) :
    Prints p (printDecimalLoop n i p) (decimalText n i) := by
  induction i generalizing p with
  | zero => exact .refl p
  | succ i ih =>
    have h := (prints_printHex (n.num.getD i 0).toNat 1 (i + 1 = n.rdx) p).trans (ih _)
    simpa only [decimalText, printDecimalLoop, decide_eq_true_eq] using h

/-! ### Numbers in a base -/

theorem prints_foldl (digits : List ℕ) (p : Prog) :
    Prints p (digits.foldl (fun p dig => printHex dig 1 false p) p) (digits.map hexdigit) := by
  induction digits generalizing p with
  | nil => exact .refl p
  | cons d digits ih => exact (prints_printHex d 1 false p).trans (ih _)

theorem len_base_lt {b : ℕ} (hb : b ≤ 16) : (ulong2num b).len < 32 := by
  have hle := (Nat.digits_length_le_iff (by decide : 1 < 10) (k := 2) b).mpr (by omega)
  rw [len_ulong2num]
  omega

/-- **The stack holds the digits in the base**, the first on top. -/
theorem digitStack_spec {fuel : ℕ} (hfuel : 10 ≤ fuel) {b : ℕ} (hb : 1 < b) (hb' : b ≤ 16) {n : ℕ}
    {m : ℕ} (hn : (Nat.digits b m).length < n) (stack : List ℕ) :
    digitStack fuel (ulong2num b) n (ulong2num m) stack =
      .ok ((Nat.digits b m).reverse ++ stack) := by
  induction n generalizing m stack with
  | zero => exact absurd hn (Nat.not_lt_zero _)
  | succ n ih =>
    rw [digitStack]
    by_cases hm : m = 0
    · rw [hm, if_neg (by decide), Nat.digits_zero]
      rfl
    · rw [Nat.digits_def' hb (Nat.pos_of_ne_zero hm)] at hn ⊢
      rw [List.length_cons] at hn
      have hdig : ulong (ulong2num (m % b)) = .ok (m % b) :=
        ulong_ulong2num (Nat.lt_trans (Nat.mod_lt _ (by omega)) (by omega))
      rw [if_pos (by rwa [ne_eq, ulong2num_len_eq_zero]),
        divmod_ulong2num hfuel hm (by omega) (len_base_lt hb')]
      simp only [bind, Except.bind, hdig]
      rw [ih (by omega), List.reverse_cons, List.append_assoc, List.singleton_append]

theorem printNum_integer {b m : ℕ} (hb : 1 < b) (hb' : b ≤ 16) (hm : m ≠ 0) (p : Prog) :
    ∃ q, Prints p q ((Nat.digits b m).reverse.map hexdigit) ∧
      ∀ fuel, 10 + (Nat.digits b m).length ≤ fuel →
        printNum fuel (ulong2num m) b 1 printHex p = .ok q := by
  have hm0 : (ulong2num m).len ≠ 0 := by rwa [ne_eq, ulong2num_len_eq_zero]
  have htrunc : truncate (ulong2num m) (ulong2num m).rdx = ulong2num m := rfl
  refine ⟨_, prints_foldl _ p, fun fuel hfuel => ?_⟩
  have hstack := digitStack_spec (n := fuel) (m := m) (by omega : 10 ≤ fuel) hb hb' (by omega) []
  rw [List.append_nil] at hstack
  rw [printNum, if_neg hm0]
  simp only [bind, Except.bind, htrunc, hstack]
  rfl

/-! ### The first character -/

/-- The start of the output: breaks, and then a digit, or a point with a digit behind it. -/
inductive Started : List Char → List Char → Prop
  | brk {text o : List Char} : Started text o → Started text ('\\' :: '\n' :: o)
  | digit {c : Char} {text o : List Char} : c ≠ '.' → Broken text o → Started (c :: text) (c :: o)
  | point {d : ℕ} {text o : List Char} : d < 10 → Broken text o →
      Started ('.' :: hexdigit d :: text) ('.' :: hexdigit d :: o)

theorem Broken.started {c : Char} {text o : List Char} (h : Broken (c :: text) o) (hc : c ≠ '.') :
    Started (c :: text) o := by
  generalize htext : c :: text = t at h
  induction h with
  | nil => cases htext
  | char c' h _ =>
    obtain ⟨rfl, rfl⟩ := List.cons.inj htext
    exact .digit hc h
  | brk _ ih => exact .brk (ih htext)

/-- The column where a number starts: a full line is broken in front of it. -/
def startColumn (p : Prog) : UInt64 := if p.nchars = p.len - 1 then 0 else p.nchars

theorem nchars_printNewline (p : Prog) : (printNewline p).nchars = startColumn p := by
  unfold printNewline startColumn
  split <;> rfl

theorem printNewline_printNewline (hlen : 2 ≤ p.len) :
    printNewline (printNewline p) = printNewline p := by
  by_cases h : p.nchars = p.len - 1
  · have hbreak : printNewline p = { putchar '\n' (putchar '\\' p) with nchars := 0 } := if_pos h
    rw [hbreak]
    refine if_neg (fun hzero => ?_)
    have hone : p.len = 1 := by
      have := congrArg (· + 1) hzero
      exact (this.trans (UInt64.sub_add_cancel _ _)).symm
    rw [hone] at hlen
    exact absurd hlen (by decide)
  · have hsame : printNewline p = p := if_neg h
    rw [hsame, hsame]

theorem startColumn_iff (p : Prog) :
    (printNewline p).nchars + 1 = (printNewline p).len - 1 ↔ startColumn p + 2 = p.len := by
  rw [nchars_printNewline, (prints_printNewline p).len]
  constructor
  · intro h
    have h' := congrArg (· + 1) h
    rw [UInt64.sub_add_cancel, UInt64.add_assoc] at h'
    exact h'
  · intro h
    rw [← h]
    exact (UInt64.add_sub_cancel (startColumn p + 1) 1).symm.trans
      (congrArg (· - 1) (UInt64.add_assoc _ _ _))

theorem hexdigit_ne {d : ℕ} (h : d < 16) : hexdigit d ≠ '.' := by
  have : ∀ d : Fin 16, hexdigit d ≠ '.' := by decide
  exact this ⟨d, h⟩

theorem Started.of_prints (h : Prints p q []) {text o : List Char} (hs : Started text o) :
    ∃ o', q.out ++ o = p.out ++ o' ∧ Started text o' := by
  obtain ⟨b, hb, hbroken⟩ := h.out
  refine ⟨b ++ o, by rw [hb, List.append_assoc], ?_⟩
  generalize htext : ([] : List Char) = t at hbroken
  clear hb
  induction hbroken with
  | nil => exact hs
  | char c _ _ => cases htext
  | brk _ ih => exact .brk (ih htext)

/-- A decimal number starts with a digit, or with a point and a digit behind it. -/
theorem printDecimal_started {n : BcNum} (h : Normal n) (hneg : n.neg = false) (hne : n.len ≠ 0)
    (hlen : 2 ≤ p.len) (hcol : n.rdx = 0 ∨ n.rdx ≠ n.len ∨ startColumn p + 2 ≠ p.len) :
    ∃ o, (printDecimal n (printNewline p)).out = p.out ++ o ∧
      Started (decimalText n n.len) o := by
  obtain ⟨i, hi⟩ : ∃ i, n.len = i + 1 := Nat.exists_eq_succ_of_ne_zero hne
  have hdigit : (n.num.getD i 0).toNat < 10 := by
    have := getD_isDigit h.digits i
    omega
  have hrun : printDecimal n (printNewline p) = printDecimalLoop n i
      (printHex (n.num.getD i 0).toNat 1 (i + 1 = n.rdx) (printNewline p)) := by
    rw [printDecimal, hi, printDecimalLoop, printSign, hneg, if_neg (by decide)]
  obtain ⟨o, ho, hbroken⟩ := (prints_printDecimalLoop n i
    (printHex (n.num.getD i 0).toNat 1 (i + 1 = n.rdx) (printNewline p))).out
  rw [hrun, ho, hi, decimalText]
  by_cases hpoint : i + 1 = n.rdx
  · -- the point and the first digit stand on one line
    have hcol : startColumn p + 2 ≠ p.len :=
      (hcol.resolve_left (by omega)).resolve_left (not_not_intro (by omega))
    have hmove : ∀ q : Prog, q.nchars + 1 ≠ q.len - 1 →
        printNewline (advance 1 (putchar '.' q)) = advance 1 (putchar '.' q) :=
      fun q hq => if_neg hq
    have hhex : (printHex (n.num.getD i 0).toNat 1 (decide (i + 1 = n.rdx)) (printNewline p)).out =
        (printNewline p).out ++ ['.', hexdigit (n.num.getD i 0).toNat] := by
      rw [decide_eq_true hpoint]
      unfold printHex printPoint
      rw [if_pos rfl, printNewline_printNewline hlen, hmove _ (mt (startColumn_iff p).mp hcol)]
      exact List.append_assoc _ _ _
    rw [hhex, if_pos hpoint, List.append_assoc]
    exact Started.of_prints (prints_printNewline p) (.point hdigit hbroken)
  · obtain ⟨o', ho', hbroken'⟩ := (prints_printHex (n.num.getD i 0).toNat 1
      (decide (i + 1 = n.rdx)) (printNewline p)).out
    rw [decide_eq_false hpoint, if_neg (by decide)] at hbroken'
    rw [ho', if_neg hpoint, List.append_assoc]
    exact Started.of_prints (prints_printNewline p)
      ((hbroken'.append hbroken).started (hexdigit_ne (by omega)))

/-- The characters of a number in a base, without the line breaks. -/
def printedText (b : ℕ) (n : BcNum) : List Char :=
  if n.len = 0 then ['0']
  else if b = 10 then decimalText n n.len
  else (Nat.digits b (val 10 n.num).toNat).reverse.map hexdigit

theorem digits_length_le {b m : ℕ} (hb : 1 < b) :
    (Nat.digits b m).length ≤ 4 * (ulong2num m).len := by
  rw [Nat.digits_length_le_iff hb, len_ulong2num]
  have hlt : m < 10 ^ (Nat.digits 10 m).length := Nat.lt_base_pow_length_digits (by decide)
  calc m < 10 ^ (Nat.digits 10 m).length := hlt
    _ ≤ 16 ^ (Nat.digits 10 m).length := Nat.pow_le_pow_left (by decide) _
    _ = 2 ^ (4 * (Nat.digits 10 m).length) := (Nat.pow_mul 2 4 _).symm
    _ ≤ b ^ (4 * (Nat.digits 10 m).length) := Nat.pow_le_pow_left hb _

theorem printValue_started {n : BcNum} (h : Normal n) (hneg : n.neg = false) (hlen : 2 ≤ p.len)
    (hcol : n.rdx = 0 ∨ n.rdx ≠ n.len ∨ startColumn p + 2 ≠ p.len) (hb : 2 ≤ p.obase)
    (hb' : p.obase ≤ 16) (hint : p.obase = 10 ∨ n.rdx = 0) :
    ∃ q o, q.out = p.out ++ o ∧ Started (printedText p.obase n) o ∧
      ∀ fuel, 4 * n.len + 10 ≤ fuel → printValue fuel n (printNewline p) = .ok q := by
  have hbase := (prints_printNewline p).obase
  simp only [printValue, printedText, hbase]
  split
  · -- zero
    obtain ⟨o, ho, hs⟩ := Started.of_prints (prints_printNewline p)
      (.digit (c := '0') (by decide) .nil)
    exact ⟨_, o, ho, hs, fun _ _ => rfl⟩
  · next hne =>
    split
    · obtain ⟨o, ho, hs⟩ := printDecimal_started h hneg hne hlen hcol
      exact ⟨_, o, ho, hs, fun _ _ => rfl⟩
    · next hten =>
      obtain ⟨m, rfl⟩ : ∃ m, n = ulong2num m :=
        ⟨_, h.eq_ulong2num (hint.resolve_left hten) hneg⟩
      have hm0 : m ≠ 0 := fun h0 => hne ((ulong2num_len_eq_zero m).mpr h0)
      have hdigits := digits_length_le (m := m) hb
      obtain ⟨q, hprints, hq⟩ := printNum_integer hb hb' hm0 (printNewline p)
      obtain ⟨o, ho, hbroken⟩ := ((prints_printNewline p).trans hprints).out
      refine ⟨q, o, ho, ?_, fun fuel hfuel => ?_⟩
      · rw [val_ulong2num, Int.toNat_natCast]
        obtain ⟨d, ds, hds⟩ : ∃ d ds, (Nat.digits p.obase m).reverse = d :: ds :=
          List.exists_cons_of_ne_nil fun hnil =>
            Nat.digits_ne_nil_iff_ne_zero.mpr hm0 (List.reverse_eq_nil_iff.mp hnil)
        have hd : d < p.obase := Nat.digits_lt_base hb (List.mem_reverse.mp (by
          rw [hds]
          exact List.mem_cons_self))
        rw [hds] at hbroken ⊢
        exact hbroken.started (hexdigit_ne (by omega))
      · have hmod : p.obase % 2 ^ 32 = p.obase := Nat.mod_eq_of_lt (by omega)
        have hsign : printSign (ulong2num m) (printNewline p) = printNewline p := rfl
        rw [printBase, hsign, hbase, if_pos hb', hmod]
        exact hq fuel (by omega)

/-- **What is printed for a number.** -/
theorem numPrint_started {n : BcNum} (h : Normal n) (hneg : n.neg = false) (hlen : 2 ≤ p.len)
    (hcol : n.rdx = 0 ∨ n.rdx ≠ n.len ∨ startColumn p + 2 ≠ p.len) (hb : 2 ≤ p.obase)
    (hb' : p.obase ≤ 16) (hint : p.obase = 10 ∨ n.rdx = 0) (newline : Bool) :
    ∃ q o, q.out = p.out ++ (o ++ if newline then ['\n'] else []) ∧
      Started (printedText p.obase n) o ∧
      ∀ fuel, 4 * n.len + 10 ≤ fuel → numPrint fuel n newline p = .ok q := by
  obtain ⟨q, o, ho, hs, hq⟩ := printValue_started h hneg hlen hcol hb hb' hint
  cases newline with
  | false =>
    refine ⟨q, o, by rw [ho]; exact congrArg _ (List.append_nil o).symm, hs, fun fuel hfuel => ?_⟩
    rw [numPrint, hq fuel hfuel]
    rfl
  | true =>
    refine ⟨{ putchar '\n' q with nchars := 0 }, o, ?_, hs, fun fuel hfuel => ?_⟩
    · rw [← List.append_assoc, ← ho]
      rfl
    · rw [numPrint, hq fuel hfuel]
      rfl

end

end Rustybox.Bc
