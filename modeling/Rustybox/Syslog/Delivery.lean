import Rustybox.Lib.Shifts
import Rustybox.Rust.Tokens
import Rustybox.Syslog.Messages

/-!
# Where the pieces of a datagram go

The buffers are large enough for a datagram of 255 bytes.  Each of its pieces is logged to the rules
that enable its facility and level, or else to the default log; but a rule is asked for a facility
that its map does not have.
-/

namespace Rustybox.Syslog

open Rust

/-! ### What is to be logged -/

/-- The rule has the bit of the facility and the level. -/
def LogRule.enables {F : Type} (rule : LogRule F) (facility level : ℕ) : Bool :=
  if h : facility < 24 then (rule.enabledFacilityPriomap ⟨facility, h⟩).getLsbD level else false

/-- A byte of a piece as it is printed. -/
def escapeByte (c : UInt8) : List UInt8 :=
  let c := if c = newline then space else c
  if c &&& ~~~0x1f = 0 ∧ c ≠ 9 then [caret, c + 64] else [c]

def escaped (t : Str) : Str := t.flatMap escapeByte

/-- The pieces between the NULs; a NUL at the end has no piece behind it. -/
def pieces (datagram : Str) : List Str :=
  let ps := strsep datagram 0
  if ps.getLast? = some [] then ps.dropLast else ps

section

variable {F : Type} (g : Globals F)

/-- Where a piece with this priority is to be logged, and the text. -/
def sent (ctime : Str) (pri : BitVec 32) (msg : Str) : List (Target F × Str) :=
  let text := printed g ctime pri msg
  let facility := pri.toNat / 8
  let level := pri.toNat % 8
  if g.optKmsg then [(.kmsg, text)]
  else
    let files := (g.logRules.filter (·.enables facility level)).map (·.file)
    if files ≠ [] then files.map fun f => (.file f, text)
    else if (level : ℤ) < g.logLevel then
      [(if g.optCircularlog && g.shbuf then .shmem else .file g.logFile, text)]
    else []

/-- The pieces one after another, the first of them being piece `n`. -/
def sentAll (ctime : ℕ → Str) : List Str → ℕ → List (Target F × Str)
  | [], _ => []
  | t :: ts, n =>
    sent g (ctime n) (parsePri t).1 (escaped (parsePri t).2) ++ sentAll ctime ts (n + 1)

end

/-! ### Priorities -/

theorem parsePri_lt (p : Str) : (parsePri p).1.toNat < 1024 := by
  rw [parsePri]
  split
  · dsimp only
    split
    · decide
    · rename_i hmask
      have hzero : (bbStrtou p.tail).1 &&& ~~~(0x3f8 ||| 0x7) = 0 := not_not.mp hmask
      have hsame : (bbStrtou p.tail).1 &&& (0x3f8 ||| 0x7) = (bbStrtou p.tail).1 := by
        refine BitVec.eq_of_getLsbD_eq fun i hi => ?_
        have hbit := congrArg (BitVec.getLsbD · i) hzero
        simp only [BitVec.getLsbD_and, BitVec.getLsbD_not, hi, decide_true, Bool.true_and,
          show BitVec.getLsbD (0 : BitVec 32) i = false from BitVec.getLsbD_zero] at hbit
        rw [BitVec.getLsbD_and]
        cases hx : (bbStrtou p.tail).1.getLsbD i with
        | false => rfl
        | true =>
          rw [hx] at hbit
          simpa using hbit
      rw [← hsame, BitVec.toNat_and]
      exact Nat.lt_of_le_of_lt Nat.and_le_right (by decide)
  · exact (by decide : LOG_USER_NOTICE.toNat < 1024)

theorem pri_parts {pri : BitVec 32} (h : pri.toNat < 1024) :
    (((pri &&& 0x3f8) >>> 3).setWidth 8 : BitVec 8).toNat = pri.toNat / 8 ∧
      (pri &&& 0x7).toNat = pri.toNat % 8 ∧ (pri &&& 0x7).toInt = (pri.toNat % 8 : ℕ) := by
  have hall : ∀ n : Fin 1024,
      ((((BitVec.ofNat 32 n.val &&& 0x3f8) >>> 3).setWidth 8 : BitVec 8).toNat = n.val / 8 ∧
        (BitVec.ofNat 32 n.val &&& 0x7).toNat = n.val % 8) ∧
        (BitVec.ofNat 32 n.val &&& 0x7).toInt = (n.val % 8 : ℕ) := by decide +kernel
  have hpri := hall ⟨pri.toNat, h⟩
  rw [BitVec.ofNat_toNat, BitVec.setWidth_eq] at hpri
  exact ⟨hpri.1.1, hpri.1.2, hpri.2⟩

theorem takeWhile_nul (p : UInt8 → Bool) (hp : p 0 = false) (t rest : Str) :
    (t ++ 0 :: rest).takeWhile p = t.takeWhile p ∧
      (t ++ 0 :: rest).dropWhile p = t.dropWhile p ++ 0 :: rest := by
  induction t with
  | nil => simp [hp]
  | cons c t ih =>
    obtain ⟨htake, hdrop⟩ := ih
    cases hc : p c with
    | false => simp [hc]
    | true =>
      constructor
      · simp only [List.cons_append, List.takeWhile_cons_of_pos hc, htake]
      · simp only [List.cons_append, List.dropWhile_cons_of_pos hc, hdrop]

theorem any_head_nul (p : UInt8 → Bool) (hp : p 0 = false) (t rest : Str) :
    (t ++ 0 :: rest).head?.any p = t.head?.any p := by
  cases t with
  | nil => exact hp
  | cons c t => rfl

theorem bbStrtou_nul (t rest : Str) :
    bbStrtou (t ++ 0 :: rest) = ((bbStrtou t).1, (bbStrtou t).2 ++ 0 :: rest) := by
  obtain ⟨htake, hdrop⟩ := takeWhile_nul isDigit (by decide) t rest
  rw [bbStrtou, bbStrtou, any_head_nul isAlnum (by decide)]
  split
  · rfl
  · rw [htake, hdrop]
    dsimp only
    rw [any_head_nul isAlnum (by decide)]
    split <;> rfl

theorem tail_nul (p rest : Str) :
    (if (p ++ 0 :: rest).head? = some 62 then (p ++ 0 :: rest).tail else p ++ 0 :: rest) =
      (if p.head? = some 62 then p.tail else p) ++ 0 :: rest := by
  cases p with
  | nil => rfl
  | cons d p =>
    by_cases hd : d = 62
    · subst hd
      rfl
    · have hhead : ¬ (d :: p ++ 0 :: rest).head? = some 62 := by simpa using hd
      have hhead' : ¬ (d :: p).head? = some 62 := by simpa using hd
      rw [if_neg hhead, if_neg hhead']

theorem parsePri_nul (t rest : Str) :
    parsePri (t ++ 0 :: rest) = ((parsePri t).1, (parsePri t).2 ++ 0 :: rest) := by
  cases t with
  | nil => rfl
  | cons c t =>
    by_cases hc : c = 60
    · subst hc
      have hhead : (60 :: t ++ 0 :: rest).head? = some 60 := rfl
      have hhead' : (60 :: t).head? = some 60 := rfl
      rw [parsePri, parsePri, if_pos hhead, if_pos hhead', List.cons_append, List.tail_cons,
        List.tail_cons, bbStrtou_nul]
      dsimp only
      rw [tail_nul]
    · have hhead : ¬ (c :: t ++ 0 :: rest).head? = some 60 := by simpa using hc
      have hhead' : ¬ (c :: t).head? = some 60 := by simpa using hc
      rw [parsePri, parsePri, if_neg hhead, if_neg hhead']

theorem parsePri_suffix (t : Str) : (parsePri t).2 <:+ t := by
  have hnumber : ∀ s : Str, (bbStrtou s).2 <:+ s := by
    intro s
    rw [bbStrtou]
    split
    · exact List.suffix_rfl
    · dsimp only
      split
      · exact List.dropWhile_suffix _
      · exact List.dropWhile_suffix _
  rw [parsePri]
  split
  · dsimp only
    have hbehind := (hnumber t.tail).trans (List.tail_suffix t)
    split
    · exact (List.tail_suffix _).trans hbehind
    · exact hbehind
  · exact List.suffix_rfl

/-! ### Escaping -/

theorem escapeByte_length (c : UInt8) : (escapeByte c).length ≤ 2 := by
  rw [escapeByte]
  generalize (if c = newline then space else c) = c
  split
  · exact Nat.le_refl 2
  · exact Nat.le_succ 1

theorem escaped_length (t : Str) : (escaped t).length ≤ 2 * t.length := by
  induction t with
  | nil => exact Nat.zero_le _
  | cons c t ih =>
    have hc := escapeByte_length c
    rw [escaped, List.flatMap_cons, List.length_append, List.length_cons]
    rw [escaped] at ih
    omega

theorem put_eq {parsebuf : List UInt8} (h : parsebuf.length < 512) (c : UInt8) :
    put parsebuf c = some (parsebuf ++ [c]) := if_pos h

theorem escapeLoop_eq {t : Str} (ht : 0 ∉ t) (rest : Str) {parsebuf : List UInt8}
    (h : parsebuf.length + (escaped t).length < 512) :
    escapeLoop (t ++ 0 :: rest) parsebuf = some (rest, parsebuf ++ escaped t) := by
  induction t generalizing parsebuf with
  | nil =>
    rw [List.nil_append, escapeLoop, if_pos rfl, if_pos (by simpa [escaped] using h)]
    simp [escaped]
  | cons c t ih =>
    obtain ⟨hc, ht⟩ : c ≠ 0 ∧ 0 ∉ t := by
      constructor
      · rintro rfl
        exact ht List.mem_cons_self
      · exact fun hmem => ht (List.mem_cons_of_mem c hmem)
    have hsplit : escaped (c :: t) = escapeByte c ++ escaped t := List.flatMap_cons
    rw [hsplit] at h ⊢
    rw [List.cons_append, escapeLoop, if_neg hc]
    rw [escapeByte] at h ⊢
    generalize (if c = newline then space else c) = c at h ⊢
    by_cases hcontrol : c &&& ~~~0x1f = 0 ∧ c ≠ 9
    · rw [if_pos hcontrol] at h
      simp only [List.length_append, List.length_cons, List.length_nil] at h
      have hcaret : (parsebuf ++ [caret]).length < 512 := by
        rw [List.length_append, List.length_singleton]
        omega
      have hboth : (parsebuf ++ [caret] ++ [c + 64]).length + (escaped t).length < 512 := by
        simp only [List.length_append, List.length_singleton]
        omega
      rw [if_pos hcontrol, if_pos hcontrol, put_eq (by omega)]
      simp only [Option.bind_eq_bind, Option.bind_some]
      rw [put_eq hcaret, Option.bind_some, ih ht hboth]
      simp only [List.append_assoc, List.cons_append, List.nil_append]
    · rw [if_neg hcontrol] at h
      simp only [List.length_append, List.length_cons, List.length_nil] at h
      have hone : (parsebuf ++ [c]).length + (escaped t).length < 512 := by
        simp only [List.length_append, List.length_singleton]
        omega
      rw [if_neg hcontrol, if_neg hcontrol, put_eq (by omega)]
      simp only [Option.bind_eq_bind, Option.bind_some]
      rw [ih ht hone, List.append_assoc]

/-! ### Logging -/

theorem decimal_length {n k : ℕ} (hk : 0 < k) (h : n < 10 ^ k) : (decimal n).length ≤ k := by
  rw [decimal, List.length_map]
  exact (Nat.length_toDigits_le_iff (by decide) hk).mpr h

theorem formatD_length (x : BitVec 32) : (formatD x).length ≤ 11 := by
  have hlt := x.isLt
  have hneg := (-x).isLt
  rw [formatD]
  split
  · have hdigits : (decimal (-x).toNat).length ≤ 10 := decimal_length (by decide) (by omega)
    rw [List.length_cons]
    omega
  · have hdigits : (decimal x.toNat).length ≤ 10 := decimal_length (by decide) (by omega)
    omega

section

variable {F : Type} (g : Globals F)

theorem timestamp_length (ctime msg : Str) :
    (timestamp g ctime msg).1.length ≤ 15 ∧ (timestamp g ctime msg).2.length ≤ msg.length := by
  rw [timestamp]
  split
  · constructor
    · split
      · exact List.length_take_le _ _
      · exact List.length_take_le _ _
    · rw [List.length_drop]
      exact Nat.sub_le _ _
  · exact ⟨List.length_take_le _ _, Nat.le_refl _⟩

/-- `printbuf` is large enough. -/
theorem printed_length (ctime : Str) (pri : BitVec 32) {msg : Str} (h : msg.length ≤ 510) :
    (printed g ctime pri msg).length < 640 := by
  obtain ⟨hstamp, hmsg⟩ := timestamp_length g ctime msg
  have hpri := formatD_length (pri &&& g.primask)
  have hhost : (g.hostname.take 64).length ≤ 64 := List.length_take_le _ _
  have hfac : (parseFacPrio20 pri).length ≤ 19 := List.length_take_le _ _
  rw [printed]
  revert hstamp hmsg
  obtain ⟨stamp, text⟩ := timestamp g ctime msg
  intro hstamp htext
  dsimp only at hstamp htext ⊢
  split
  · simp only [List.length_cons, List.length_append, List.length_nil]
    omega
  · split
    · simp only [List.length_cons, List.length_append, List.length_nil]
      omega
    · simp only [List.length_cons, List.length_append, List.length_nil]
      omega

theorem enables_iff {rule : LogRule F} {facility level : ℕ} (hf : facility < 24) (hl : level < 8) :
    rule.enabledFacilityPriomap ⟨facility, hf⟩ &&& 1#8 <<< level ≠ 0 ↔
      rule.enables facility level = true := by
  rw [LogRule.enables, dif_pos hf, Ne, Shifts.and_bit_eq_zero _ hl, Bool.not_eq_false]

theorem ruleLoop_eq {facility level : ℕ} (hf : facility < 24) (hl : level < 8)
    (rules : List (LogRule F)) :
    ruleLoop facility (1#8 <<< level) rules =
      some ((rules.filter (·.enables facility level)).map (·.file)) := by
  induction rules with
  | nil => rfl
  | cons rule rules ih =>
    rw [ruleLoop, dif_pos hf, ih]
    simp only [Option.bind_eq_bind, Option.bind_some]
    by_cases henables : rule.enables facility level = true
    · rw [if_pos ((enables_iff hf hl).mpr henables)]
      simp only [List.filter_cons, henables, if_true, List.map_cons]
    · rw [if_neg fun h => henables ((enables_iff hf hl).mp h)]
      simp only [List.filter_cons, henables, Bool.false_eq_true, if_false]

/-- The rules can be asked for the facility, or are not. -/
def Indexed (pri : BitVec 32) : Prop :=
  g.optKmsg = true ∨ g.logRules = [] ∨ pri.toNat / 8 < 24

theorem timestampAndLog_indexed {ctime : Str} {pri : BitVec 32} {msg : Str}
    (hpri : pri.toNat < 1024) (hmsg : msg.length ≤ 510) (h : Indexed g pri) :
    timestampAndLog g ctime pri msg = some (sent g ctime pri msg) := by
  obtain ⟨hfacility, hlevel, hint⟩ := pri_parts hpri
  rw [timestampAndLog, sprintf, if_pos (printed_length g ctime pri hmsg), sent]
  simp only [Option.bind_eq_bind, Option.bind_some]
  by_cases hkmsg : g.optKmsg = true
  · rw [if_pos hkmsg, if_pos hkmsg]
  · rw [if_neg hkmsg, if_neg hkmsg, hfacility, hlevel, hint]
    have hrules : ruleLoop (pri.toNat / 8) (1#8 <<< (pri.toNat % 8)) g.logRules =
        some ((g.logRules.filter (·.enables (pri.toNat / 8) (pri.toNat % 8))).map (·.file)) := by
      rcases h with h | h | h
      · exact absurd h hkmsg
      · rw [h]
        rfl
      · exact ruleLoop_eq h (Nat.mod_lt _ (by decide)) g.logRules
    rw [hrules]
    simp only [Option.bind_some]
    split
    · rfl
    · split
      · split <;> rfl
      · rfl

theorem timestampAndLog_not_indexed {ctime : Str} {pri : BitVec 32} {msg : Str}
    (hpri : pri.toNat < 1024) (h : ¬ Indexed g pri) : timestampAndLog g ctime pri msg = none := by
  obtain ⟨hkmsg, hrest⟩ := not_or.mp h
  obtain ⟨hrules, hfacility⟩ := not_or.mp hrest
  obtain ⟨rule, rules, hcons⟩ := List.exists_cons_of_ne_nil hrules
  have hloop : ruleLoop (pri.toNat / 8) (1#8 <<< (pri &&& 0x7).toNat) g.logRules = none := by
    rw [hcons, ruleLoop, dif_neg hfacility]
  rw [timestampAndLog, sprintf]
  by_cases hfits : (printed g ctime pri msg).length < 640
  · rw [if_pos hfits]
    simp only [Option.bind_eq_bind, Option.bind_some]
    rw [if_neg hkmsg, (pri_parts hpri).1, hloop]
    rfl
  · rw [if_neg hfits]
    rfl

/-! ### Pieces -/

theorem pieces_cons {t rest : Str} (ht : 0 ∉ t) : pieces (t ++ 0 :: rest) = t :: pieces rest := by
  have hne := strsep_ne_nil rest 0
  have hlast : (t :: strsep rest 0).getLast? = (strsep rest 0).getLast? := by
    obtain ⟨p, ps, hcons⟩ := List.exists_cons_of_ne_nil hne
    rw [hcons, List.getLast?_cons_cons]
  rw [pieces, pieces, strsep_component ht, hlast]
  split
  · exact List.dropLast_cons_of_ne_nil hne
  · rfl

theorem pieces_of_notMem {t : Str} (ht : 0 ∉ t) (hne : t ≠ []) : pieces t = [t] := by
  rw [pieces, strsep_of_notMem ht, if_neg (by simpa using hne)]

theorem splitLoop_piece {ctime : ℕ → Str} {turns left n : ℕ} {t : Str} (ht : 0 ∉ t)
    (hlength : t.length ≤ 255) (hleft : 0 < left) (rest : Str) :
    splitLoop g ctime (turns + 1) (t ++ 0 :: rest) left n =
      match timestampAndLog g (ctime n) (parsePri t).1 (escaped (parsePri t).2) with
      | none => none
      | some logged =>
        (splitLoop g ctime turns rest (left - (t.length + 1)) (n + 1)).map (logged ++ ·) := by
  have hsuffix := parsePri_suffix t
  have hbehind : 0 ∉ (parsePri t).2 := fun h => ht (hsuffix.subset h)
  have hescaped := escaped_length (parsePri t).2
  have hshort := hsuffix.length_le
  have hfits : ([] : List UInt8).length + (escaped (parsePri t).2).length < 512 := by
    rw [List.length_nil]
    omega
  have htaken : (t ++ 0 :: rest).length - rest.length = t.length + 1 := by
    rw [List.length_append, List.length_cons]
    omega
  rw [splitLoop, if_neg (by omega), parsePri_nul]
  dsimp only
  rw [escapeLoop_eq hbehind rest hfits]
  simp only [Option.bind_eq_bind, Option.bind_some, htaken, List.nil_append]
  cases timestampAndLog g (ctime n) (parsePri t).1 (escaped (parsePri t).2) with
  | none => rfl
  | some logged =>
    simp only [Option.bind_some]
    cases splitLoop g ctime turns rest (left - (t.length + 1)) (n + 1) with
    | none => rfl
    | some more => rfl

/-- Pieces that are all logged, or of which one asks a rule for a facility that its map does not
have. -/
def Run (ctime : ℕ → Str) (ts : List Str) (n : ℕ) (o : Option (List (Target F × Str))) : Prop :=
  ((∀ t ∈ ts, Indexed g (parsePri t).1) → o = some (sentAll g ctime ts n)) ∧
    (¬ (∀ t ∈ ts, Indexed g (parsePri t).1) → o = none)

theorem Run.cons {ctime : ℕ → Str} {turns left n : ℕ} {t rest : Str} {ts : List Str} (ht : 0 ∉ t)
    (hlength : t.length ≤ 255) (hleft : 0 < left)
    (h : Run g ctime ts (n + 1) (splitLoop g ctime turns rest (left - (t.length + 1)) (n + 1))) :
    Run g ctime (t :: ts) n (splitLoop g ctime (turns + 1) (t ++ 0 :: rest) left n) := by
  obtain ⟨hlogged, hfault⟩ := h
  have hpri := parsePri_lt t
  have hescaped := escaped_length (parsePri t).2
  have hshort := (parsePri_suffix t).length_le
  rw [splitLoop_piece g ht hlength hleft]
  by_cases hindexed : Indexed g (parsePri t).1
  · rw [timestampAndLog_indexed g hpri (by omega) hindexed]
    dsimp only
    constructor
    · intro hall
      rw [hlogged fun t' ht' => hall t' (List.mem_cons_of_mem t ht'), sentAll, Option.map_some]
    · intro hnot
      rw [hfault fun hall => hnot (List.forall_mem_cons.mpr ⟨hindexed, hall⟩), Option.map_none]
  · rw [timestampAndLog_not_indexed g hpri hindexed]
    exact ⟨fun hall => absurd (hall t List.mem_cons_self) hindexed, fun _ => rfl⟩

theorem run_nil (ctime : ℕ → Str) (turns : ℕ) (rest : Str) (n : ℕ) :
    Run g ctime [] n (splitLoop g ctime turns rest 0 n) := by
  refine ⟨fun _ => ?_, fun h => absurd (fun t ht => absurd ht List.not_mem_nil) h⟩
  cases turns <;> rfl

theorem splitLoop_run (ctime : ℕ → Str) {datagram : Str} (hlength : datagram.length ≤ 255)
    {turns : ℕ} (hturns : datagram.length ≤ turns) (rest : Str) (n : ℕ) :
    Run g ctime (pieces datagram) n
      (splitLoop g ctime turns (datagram ++ 0 :: rest) datagram.length n) := by
  induction turns generalizing datagram n with
  | zero =>
    obtain rfl : datagram = [] := List.eq_nil_of_length_eq_zero (Nat.le_zero.mp hturns)
    exact run_nil g ctime 0 _ n
  | succ turns ih =>
    by_cases hempty : datagram = []
    · subst hempty
      exact run_nil g ctime _ _ n
    · have hpositive : 0 < datagram.length := List.length_pos_iff.mpr hempty
      by_cases hnul : 0 ∈ datagram
      · -- the first piece ends at a NUL of the datagram
        obtain ⟨t, more, rfl, ht⟩ := List.eq_append_cons_of_mem hnul
        rw [List.length_append, List.length_cons] at hlength hturns
        rw [pieces_cons ht, List.append_assoc, List.cons_append]
        refine Run.cons g ht (by omega) hpositive ?_
        have hleft : (t ++ 0 :: more).length - (t.length + 1) = more.length := by
          rw [List.length_append, List.length_cons]
          omega
        rw [hleft]
        exact ih (by omega) (by omega) (n + 1)
      · -- the only piece ends at the NUL behind the datagram
        rw [pieces_of_notMem hnul hempty]
        refine Run.cons g hnul hlength hpositive ?_
        rw [Nat.sub_eq_zero_of_le (Nat.le_succ _)]
        exact run_nil g ctime turns rest (n + 1)

/-- A datagram is logged as it should be, piece after piece, if and only if no rule is asked for a
facility that its map does not have. -/
theorem splitEscapeAndLog_iff (ctime : ℕ → Str) (datagram rest : Str)
    (hlength : datagram.length ≤ 255) :
    splitEscapeAndLog g ctime (datagram ++ 0 :: rest) datagram.length =
        some (sentAll g ctime (pieces datagram) 0) ↔
      g.optKmsg = true ∨ g.logRules = [] ∨
        ∀ t ∈ pieces datagram, (parsePri t).1.toNat / 8 < 24 := by
  obtain ⟨hlogged, hfault⟩ := splitLoop_run g ctime hlength (Nat.le_refl _) rest 0
  rw [splitEscapeAndLog]
  constructor
  · intro h
    by_contra hnot
    obtain ⟨hkmsg, hnot⟩ := not_or.mp hnot
    obtain ⟨hrules, hnot⟩ := not_or.mp hnot
    have hbad : ¬ ∀ t ∈ pieces datagram, Indexed g (parsePri t).1 := fun hall =>
      hnot fun t ht => ((hall t ht).resolve_left hkmsg).resolve_left hrules
    rw [hfault hbad] at h
    cases h
  · rintro (h | h | h)
    · exact hlogged fun t _ => Or.inl h
    · exact hlogged fun t _ => Or.inr (Or.inl h)
    · exact hlogged fun t ht => Or.inr (Or.inr (h t ht))

end

/-- A syslogd with one rule, which enables everything. -/
def oneRule : Globals ℕ :=
  ⟨false, false, true, false, false, [], 7, 8, 0, [⟨fun _ => 0xff, 1⟩]⟩

theorem splitEscapeAndLog_iff_kern :
    splitEscapeAndLog oneRule (fun _ => []) (bytes "<0>a" ++ [0]) 4 =
        some (sentAll oneRule (fun _ => []) (pieces (bytes "<0>a")) 0) ↔
      oneRule.optKmsg = true ∨ oneRule.logRules = [] ∨
        ∀ t ∈ pieces (bytes "<0>a"), (parsePri t).1.toNat / 8 < 24 :=
  splitEscapeAndLog_iff oneRule (fun _ => []) (bytes "<0>a") [] (by decide)

/-- Facility 24 is no index of the map. -/
theorem splitEscapeAndLog_facility :
    splitEscapeAndLog oneRule (fun _ => []) (bytes "<192>a" ++ [0]) 6 = none := by
  decide

end Rustybox.Syslog
