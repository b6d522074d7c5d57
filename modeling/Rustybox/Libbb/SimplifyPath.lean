import Rustybox.Httpd.Canonical
import Rustybox.Lib.InPlace

/-!
# Simplifying a path in place

Lexical resolution: empty components and `.` are dropped, and `..` goes back to the directory
before, or stays at the root.

`bb_simplify_abs_path_inplace`, with its two pointers into one buffer.  The path is what comes
before the first NUL of the buffer, and starts with a slash.
-/

namespace Rustybox.Libbb

open Rustybox.Rust
open Rustybox.Httpd
open InPlace

/-! ### What it is for -/

/-- A slash, and the components joined by single slashes. -/
def absolute (names : List Str) : Str := slash :: [slash].intercalate names

/-- The path with its components resolved lexically from the root. -/
def simplified (path : Str) : Str := absolute (resolve [] path)

/-! ### Components -/

theorem joined_eq (names : List Str) :
    slash :: joined names = names.flatMap (slash :: ·) ++ [slash] := by
  induction names with
  | nil => rfl
  | cons n names ih =>
    have hcons : slash :: joined (n :: names) = slash :: n ++ slash :: joined names := by
      simp [joined]
    rw [hcons, ih, List.flatMap_cons, List.append_assoc]

theorem absolute_of_ne_nil {names : List Str} (hne : names ≠ []) :
    absolute names = names.flatMap (slash :: ·) := by
  induction names with
  | nil => exact absurd rfl hne
  | cons n names ih =>
    cases names with
    | nil => simp [absolute, List.intercalate]
    | cons m names =>
      have hcons : absolute (n :: m :: names) = slash :: n ++ absolute (m :: names) := by
        simp [absolute, List.intercalate]
      rw [hcons, ih (by simp)]
      exact List.flatMap_cons.symm

/-- The loop of `canonicalize` ends with the components that are left, and a slash after the last
one or not. -/
theorem canonicalize_resolve {s out : Str} {names : List Str} {cur : Str}
    (hw : Written out s names cur) : ∃ names' last,
      canonicalize false out s = some (slash :: (joined names' ++ last)).reverse ∧
        (last = [] ∧ resolve names (cur ++ s) = names' ∨
          IsName last ∧ resolve names (cur ++ s) = names' ++ [last]) := by
  induction s generalizing out names cur with
  | nil =>
    refine ⟨names, cur, by rw [canonicalize, hw.out_eq], ?_⟩
    rw [List.append_nil, resolve_of_notMem hw.slash]
    rcases (written_end hw).2 with rfl | hname
    · exact Or.inl ⟨rfl, rfl⟩
    · exact Or.inr ⟨hname, enter_name hname⟩
  | cons b s ih =>
    rcases written_step false hw with ⟨hfalse, -⟩ | ⟨out', names', cur', hout, hwritten, hres⟩
    · cases hfalse
    · rw [hout, hres]
      exact ih hwritten

/-- What is kept of the path when the loop ends: not a trailing slash, unless it is all there is. -/
def kept (out : Str) : Str :=
  if out.length = 1 ∨ startsWith slash out = false then out.reverse else out.tail.reverse

theorem kept_of_resolved {names names' : List Str} {last : Str}
    (h : last = [] ∧ names' = names ∨ IsName last ∧ names' = names ++ [last]) :
    kept (slash :: (joined names ++ last)).reverse = absolute names' := by
  rcases h with ⟨rfl, rfl⟩ | ⟨hlast, rfl⟩
  · rw [List.append_nil, joined_eq, List.reverse_append, List.reverse_singleton,
      List.singleton_append]
    cases names' with
    | nil => rfl
    | cons n names =>
      rw [absolute_of_ne_nil (by simp), kept, if_neg (by simp [startsWith]), List.tail_cons,
        List.reverse_reverse]
  · have hstart : startsWith slash (slash :: (joined names ++ last)).reverse = false := by
      rw [Bool.eq_false_iff, ne_eq, startsWith_out hlast.slash]
      exact hlast.ne_nil
    rw [kept, if_pos (Or.inr hstart), List.reverse_reverse, ← List.cons_append, joined_eq,
      absolute_of_ne_nil (by simp), List.flatMap_append, List.append_assoc]
    simp

/-- **Simplification**, as one pass over a list: what the loop keeps is the simplified path. -/
theorem kept_canonicalize (path : Str) :
    ∃ out, canonicalize false [slash] path = some out ∧ kept out = simplified path := by
  obtain ⟨names, last, hout, h⟩ := canonicalize_resolve (written_root path)
  exact ⟨_, hout, kept_of_resolved (by simpa using h)⟩

/-! ### Simplifying twice -/

theorem mem_strsep {s c : Str} (hc : c ∈ strsep s slash) : ∀ x ∈ c, x ∈ s ∧ x ≠ slash := by
  obtain ⟨hslash, u, v, rfl, -, -⟩ := exists_of_mem_strsep hc
  intro x hx
  exact ⟨by simp [hx], fun he => hslash (he ▸ hx)⟩

/-- What is left of a path are pieces of it, and none that stand for a directory that is there
already. -/
theorem mem_resolve {path n : Str} (hn : n ∈ resolve [] path) :
    n ∈ strsep path slash ∧ n ≠ [] ∧ n ≠ [dot] ∧ n ≠ dotdot := by
  have hfold : ∀ (pieces names : List Str), n ∈ pieces.foldl enter names →
      n ∈ names ∨ n ∈ pieces ∧ n ≠ [] ∧ n ≠ [dot] ∧ n ≠ dotdot := by
    intro pieces
    induction pieces with
    | nil => exact fun names h => Or.inl h
    | cons c pieces ih =>
      intro names h
      rcases ih (enter names c) h with h | ⟨h, hne⟩
      · rw [enter] at h
        split at h
        · exact Or.inl h
        · rename_i hempty
          obtain ⟨hnil, hdot⟩ := not_or.mp hempty
          split at h
          · exact Or.inl (List.dropLast_subset _ h)
          · rename_i hdotdot
            rcases List.mem_append.mp h with h | h
            · exact Or.inl h
            · rw [List.mem_singleton.mp h]
              exact Or.inr ⟨List.mem_cons_self, hnil, hdot, hdotdot⟩
      · exact Or.inr ⟨List.mem_cons_of_mem _ h, hne⟩
  exact (hfold _ [] hn).resolve_left (by simp)

theorem isName_resolve (path : Str) : ∀ n ∈ resolve [] path, IsName n := by
  intro n hn
  obtain ⟨hpiece, hnil, hdot, hdotdot⟩ := mem_resolve hn
  exact ⟨hnil, hdot, hdotdot, fun h => (mem_strsep hpiece _ h).2 rfl⟩

theorem resolve_flatMap {names : List Str} (hnames : ∀ n ∈ names, IsName n) (front : List Str) :
    resolve front (names.flatMap (slash :: ·)) = front ++ names := by
  induction names generalizing front with
  | nil => exact (List.append_nil front).symm
  | cons n names ih =>
    have hn := hnames n List.mem_cons_self
    have hend : atEnd (names.flatMap (slash :: ·)) = true := by
      cases names with
      | nil => rfl
      | cons m names => rfl
    rw [List.flatMap_cons, List.cons_append, resolve_slash, resolve_atEnd hn.slash hend,
      enter_name hn, ih (fun m hm => hnames m (List.mem_cons_of_mem _ hm)), List.append_assoc,
      List.singleton_append]

theorem resolve_absolute {names : List Str} (hnames : ∀ n ∈ names, IsName n) :
    resolve [] (absolute names) = names := by
  cases names with
  | nil => rfl
  | cons n names =>
    rw [absolute_of_ne_nil (by simp), resolve_flatMap hnames]
    rfl

theorem simplified_simplified (path : Str) : simplified (simplified path) = simplified path :=
  congrArg absolute (resolve_absolute (isName_resolve path))

/-- A simplified path holds bytes of the path, and slashes. -/
theorem mem_simplified {path : Str} {b : UInt8} (hb : b ∈ simplified path) :
    b ∈ path ∨ b = slash := by
  by_cases hne : resolve [] path = []
  · rw [simplified, hne] at hb
    exact Or.inr (by simpa [absolute, List.intercalate] using hb)
  · rw [simplified, absolute_of_ne_nil hne] at hb
    obtain ⟨n, hn, hb⟩ := List.mem_flatMap.mp hb
    rcases List.mem_cons.mp hb with hb | hb
    · exact Or.inr hb
    · exact Or.inl (mem_strsep (mem_resolve hn).1 b hb).1

/-! ## Simplifying in place -/

/-! ### The function -/

/-- What a turn of the loop does with the byte at `s`. -/
inductive Turn where
  | skip
  | omitPrevious
  | copy
  deriving DecidableEq

/-- Does a component end at this byte? -/
def ends (b : UInt8) : Bool := b == slash || b == 0

/-- The conditions of the loop, which look up to two bytes ahead.  Nothing is read outside the
buffer, or there is no result. -/
def lookahead (buf : Str) (s p : ℕ) : Option Turn := do
  if (← buf[p]?) ≠ slash then return .copy
  let b ← buf[s]?
  -- skip duplicate (or initial) slash
  if b = slash then return .skip
  if b ≠ dot then return .copy
  let b1 ← buf[s + 1]?
  -- skip extra "/./"
  if ends b1 then return .skip
  if b1 ≠ dot then return .copy
  let b2 ← buf[s + 2]?
  if ends b2 then return .omitPrevious else return .copy

/-- Omit previous dir: `p` goes back to the slash before. -/
def omitPrevious (buf : Str) : ℕ → Option ℕ
  | 0 => none
  | p + 1 => do if (← buf[p]?) = slash then return p else omitPrevious buf p

/-- The variables of the loop; the pointers are offsets from `start`. -/
structure Simplifier where
  buf : Str
  s : ℕ
  p : ℕ
  deriving DecidableEq

/-- One turn of the loop, up to the condition at its end. -/
def simplifyTurn (t : Simplifier) : Option Simplifier := do
  match ← lookahead t.buf t.s t.p with
  | .skip => return { t with s := t.s + 1 }
  | .omitPrevious =>
    let p ← (if t.p > 0 then omitPrevious t.buf t.p else some t.p)
    return { t with s := t.s + 2, p := p }
  | .copy =>
    let b ← t.buf[t.s]?
    if t.p + 1 < t.buf.length then
      return { buf := t.buf.set (t.p + 1) b, s := t.s + 1, p := t.p + 1 }
    else none

/-- The loop, which ends at a NUL. -/
def simplifyLoop : ℕ → Simplifier → Option Simplifier
  | 0, _ => none
  | n + 1, t => do
    let t ← simplifyTurn t
    if (← t.buf[t.s]?) ≠ 0 then simplifyLoop n t else return t

/-- `bb_simplify_abs_path_inplace`: the buffer, and the pointer that is returned. -/
def bbSimplifyAbsPathInplace (buf : Str) : Option (Str × ℕ) := do
  let t ← simplifyLoop buf.length ⟨buf, 0, 0⟩
  -- not a trailing slash, so keep last character
  let p := if t.p = 0 ∨ (← t.buf[t.p]?) ≠ slash then t.p + 1 else t.p
  if p < t.buf.length then return (t.buf.set p 0, p) else none

/-! ### One turn -/

/-- The buffer while the loop runs: `out` is written, its last byte first, and `r` is left of the
path, whose NUL is at `len`. -/
structure Running (len : ℕ) (t : Simplifier) (out r tail : Str) : Prop where
  rewriting : Rewriting t.buf out.reverse (r ++ 0 :: tail) (t.p + 1) t.s
  root : out.getLast? = some slash
  text : 0 ∉ r
  nul : t.s + r.length = len

variable {len : ℕ} {t : Simplifier} {out r tail : Str} {b : UInt8}

theorem Running.length (h : Running len t out r tail) : out.length = t.p + 1 := by
  obtain ⟨gap, -, hp, -⟩ := h.rewriting
  rw [hp, List.length_reverse]

theorem Running.last (h : Running len t out r tail) : t.buf[t.p]? = out.head? := by
  rw [h.rewriting.written (Nat.lt_succ_self _), ← List.getLast?_reverse,
    List.getLast?_eq_getElem?, List.length_reverse, h.length, Nat.add_sub_cancel]

/-- The byte at offset `i` from the read pointer is one of the path, or its NUL. -/
theorem Running.read (h : Running len t out r tail) {i : ℕ} (hi : i ≤ r.length) :
    t.buf[t.s + i]? = some (r.getD i 0) := by
  rw [h.rewriting.read, List.getD_eq_getElem?_getD]
  rcases Nat.lt_or_eq_of_le hi with hlt | rfl
  · rw [List.getElem?_append_left hlt, List.getElem?_eq_getElem hlt]
    rfl
  · simp

theorem ends_head (htext : 0 ∉ r) : ends (r.head?.getD 0) = atEnd r := by
  cases r with
  | nil => rfl
  | cons b r =>
    have hb : b ≠ 0 := fun he => htext (by simp [he])
    simp [ends, atEnd, startsWith, hb]

/-- The turn for a byte `b` with `r` after it. -/
def turnFor (out : Str) (b : UInt8) (r : Str) : Turn :=
  if startsWith slash out then
    if b = slash then .skip
    else if b = dot ∧ atEnd r then .skip
    else if b = dot ∧ startsWith dot r ∧ atEnd r.tail then .omitPrevious
    else .copy
  else .copy

theorem lookahead_eq (h : Running len t out (b :: r) tail) :
    lookahead t.buf t.s t.p = some (turnFor out b r) := by
  have h0 : t.buf[t.s]? = some b := h.read (Nat.zero_le _)
  have h1 : t.buf[t.s + 1]? = some (r.head?.getD 0) := by
    rw [h.read (by simp)]
    cases r <;> rfl
  have htext : 0 ∉ r := fun hr => h.text (List.mem_cons_of_mem _ hr)
  rw [lookahead, h.last, turnFor]
  cases out with
  | nil => exact absurd h.length (by simp)
  | cons a out =>
    by_cases ha : a = slash
    · by_cases hslash : b = slash
      · simp [ha, h0, hslash, startsWith]
      by_cases hdot : b = dot
      · have hne : dot ≠ slash := by decide
        have hends := ends_head htext
        cases r with
        | nil => simp [ha, h0, h1, hdot, startsWith, ends, atEnd]
        | cons c r =>
          have h2 : t.buf[t.s + 2]? = some (r.head?.getD 0) := by
            rw [h.read (by simp)]
            cases r <;> rfl
          have hends2 := ends_head fun hr => htext (List.mem_cons_of_mem _ hr)
          have hc : ends c = atEnd (c :: r) := hends
          cases hend : atEnd (c :: r) with
          | true => simp [ha, h0, h1, hdot, hne, hc, hend, startsWith]
          | false =>
            by_cases hcd : c = dot
            · subst hcd
              cases hr : atEnd r <;>
                simp [ha, h0, h1, h2, hdot, hne, hc, hend, hends2, hr, startsWith]
            · simp [ha, h0, h1, hdot, hne, hc, hend, hcd, startsWith]
      · simp [ha, h0, hslash, hdot, startsWith]
    · simp [ha, startsWith]

/-- The slash before is found, since the path starts with one. -/
theorem omitPrevious_eq {buf : Str} (hroot : out.getLast? = some slash)
    (hbuf : ∀ i < out.length, buf[i]? = out.reverse[i]?) :
    omitPrevious buf out.length = some ((out.dropWhile (· ≠ slash)).length - 1) ∧
      (out.dropWhile (· ≠ slash)).getLast? = some slash := by
  induction out with
  | nil => cases hroot
  | cons a out ih =>
    have ha : buf[out.length]? = some a := by
      rw [hbuf _ (by simp)]
      simp
    rw [List.length_cons, omitPrevious, ha]
    by_cases he : a = slash
    · rw [List.dropWhile_cons_of_neg (by simpa using he)]
      exact ⟨by simp [he], hroot⟩
    · rw [List.dropWhile_cons_of_pos (by simpa using he)]
      have hroot' : out.getLast? = some slash := by
        cases out with
        | nil => exact absurd (Option.some.inj hroot) he
        | cons c out => exact hroot
      have hbuf' : ∀ i < out.length, buf[i]? = out.reverse[i]? := by
        intro i hi
        rw [hbuf i (Nat.lt_succ_of_lt hi), List.reverse_cons,
          List.getElem?_append_left (by simpa using hi)]
      obtain ⟨hq, hlast⟩ := ih hroot' hbuf'
      exact ⟨by simp [he, hq], hlast⟩

theorem Running.skip {l : Str} (h : Running len t out (l ++ r) tail) :
    Running len { t with s := t.s + l.length } out r tail := by
  have hnul := h.nul
  rw [List.length_append] at hnul
  refine ⟨?_, h.root, fun hr => h.text (List.mem_append_right _ hr),
    (Nat.add_assoc _ _ _).trans hnul⟩
  exact Rewriting.advance (by simpa using h.rewriting)

theorem Running.copy (h : Running len t out (b :: r) tail) :
    Running len { buf := t.buf.set (t.p + 1) b, s := t.s + 1, p := t.p + 1 } (b :: out) r tail := by
  have hadv := h.rewriting.advance_one
  have hnul : t.s + (r.length + 1) = len := h.nul
  refine ⟨?_, ?_, fun hr => h.text (List.mem_cons_of_mem _ hr), by simp only; omega⟩
  · rw [List.reverse_cons]
    exact hadv.put (Nat.lt_succ_of_le h.rewriting.le) b
  · cases out with
    | nil => exact absurd h.root (by simp)
    | cons a out => exact h.root

theorem Running.omit (h : Running len t out r tail) (hlen : out.length ≠ 1) :
    ∃ p, omitPrevious t.buf t.p = some p ∧ Running len { t with p := p } (omitDir out) r tail := by
  have hp := h.length
  cases out with
  | nil => cases hp
  | cons a out =>
    have hroot : out.getLast? = some slash := by
      cases out with
      | nil => exact absurd rfl hlen
      | cons c out => exact h.root
    have hbuf : ∀ i < out.length, t.buf[i]? = out.reverse[i]? := by
      intro i hi
      rw [List.length_cons] at hp
      rw [h.rewriting.written (by omega), List.reverse_cons,
        List.getElem?_append_left (by simpa using hi)]
    obtain ⟨hq, hlast⟩ := omitPrevious_eq hroot hbuf
    rw [← Nat.succ.inj hp]
    refine ⟨_, hq, ?_, hlast, h.text, h.nul⟩
    have hsplit : (a :: out).reverse = (omitDir (a :: out)).reverse ++
        (a :: out.takeWhile (· ≠ slash)).reverse := by
      rw [← List.reverse_append, omitDir, List.tail_cons, List.cons_append,
        List.takeWhile_append_dropWhile]
    have hrw := h.rewriting
    rw [hsplit] at hrw
    have hback := hrw.retreat
    have hpos : 0 < (omitDir (a :: out)).length := by
      cases hd : omitDir (a :: out) with
      | nil =>
        rw [show out.dropWhile (· ≠ slash) = [] from hd] at hlast
        cases hlast
      | cons c l => exact Nat.succ_pos _
    rwa [List.length_reverse, ← Nat.sub_add_cancel hpos] at hback

theorem simplifyTurn_skip (h : lookahead t.buf t.s t.p = some .skip) :
    simplifyTurn t = some { t with s := t.s + 1 } := by
  simp [simplifyTurn, h]

theorem simplifyTurn_copy (h : Running len t out (b :: r) tail)
    (hturn : lookahead t.buf t.s t.p = some .copy) :
    simplifyTurn t = some { buf := t.buf.set (t.p + 1) b, s := t.s + 1, p := t.p + 1 } := by
  have hread : t.buf[t.s]? = some b := h.read (Nat.zero_le _)
  have hroom : t.p + 1 < t.buf.length := by
    have := h.rewriting.le
    rw [h.rewriting.length, List.length_append]
    simp only [List.length_cons]
    omega
  simp [simplifyTurn, hturn, hread, hroom]

theorem simplifyTurn_omit {p : ℕ} (h : lookahead t.buf t.s t.p = some .omitPrevious)
    (hp : (if t.p > 0 then omitPrevious t.buf t.p else some t.p) = some p) :
    simplifyTurn t = some { t with s := t.s + 2, p := p } := by
  simp only [simplifyTurn, h, hp]
  rfl

theorem startsWith_omitDir (hroot : (omitDir out).getLast? = some slash) :
    startsWith slash (omitDir out) = true := by
  have hhead := List.head?_dropWhile_not (fun b => decide (b ≠ slash)) out.tail
  rw [omitDir] at hroot ⊢
  cases hd : out.tail.dropWhile (fun b => decide (b ≠ slash)) with
  | nil =>
    rw [hd] at hroot
    cases hroot
  | cons c l =>
    rw [hd] at hhead
    simpa [startsWith] using hhead

/-- **A turn of the loop** does in the buffer what `canonicalize` does with lists. -/
theorem simplifyTurn_running (h : Running len t out (b :: r) tail) :
    ∃ t' out' r', simplifyTurn t = some t' ∧ Running len t' out' r' tail ∧ r'.length ≤ r.length ∧
      canonicalize false out (b :: r) = canonicalize false out' r' := by
  have hturn := lookahead_eq h
  have hskip : Running len { t with s := t.s + 1 } out r tail := Running.skip (l := [b]) h
  rw [turnFor] at hturn
  rw [canonicalize]
  by_cases hstart : startsWith slash out
  · rw [if_pos hstart] at hturn ⊢
    by_cases hslash : b = slash
    · rw [if_pos hslash] at hturn ⊢
      exact ⟨_, out, r, simplifyTurn_skip hturn, hskip, Nat.le_refl _, rfl⟩
    rw [if_neg hslash] at hturn ⊢
    by_cases hdot : b = dot ∧ atEnd r
    · rw [if_pos hdot] at hturn ⊢
      exact ⟨_, out, r, simplifyTurn_skip hturn, hskip, Nat.le_refl _, rfl⟩
    rw [if_neg hdot] at hturn ⊢
    by_cases hdots : b = dot ∧ startsWith dot r ∧ atEnd r.tail
    · rw [if_pos hdots] at hturn ⊢
      cases r with
      | nil => exact absurd hdots.2.1 (by decide)
      | cons c r =>
        obtain rfl : c = dot := by simpa [startsWith] using hdots.2.1
        have hend : atEnd r = true := hdots.2.2
        have hskip2 : Running len { t with s := t.s + 2 } out r tail :=
          Running.skip (l := [b, dot]) h
        -- the second dot is skipped in the same turn
        have hdotskip : ∀ {out' : Str}, startsWith slash out' = true →
            canonicalize false out' (dot :: r) = canonicalize false out' r := by
          intro out' hout'
          rw [canonicalize, if_pos hout', if_neg (by decide), if_pos ⟨rfl, hend⟩]
        by_cases hroot : out.length = 1
        · have hp : ¬ t.p > 0 := by
            have := h.length
            omega
          refine ⟨_, out, r, simplifyTurn_omit hturn (if_neg hp), hskip2, Nat.le_succ _, ?_⟩
          rw [if_pos hroot, if_neg (by decide), hdotskip hstart]
        · have hp : t.p > 0 := by
            have := h.length
            omega
          obtain ⟨p, homit, hrun⟩ := hskip2.omit hroot
          refine ⟨_, omitDir out, r, simplifyTurn_omit hturn ((if_pos hp).trans homit), hrun,
            Nat.le_succ _, ?_⟩
          rw [if_neg hroot, hdotskip (startsWith_omitDir hrun.root)]
    · rw [if_neg hdots] at hturn ⊢
      exact ⟨_, b :: out, r, simplifyTurn_copy h hturn, h.copy, Nat.le_refl _, rfl⟩
  · rw [if_neg hstart] at hturn ⊢
    exact ⟨_, b :: out, r, simplifyTurn_copy h hturn, h.copy, Nat.le_refl _, rfl⟩

/-! ### The loop -/

theorem simplifyLoop_succ {t' : Simplifier} {n : ℕ} (hturn : simplifyTurn t = some t')
    (hread : t'.buf[t'.s]? = some b) :
    simplifyLoop (n + 1) t = if t'.buf[t'.s]? = some 0 then some t' else simplifyLoop n t' := by
  simp only [simplifyLoop, hturn, Option.bind_eq_bind, Option.bind_some, hread]
  by_cases h0 : b = 0 <;> simp [h0]

/-- The loop, from the test at the end of a turn on. -/
theorem simplifyLoop_running {n : ℕ} (h : Running len t out r tail) (hn : r.length ≤ n) :
    ∃ t' out', (if t.buf[t.s]? = some 0 then some t else simplifyLoop n t) = some t' ∧
      canonicalize false out r = some out' ∧ Running len t' out' [] tail := by
  induction n generalizing t out r with
  | zero =>
    obtain rfl : r = [] := List.eq_nil_of_length_eq_zero (Nat.le_zero.mp hn)
    exact ⟨t, out, if_pos (h.read (Nat.le_refl _)), by rw [canonicalize], h⟩
  | succ n ih =>
    cases r with
    | nil => exact ⟨t, out, if_pos (h.read (Nat.le_refl _)), by rw [canonicalize], h⟩
    | cons b r =>
      have hb : ¬ t.buf[t.s]? = some 0 := by
        rw [show t.buf[t.s]? = some b from h.read (Nat.zero_le _)]
        exact fun he => h.text (by simp [Option.some.inj he])
      obtain ⟨t', out', r', hturn, hrun, hlen, hcan⟩ := simplifyTurn_running h
      obtain ⟨t'', out'', hloop, hcan', hrun'⟩ := ih hrun (by simp at hn; omega)
      refine ⟨t'', out'', ?_, hcan.trans hcan', hrun'⟩
      rw [if_neg hb, simplifyLoop_succ hturn (hrun.read (Nat.zero_le _)), hloop]

/-- The NUL after the part that is kept. -/
theorem Running.finish (h : Running len t out [] tail) :
    ∃ buf, (do
      let t ← some t
      let p := if t.p = 0 ∨ (← t.buf[t.p]?) ≠ slash then t.p + 1 else t.p
      if p < t.buf.length then return (t.buf.set p 0, p) else none) =
        some (buf, (kept out).length) ∧
      buf.take (kept out).length = kept out ∧ buf[(kept out).length]? = some 0 ∧
      buf.drop (len + 1) = tail := by
  have hp := h.length
  have hle := h.rewriting.le
  have hnul : t.s = len := h.nul
  have hbuf : t.buf.length = t.s + (tail.length + 1) := h.rewriting.length
  have htake := h.rewriting.take
  have hdrop : t.buf.drop t.s = 0 :: tail := h.rewriting.drop
  cases out with
  | nil => cases hp
  | cons a out =>
    have hlast : t.buf[t.p]? = some a := h.last
    obtain ⟨q, hq, hqle, hkept⟩ : ∃ q, (if t.p = 0 ∨ a ≠ slash then t.p + 1 else t.p) = q ∧
        q ≤ len ∧ t.buf.take q = kept (a :: out) := by
      by_cases hc : t.p = 0 ∨ a ≠ slash
      · refine ⟨t.p + 1, if_pos hc, by omega, ?_⟩
        rw [htake, kept, if_pos]
        rw [hp]
        simpa [startsWith] using hc
      · refine ⟨t.p, if_neg hc, by omega, ?_⟩
        rw [kept, if_neg (by rw [hp]; simpa [startsWith] using hc), List.tail_cons]
        have htake' := congrArg (List.take t.p) htake
        rw [List.take_take, Nat.min_eq_left (Nat.le_succ _), List.reverse_cons] at htake'
        rw [htake']
        exact List.take_left' (by rw [List.length_reverse]; exact Nat.succ.inj hp)
    have hlen : (kept (a :: out)).length = q := by
      rw [← hkept, List.length_take]
      omega
    have hroom : q < t.buf.length := by omega
    refine ⟨t.buf.set q 0, ?_, ?_, ?_, ?_⟩
    · simp [hlast, hq, hroom, hlen]
    · rw [hlen, List.take_set_of_le (Nat.le_refl _), hkept]
    · rw [hlen, List.getElem?_set_self hroom]
    · rw [List.drop_set_of_lt (by omega), ← hnul, ← List.drop_drop, hdrop]
      rfl

/-- **`bb_simplify_abs_path_inplace`** leaves the simplified path and its NUL, whatever comes after
the path in memory, and returns where the NUL is. -/
theorem bbSimplifyAbsPathInplace_eq {path : Str} (hslash : startsWith slash path = true)
    (htext : 0 ∉ path) (tail : Str) : ∃ buf,
      bbSimplifyAbsPathInplace (path ++ 0 :: tail) = some (buf, (simplified path).length) ∧
        buf.take (simplified path).length = simplified path ∧
        buf[(simplified path).length]? = some 0 ∧ buf.drop (path.length + 1) = tail := by
  cases path with
  | nil => cases hslash
  | cons b r =>
    obtain rfl : b = slash := by simpa [startsWith] using hslash
    obtain ⟨out, hout, hkept⟩ := kept_canonicalize (slash :: r)
    have hskip : canonicalize false [slash] (slash :: r) = canonicalize false [slash] r := rfl
    -- the first turn skips the initial slash, which is not written
    have hfirst : simplifyTurn ⟨slash :: r ++ 0 :: tail, 0, 0⟩ =
        some ⟨slash :: r ++ 0 :: tail, 1, 0⟩ := simplifyTurn_skip rfl
    have hrun : Running (r.length + 1) ⟨slash :: r ++ 0 :: tail, 1, 0⟩ [slash] r tail :=
      ⟨⟨[], rfl, rfl, rfl⟩, rfl, fun hr => htext (List.mem_cons_of_mem _ hr),
        Nat.add_comm _ _⟩
    obtain ⟨t', out', hloop, hcan, hrun'⟩ :=
      simplifyLoop_running (n := r.length + 1 + tail.length) hrun (by omega)
    obtain rfl : out = out' := Option.some.inj (hout.symm.trans (hskip.trans hcan))
    have hfuel : (slash :: r ++ 0 :: tail).length = r.length + 1 + tail.length + 1 := by
      simp only [List.length_append, List.length_cons]
      omega
    rw [bbSimplifyAbsPathInplace, hfuel, simplifyLoop_succ hfirst (hrun.read (Nat.zero_le _)),
      hloop, ← hkept]
    exact hrun'.finish

/-- **Simplifying a path in place.**  The buffer holds the simplified path, which is a slash and the
components that are left; nothing behind the path is written, the NUL is where the pointer that is
returned points to, and a second time nothing changes. -/
theorem bbSimplifyAbsPathInplace_simplifies {path : Str} (hslash : startsWith slash path = true)
    (htext : 0 ∉ path) (tail : Str) : ∃ buf,
      bbSimplifyAbsPathInplace (path ++ 0 :: tail) = some (buf, (simplified path).length) ∧
        buf.take (simplified path).length = simplified path ∧ 0 ∉ simplified path ∧
        buf[(simplified path).length]? = some 0 ∧ buf.drop (path.length + 1) = tail ∧
        bbSimplifyAbsPathInplace buf = some (buf, (simplified path).length) := by
  obtain ⟨buf, hrun, htake, hnul, htail⟩ := bbSimplifyAbsPathInplace_eq hslash htext tail
  have htext' : 0 ∉ simplified path := fun h =>
    (mem_simplified h).elim htext fun he => absurd he (by decide)
  refine ⟨buf, hrun, htake, htext', hnul, htail, ?_⟩
  -- a buffer is what comes before the NUL, the NUL and what comes after it
  have hsplit : ∀ b : Str, b.take (simplified path).length = simplified path →
      b[(simplified path).length]? = some 0 →
      b = simplified path ++ 0 :: b.drop ((simplified path).length + 1) := by
    intro b hb hb0
    obtain ⟨hlt, hget⟩ := List.getElem?_eq_some_iff.mp hb0
    conv_lhs => rw [← List.take_append_drop (simplified path).length b, hb,
      List.drop_eq_getElem_cons hlt, hget]
  obtain ⟨buf', hrun', htake', hnul', htail'⟩ := @bbSimplifyAbsPathInplace_eq (simplified path)
    rfl htext' (buf.drop ((simplified path).length + 1))
  rw [simplified_simplified, ← hsplit buf htake hnul] at hrun'
  rw [simplified_simplified] at htake' hnul'
  rwa [hsplit buf' htake' hnul', htail', ← hsplit buf htake hnul] at hrun'

theorem bbSimplifyAbsPathInplace_dots : ∃ buf,
    bbSimplifyAbsPathInplace (bytes "/a/.../../..//.x/" ++ 0 :: []) =
        some (buf, (simplified (bytes "/a/.../../..//.x/")).length) ∧
      buf.take (simplified (bytes "/a/.../../..//.x/")).length =
        simplified (bytes "/a/.../../..//.x/") ∧ 0 ∉ simplified (bytes "/a/.../../..//.x/") ∧
      buf[(simplified (bytes "/a/.../../..//.x/")).length]? = some 0 ∧
      buf.drop ((bytes "/a/.../../..//.x/").length + 1) = [] ∧
      bbSimplifyAbsPathInplace buf = some (buf, (simplified (bytes "/a/.../../..//.x/")).length) :=
  bbSimplifyAbsPathInplace_simplifies (by decide) (by decide) []

example : simplified (bytes "/a/.../../..//.x/") = bytes "/.x" := by decide

end Rustybox.Libbb
