import Rustybox.Bc.Lex
import Rustybox.Bc.Printed

/-!
# Lexing what was printed

What the lexer has before it is the rest of its buffer and of its file.  As lines come whole
into the buffer, a character that is not the last of its line has the next one behind it there,
and a line break of a number is followed by another call of `peek_inbuf`.
-/

namespace Rustybox.Bc

/-! ### The input -/

/-- Characters that `xc_read_line` takes as they are. -/
def Plain (text : List Char) : Prop := ∀ c ∈ text, badInputByte c = false ∧ c ≠ '\x00'

/-- What has not been read of the file. -/
def Lexer.file (s : Lexer) : List Char := s.inputFp.getD []

/-- The lexer has `text` before it, of which whole lines are in the buffer. -/
structure Lexer.Holds (s : Lexer) (text : List Char) : Prop where
  text_eq : s.inbuf ++ s.file = text
  plain : Plain text
  whole : s.file = [] ∨ s.inbuf = [] ∨ ∃ l, s.inbuf = l ++ ['\n']

/-- The lexer is within a line. -/
structure Lexer.Within (s : Lexer) (text : List Char) : Prop extends Lexer.Holds s text where
  filled : s.inbuf = [] → text = []

theorem getLine_spec {f : List Char} (h : Plain f) :
    (getLine f).1 ++ (getLine f).2 = f ∧ ((getLine f).1 = [] → f = []) ∧
      ((getLine f).2 = [] ∨ ∃ l, (getLine f).1 = l ++ ['\n']) := by
  induction f with
  | nil => exact ⟨rfl, fun _ => rfl, Or.inl rfl⟩
  | cons c f ih =>
    have hc := (h c List.mem_cons_self).2
    rw [getLine, if_neg hc]
    split
    · next hn =>
      rw [hn]
      exact ⟨rfl, fun hnil => absurd hnil (List.cons_ne_nil _ _), Or.inr ⟨[], rfl⟩⟩
    · obtain ⟨h1, -, h3⟩ := ih (fun c hmem => h c (List.mem_cons_of_mem _ hmem))
      refine ⟨congrArg (c :: ·) h1, fun hnil => absurd hnil (List.cons_ne_nil _ _), ?_⟩
      rcases h3 with h3 | ⟨l, hl⟩
      · exact Or.inl h3
      · exact Or.inr ⟨c :: l, congrArg (c :: ·) hl⟩

theorem readLine_plain {f : List Char} (h : Plain f) (named : Bool) :
    readLine named f = .ok (getLine f) := by
  have hgood : (getLine f).1.any badInputByte = false := by
    rw [List.any_eq_false]
    intro c hc
    have hmem : c ∈ f := by
      rw [← (getLine_spec h).1]
      exact List.mem_append_left _ hc
    rw [(h c hmem).1]
    decide
  rw [readLine, readLineLoop, hgood, if_neg (by decide)]

section

variable {s : Lexer} {text : List Char}

/-- **`peek_inbuf` gives the next character**, and the buffer is filled. -/
theorem Lexer.Holds.peek (h : s.Holds text) :
    ∃ t, peekInbuf s = .ok (text.head?, t) ∧ t.Within text := by
  obtain ⟨inbuf, fp, named, line⟩ := s
  cases inbuf with
  | cons c inbuf =>
    refine ⟨_, ?_, h, fun hnil => absurd hnil (List.cons_ne_nil _ _)⟩
    rw [← h.text_eq]
    rfl
  | nil =>
    cases fp with
    | none =>
      obtain rfl : text = [] := h.text_eq.symm
      exact ⟨_, rfl, h, fun _ => rfl⟩
    | some f =>
      obtain rfl : f = text := h.text_eq
      obtain ⟨h1, h2, h3⟩ := getLine_spec h.plain
      have hfile : (if (getLine f).1 = [] then none else some (getLine f).2).getD [] =
          (getLine f).2 := by
        split
        · next hline =>
          rw [h2 hline]
          rfl
        · rfl
      refine ⟨⟨(getLine f).1, if (getLine f).1 = [] then none else some (getLine f).2, named, line⟩,
        ?_, ⟨?_, h.plain, ?_⟩, fun hnil => h2 hnil⟩
      · have hhead : (getLine f).1.head? = f.head? := by
          cases hline : (getLine f).1 with
          | nil => rw [h2 hline]
          | cons c l =>
            rw [← h1, hline]
            rfl
        simp only [peekInbuf, readLine_plain h.plain, ← hhead]
        rfl
      · rw [Lexer.file, hfile]
        exact h1
      · rw [Lexer.file, hfile]
        rcases h3 with h3 | h3
        · exact Or.inl h3
        · exact Or.inr (Or.inr h3)

theorem Lexer.Within.head (h : s.Within text) : s.inbuf.head? = text.head? := by
  cases hbuf : s.inbuf with
  | nil => rw [h.filled hbuf]
  | cons c l =>
    rw [← h.text_eq, hbuf]
    rfl

theorem Plain.tail {c : Char} (h : Plain (c :: text)) : Plain text :=
  fun d hd => h d (List.mem_cons_of_mem _ hd)

theorem Lexer.Within.drop {c : Char} (h : s.Within (c :: text)) :
    Lexer.Holds { s with inbuf := s.inbuf.drop 1 } text := by
  obtain ⟨inbuf, fp, named, line⟩ := s
  cases inbuf with
  | nil => exact absurd (h.filled rfl) (List.cons_ne_nil _ _)
  | cons d inbuf =>
    refine ⟨(List.cons.inj h.text_eq).2, h.plain.tail, ?_⟩
    rcases h.whole with hw | hw | ⟨l, hl⟩
    · exact Or.inl hw
    · exact absurd hw (List.cons_ne_nil _ _)
    · cases l with
      | nil => exact Or.inr (Or.inl (List.cons.inj hl).2)
      | cons e l => exact Or.inr (Or.inr ⟨l, (List.cons.inj hl).2⟩)

theorem Lexer.Within.next {c : Char} (h : s.Within (c :: text)) (hc : c ≠ '\n') :
    Lexer.Within { s with inbuf := s.inbuf.drop 1 } text := by
  refine ⟨h.drop, fun hnil => ?_⟩
  have htext := h.drop.text_eq
  rw [show s.inbuf.drop 1 = [] from hnil, List.nil_append] at htext
  rcases h.whole with hw | hw | ⟨l, hl⟩
  · exact htext.symm.trans hw
  · exact absurd (h.filled hw) (List.cons_ne_nil _ _)
  · have hnil' : s.inbuf.drop 1 = [] := hnil
    cases l with
    | nil =>
      have hhead := h.head
      rw [hl] at hhead
      exact absurd (Option.some.inj hhead).symm hc
    | cons e l =>
      rw [hl] at hnil'
      exact absurd hnil' (List.append_ne_nil_of_right_ne_nil _ (List.cons_ne_nil _ _))

/-! ### Numbers -/

theorem skipBreaks_break {rest : List Char} (h : s.Within ('\\' :: '\n' :: rest)) (fuel : ℕ) :
    ∃ t, t.Within rest ∧
      skipBreaks (fuel + 1) (some '\\') s = skipBreaks fuel rest.head? t := by
  have hnext := (h.next (by decide)).head
  have hone : s.inbuf[1]? = some '\n' := by
    rw [← List.head?_drop]
    exact hnext
  have hdrop := (h.next (by decide)).drop
  obtain ⟨t, ht, hwithin⟩ := Lexer.Holds.peek (s := { s with
    inbuf := (s.inbuf.drop 1).drop 1, line := s.line + 1 })
    ⟨hdrop.text_eq, hdrop.plain, hdrop.whole⟩
  rw [List.drop_drop] at ht
  refine ⟨t, hwithin, ?_⟩
  rw [skipBreaks, if_pos ⟨rfl, hone⟩]
  simp only [bind, Except.bind, ht]

theorem skipBreaks_other {c : Option Char} (hc : c ≠ some '\\') (fuel : ℕ) (s : Lexer) :
    skipBreaks (fuel + 1) c s = .ok (c, s) := by
  rw [skipBreaks, if_neg (fun h => hc h.1)]

end

/-- What ends a number. -/
def Stops (tail : List Char) : Prop := tail = [] ∨ ∃ t, tail = '\n' :: t

/-- As `Broken`, without line breaks at the start. -/
inductive Unbroken : List Char → List Char → Prop
  | nil : Unbroken [] []
  | cons (c : Char) {text o : List Char} : Broken text o → Unbroken (c :: text) (c :: o)

theorem skipBreaks_broken {text o tail : List Char} (hb : Broken text o) (hstop : Stops tail)
    (hslash : text.head? ≠ some '\\') {s : Lexer} (h : s.Within (o ++ tail)) {fuel : ℕ}
    (hfuel : o.length < fuel) :
    ∃ o' t, Unbroken text o' ∧ o'.length ≤ o.length ∧ t.Within (o' ++ tail) ∧
      skipBreaks fuel s.inbuf.head? s = .ok ((o' ++ tail).head?, t) := by
  rw [h.head]
  induction hb generalizing s fuel with
  | nil =>
    obtain ⟨fuel, rfl⟩ : ∃ f, fuel = f + 1 := ⟨fuel - 1, by omega⟩
    refine ⟨[], s, .nil, Nat.le_refl _, h, skipBreaks_other ?_ fuel s⟩
    rcases hstop with rfl | ⟨t, rfl⟩
    · exact nofun
    · exact nofun
  | @char c text o hbroken _ =>
    obtain ⟨fuel, rfl⟩ : ∃ f, fuel = f + 1 := ⟨fuel - 1, by omega⟩
    exact ⟨c :: o, s, .cons c hbroken, Nat.le_refl _, h, skipBreaks_other hslash fuel s⟩
  | @brk text o hbroken ih =>
    obtain ⟨fuel, rfl⟩ : ∃ f, fuel = f + 1 := ⟨fuel - 1, by omega⟩
    rw [List.length_cons, List.length_cons] at hfuel
    have hfuel' : o.length < fuel := by omega
    obtain ⟨t, ht, hrun⟩ := skipBreaks_break h fuel
    obtain ⟨o', t', h1, h2, h3, h4⟩ := ih hslash ht hfuel'
    refine ⟨o', t', h1, ?_, h3, hrun.trans h4⟩
    rw [List.length_cons, List.length_cons]
    omega

theorem digit_iff (c : Char) : (isDigit c || isUpper c) = true ↔
    (48 ≤ c.toNat ∧ c.toNat ≤ 57) ∨ (65 ≤ c.toNat ∧ c.toNat ≤ 90) := by
  have hlast : lastValidCh.toNat = 90 := rfl
  simp only [isDigit, isUpper, hlast, Bool.or_eq_true, Bool.and_eq_true, decide_eq_true_eq]

theorem strValid_cons {radix : Bool} {c : Char} {text : List Char}
    (h : strValid radix (c :: text) = true) :
    (c = '.' ∧ radix = false ∧ strValid true text = true) ∨
      ((isDigit c || isUpper c) = true ∧ c ≠ '.' ∧ strValid radix text = true) := by
  rw [strValid] at h
  split at h
  · next hc =>
    rw [Bool.and_eq_true, Bool.not_eq_true'] at h
    exact Or.inl ⟨hc, h⟩
  · next hc =>
    split at h
    · cases h
    · next hrange =>
      refine Or.inr ⟨(digit_iff c).mpr ?_, hc, h⟩
      simp only [Bool.and_eq_true, Bool.or_eq_true, decide_eq_true_eq, not_and_or, not_or,
        Nat.not_lt] at hrange
      exact hrange

theorem digit_ne {c : Char} (h : (isDigit c || isUpper c) = true) :
    c ≠ '\\' ∧ c ≠ '\n' ∧ c ≠ '.' := by
  refine ⟨?_, ?_, ?_⟩
  · rintro rfl
    exact absurd h (by decide)
  · rintro rfl
    exact absurd h (by decide)
  · rintro rfl
    exact absurd h (by decide)

theorem strValid_head {radix : Bool} {text : List Char} (h : strValid radix text = true) :
    text.head? ≠ some '\\' := by
  cases text with
  | nil => exact nofun
  | cons c text =>
    rintro ⟨⟩
    rcases strValid_cons h with ⟨hc, -⟩ | ⟨hc, -⟩
    · exact absurd hc (by decide)
    · exact (digit_ne hc).1 rfl

/-- **The loop over a number collects its characters.** -/
theorem lexNumberLoop_spec {text o tail : List Char} (hb : Broken text o) (hstop : Stops tail)
    {pt : Bool} (hvalid : strValid pt text = true) {s : Lexer} (h : s.Within (o ++ tail))
    {fuel n : ℕ} (hfuel : o.length < fuel) (hn : text.length < n) (buf : List Char) :
    ∃ t, lexNumberLoop fuel n pt buf s = .ok (buf ++ text, t) := by
  induction text generalizing o pt s n buf with
  | nil =>
    obtain ⟨n, rfl⟩ : ∃ m, n = m + 1 := ⟨n - 1, by omega⟩
    obtain ⟨o', t, h1, -, -, h4⟩ := skipBreaks_broken hb hstop nofun h hfuel
    cases h1
    refine ⟨t, ?_⟩
    rw [lexNumberLoop]
    simp only [bind, Except.bind, h4, List.append_nil]
    rcases hstop with rfl | ⟨tl, rfl⟩
    · rfl
    · rfl
  | cons c text ih =>
    obtain ⟨n, rfl⟩ : ∃ m, n = m + 1 := ⟨n - 1, by omega⟩
    obtain ⟨o', t, h1, h2, h3, h4⟩ := skipBreaks_broken hb hstop (strValid_head hvalid) h hfuel
    cases h1 with
    | @cons _ _ o₁ hbroken =>
      rw [List.length_cons] at h2 hn
      have hn' : text.length < n := by omega
      rw [lexNumberLoop]
      simp only [bind, Except.bind, h4, List.cons_append, List.head?_cons]
      rcases strValid_cons hvalid with ⟨rfl, rfl, hrest⟩ | ⟨hc, -, hrest⟩
      · have hwithin := h3.next (by decide)
        obtain ⟨t', ht'⟩ := ih hbroken hrest hwithin (by omega) hn' (buf ++ ['.'])
        refine ⟨t', ?_⟩
        rw [List.append_assoc] at ht'
        exact ht'
      · have hwithin := h3.next (digit_ne hc).2.1
        obtain ⟨t', ht'⟩ := ih hbroken hrest hwithin (by omega) hn' (buf ++ [c])
        refine ⟨t', ?_⟩
        rw [if_pos hc]
        rw [List.append_assoc] at ht'
        exact ht'

theorem lexNumber_spec {c : Char} {text o tail : List Char} (hb : Broken text o)
    (hstop : Stops tail) (hvalid : strValid (c = '.') text = true)
    (hlast : (c :: text).getLast? ≠ some '.') {s : Lexer} (h : s.Within (o ++ tail)) (fuel : ℕ)
    (hfuel : o.length < fuel) (hfuel' : text.length < fuel) :
    ∃ t, lexNumber fuel c s = .ok (.number (c :: text), t) := by
  obtain ⟨t, ht⟩ := lexNumberLoop_spec hb hstop hvalid h hfuel hfuel' [c]
  refine ⟨t, ?_⟩
  rw [List.singleton_append] at ht
  rw [lexNumber]
  simp only [bind, Except.bind, ht, if_neg hlast]
  rfl

/-! ### Tokens -/

theorem lexToken_digit {c : Char} (hc : (isDigit c || isUpper c) = true) {s : Lexer}
    {text : List Char} (h : s.Within (c :: text)) (fuel : ℕ) :
    ∃ t, t.Within text ∧ lexToken fuel s = lexNumber fuel c t := by
  obtain ⟨t, ht, hwithin⟩ := h.toHolds.peek
  obtain ⟨h1, h2, h3⟩ := digit_ne hc
  have hblank : isBlank c = false := by
    have hspace : c ≠ ' ' := by
      rintro rfl
      exact absurd hc (by decide)
    rw [digit_iff] at hc
    simp only [isBlank, Bool.or_eq_false_iff, decide_eq_false_iff_not, Bool.and_eq_false_iff]
    exact ⟨hspace, Or.inl (Or.inr (by omega))⟩
  refine ⟨_, hwithin.next h2, ?_⟩
  rw [lexToken, eatInbuf, ht]
  simp only [bind, Except.bind, pure, Except.pure, List.head?_cons, if_neg h2, hblank,
    Bool.false_eq_true, if_false, if_neg h3, hc, if_true]

theorem lexToken_point {d : Char} (hd : isDigit d = true) {s : Lexer} {text : List Char}
    (h : s.Within ('.' :: d :: text)) (fuel : ℕ) :
    ∃ t, t.Within (d :: text) ∧ lexToken fuel s = lexNumber fuel '.' t := by
  obtain ⟨t, ht, hwithin⟩ := h.toHolds.peek
  have hnext := hwithin.next (by decide)
  have hhead := hnext.head
  refine ⟨_, hnext, ?_⟩
  dsimp only at hhead
  rw [lexToken, eatInbuf, ht]
  simp only [bind, Except.bind, pure, Except.pure, List.head?_cons, hhead, Option.any_some, hd]
  rfl

theorem lexToken_break {s : Lexer} {text : List Char} (h : s.Within ('\\' :: '\n' :: text))
    (fuel : ℕ) : ∃ t, t.Holds text ∧ lexToken fuel s = .ok (.whitespace, t) := by
  obtain ⟨t, ht, hwithin⟩ := h.toHolds.peek
  have hnext := hwithin.next (by decide)
  have hhead := hnext.head
  refine ⟨_, hnext.drop, ?_⟩
  dsimp only at hhead
  rw [lexToken, eatInbuf, ht]
  simp only [bind, Except.bind, pure, Except.pure, List.head?_cons, hhead]
  rfl

/-- **What was printed is lexed as one number.** -/
theorem lexNext_started {text o tail : List Char} (hs : Started text o) (hstop : Stops tail)
    (hvalid : strValid false text = true) (hlast : text.getLast? ≠ some '.') {s : Lexer}
    (h : s.Holds (o ++ tail)) {fuel : ℕ} (hfuel : o.length < fuel) (hfuel' : text.length < fuel) :
    ∃ t, lexNext fuel s = .ok (.number text, t) := by
  have hloop : ∀ n, o.length < n → ∃ t, lexNextLoop fuel n s = .ok (.number text, t) := by
    intro n hn
    induction hs generalizing s n with
    | @brk text o _ ih =>
      rw [List.length_cons, List.length_cons] at hfuel hn
      obtain ⟨n, rfl⟩ : ∃ m, n = m + 1 := ⟨n - 1, by omega⟩
      have hn' : o.length < n := by omega
      obtain ⟨t, ht, hwithin⟩ := h.peek
      obtain ⟨t', hholds, htok⟩ := lexToken_break hwithin fuel
      obtain ⟨t'', hrun⟩ := ih hvalid hlast hholds (by omega) hfuel' n hn'
      refine ⟨t'', ?_⟩
      rw [lexNextLoop, ht]
      simp only [bind, Except.bind, htok]
      exact hrun
    | @digit c text o hc hbroken =>
      obtain ⟨n, rfl⟩ : ∃ m, n = m + 1 := ⟨n - 1, by omega⟩
      obtain ⟨t, ht, hwithin⟩ := h.peek
      obtain ⟨hdig, -, hrest⟩ := (strValid_cons hvalid).resolve_left fun hp => hc hp.1
      obtain ⟨t', ht', htok⟩ := lexToken_digit hdig hwithin fuel
      rw [← decide_eq_false hc] at hrest
      rw [List.length_cons] at hfuel hfuel'
      obtain ⟨t'', hnum⟩ := lexNumber_spec hbroken hstop hrest hlast ht' fuel (by omega)
        (by omega)
      refine ⟨t'', ?_⟩
      rw [lexNextLoop, ht]
      simp only [bind, Except.bind, htok, hnum]
      rfl
    | @point d text o hd hbroken =>
      obtain ⟨n, rfl⟩ : ∃ m, n = m + 1 := ⟨n - 1, by omega⟩
      obtain ⟨t, ht, hwithin⟩ := h.peek
      have hdig : isDigit (hexdigit d) = true := by
        have : ∀ d : Fin 10, isDigit (hexdigit d) = true := by decide
        exact this ⟨d, hd⟩
      obtain ⟨-, -, hrest⟩ := (strValid_cons hvalid).resolve_right fun hp => hp.2.1 rfl
      obtain ⟨t', ht', htok⟩ := lexToken_point hdig hwithin fuel
      obtain ⟨t'', hnum⟩ := lexNumber_spec (hbroken.char _) hstop (c := '.') hrest hlast ht'
        fuel (by rw [List.length_cons] at hfuel; omega)
        (by rw [List.length_cons] at hfuel'; omega)
      refine ⟨t'', ?_⟩
      rw [lexNextLoop, ht]
      simp only [bind, Except.bind, htok, hnum]
      rfl
  exact hloop fuel hfuel

end Rustybox.Bc
