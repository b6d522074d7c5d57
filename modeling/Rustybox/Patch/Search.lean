import Rustybox.Patch.Patch
import Mathlib.Data.List.Basic
import Mathlib.Data.List.Infix

/-!
# The search for a hunk

As long as the search goes one way it finds the first place where the lines of one side of the hunk
stand.  With `-N` it turns around where it notices a line that the hunk would add.
-/

namespace Rustybox.Patch

open Rust

variable {o : Options}

/-- The lines of one side of a hunk: what it changes, or what it changes it into. -/
def side (reverse : Bool) (lines : List HunkLine) : List Str :=
  (lines.filter fun l => l.sign ≠ skipped reverse).map HunkLine.text

theorem side_cons_skipped {reverse : Bool} {l : HunkLine} (h : l.sign = skipped reverse)
    (plist : List HunkLine) : side reverse (l :: plist) = side reverse plist := by
  rw [side, List.filter_cons, if_neg]
  · rfl
  · simpa using h

/-- The search goes the same way, and with `-N` it has noticed nothing. -/
structure SameWay (o : Options) (f f' : Flags) : Prop where
  reverse : f'.reverse = f.reverse
  dummyRevert : f'.dummyRevert = f.dummyRevert
  backwarn : o.forward = true → f'.backwarn = f.backwarn

theorem SameWay.trans {f f' f'' : Flags} (h : SameWay o f f') (h' : SameWay o f' f'') :
    SameWay o f f'' :=
  ⟨h'.reverse.trans h.reverse, h'.dummyRevert.trans h.dummyRevert,
    fun hforward => (h'.backwarn hforward).trans (h.backwarn hforward)⟩

/-- With `-N` the search turns around when it notices a line for the first time. -/
def MayTurn (o : Options) (f : Flags) : Prop := o.forward = true ∧ f.backwarn = 0

theorem SameWay.mayTurn {f f' : Flags} (h : SameWay o f f') (hturn : MayTurn o f') : MayTurn o f :=
  ⟨hturn.1, (h.backwarn hturn.1).symm.trans hturn.2⟩

/-- What is passed over is on the other side. -/
def Passed (reverse : Bool) (plist plist' : List HunkLine) : Prop :=
  plist' <:+ plist ∧ side reverse plist = side reverse plist' ∧
    ∀ l rest, plist' = l :: rest → l.sign ≠ skipped reverse

theorem Passed.cons {reverse : Bool} {l : HunkLine} (hl : l.sign = skipped reverse)
    {plist plist' : List HunkLine} (h : Passed reverse plist plist') :
    Passed reverse (l :: plist) plist' :=
  ⟨h.1.trans (List.suffix_cons l plist), (side_cons_skipped hl plist).trans h.2.1, h.2.2⟩

/-- The line `l` of the hunk, which is to be passed over, is the same as a line of the file. -/
structure Noticed (o : Options) (f : Flags) (plist : List HunkLine) (line : Str)
    (pre : List HunkLine) (l : HunkLine) (post : List HunkLine) : Prop where
  mayTurn : MayTurn o f
  split : plist = pre ++ l :: post
  sign : l.sign = skipped f.reverse
  same : line = l.text

theorem Noticed.cons {f : Flags} {l' : HunkLine} {plist : List HunkLine} {line : Str}
    {pre : List HunkLine} {l : HunkLine} {post : List HunkLine}
    (h : Noticed o f plist line pre l post) : Noticed o f (l' :: plist) line (l' :: pre) l post :=
  ⟨h.mayTurn, by rw [h.split, List.cons_append], h.sign, h.same⟩

/-- The hunk ends in lines that are not passed over, where it need not match the end of the file. -/
def Ends (reverse matcheof : Bool) (hunk : List HunkLine) : Prop :=
  matcheof = false → ∀ plist, plist <:+ hunk → plist ≠ [] → side reverse plist ≠ []

/-- How a comparison of the rest of a hunk with lines of the buffer ends, when it goes one way.  A
mismatch is one whatever comes after these lines. -/
def Compared (o : Options) (matcheof : Bool) (f : Flags) (plist : List HunkLine)
    (lines : List Str) : Outcome → Prop
  | .more f' plist' => SameWay o f f' ∧ plist' <:+ plist ∧
      side f.reverse plist = lines ++ side f.reverse plist' ∧ (matcheof = false → plist' ≠ [])
  | .matched f' => SameWay o f f' ∧ matcheof = false ∧
      ∃ left, lines = side f.reverse plist ++ left
  | .mismatch f' => SameWay o f f' ∧ ∀ more after, (matcheof = true → after = []) →
      side f.reverse plist ++ after ≠ lines ++ more

theorem Compared.cons {matcheof : Bool} {f f' : Flags} {plist plist' : List HunkLine}
    (hway : SameWay o f f') (hsuffix : plist' <:+ plist) {line : Str} {lines : List Str}
    (hside : side f.reverse plist = line :: side f.reverse plist') {outcome : Outcome}
    (h : Compared o matcheof f' plist' lines outcome) :
    Compared o matcheof f plist (line :: lines) outcome := by
  cases outcome with
  | more f'' plist'' =>
    obtain ⟨hway', hsuffix', hside', hsome⟩ := h
    rw [hway.reverse] at hside'
    refine ⟨hway.trans hway', hsuffix'.trans hsuffix, ?_, hsome⟩
    rw [hside, hside', List.cons_append]
  | matched f'' =>
    obtain ⟨hway', hm, left, hleft⟩ := h
    rw [hway.reverse] at hleft
    refine ⟨hway.trans hway', hm, left, ?_⟩
    rw [hside, hleft, List.cons_append]
  | mismatch f'' =>
    obtain ⟨hway', hnot⟩ := h
    rw [hway.reverse] at hnot
    refine ⟨hway.trans hway', ?_⟩
    intro more after hafter hsame
    rw [hside, List.cons_append, List.cons_append] at hsame
    exact hnot more after hafter (List.cons.inj hsame).2

/-- A place for a pattern in lines: the ones before it and the ones after it. -/
structure Place (matcheof : Bool) (pat input before after : List Str) : Prop where
  all : input = before ++ pat ++ after
  eof : matcheof = true → after = []

/-- No place comes earlier. -/
def NoneBefore (matcheof : Bool) (pat input : List Str) (n : ℕ) : Prop :=
  ∀ before after, Place matcheof pat input before after → n ≤ before.length

/-- While the search stands after the lines `before`, it comes to a line that the hunk would add: the
one after the lines of `pre`. -/
structure Event (reverse matcheof : Bool) (hunk : List HunkLine) (input before : List Str)
    (pre : List HunkLine) (l : HunkLine) (post : List HunkLine) (more : List Str) : Prop where
  split : hunk = pre ++ l :: post
  sign : l.sign = skipped reverse
  all : input = before ++ (side reverse pre ++ l.text :: more)
  reached : NoneBefore matcheof (side reverse hunk) input before.length

end Rustybox.Patch
