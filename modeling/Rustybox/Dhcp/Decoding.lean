import Mathlib.Data.Prod.Lex
import Rustybox.Rust.CStr

/-!
# Domain names of an option: decoding

`dname_dec` expands a list of compressed domain names.  It goes over the list twice: first to see
how long the text is, and then to write it into a buffer of that length.

A pass reads and writes by position, and has no result where it leaves the list or the buffer.
`turn_write` says that a turn of the second pass does what the turn of the first one does, so both
of them come to the same length.
-/

namespace Rustybox.Dhcp

open Rustybox.Rust

/-! ### The code -/

/-- The bytes at a place, if all of them are there. -/
def readAt (bs : List UInt8) (off n : ℕ) : Option (List UInt8) :=
  if off + n ≤ bs.length then some ((bs.drop off).take n) else none

/-- Bytes written at a place, if there is room for all of them. -/
def writeAt (bs : List UInt8) (off : ℕ) (data : List UInt8) : Option (List UInt8) :=
  if off + data.length ≤ bs.length then
    some (bs.take off ++ data ++ bs.drop (off + data.length))
  else none

/-- The variables of `dname_dec`: `dst` is NULL in the first pass. -/
structure Decoding where
  crtpos : ℕ
  retpos : ℕ
  depth : ℕ
  len : ℕ
  dst : Option (List UInt8)

/-- A turn of the loop: it goes on, or the result is NULL, or it leaves the list or the buffer. -/
inductive DecodeTurn
  | next (s : Decoding)
  | null
  | outside

def space : UInt8 := 32

/-- `\3com ---> "com."` -/
def copyLabel (cstr : List UInt8) (s : Decoding) (c : UInt8) : Option (Option (List UInt8)) :=
  match s.dst with
  | none => some none
  | some dst => do
    let label ← readAt cstr (s.crtpos + 1) c.toNat
    let dst ← writeAt dst s.len (label ++ [dot])
    return some dst

/-- At the end of a name its last dot becomes a space. -/
def endName (s : Decoding) : Option (Option (List UInt8)) :=
  match s.dst with
  | none => some none
  | some dst =>
    if s.len = 0 then some (some dst)
    else do
      let dst ← writeAt dst (s.len - 1) [space]
      return some dst

/-- What the two bytes of a pointer point to. -/
def pointee (c c' : UInt8) : ℕ := (c &&& 0x3f).toNat <<< 8 ||| c'.toNat

/-- The variables after a pointer to `off`. -/
def Decoding.jump (s : Decoding) (off : ℕ) : Decoding :=
  { s with
    -- toplevel? save return spot
    retpos := if s.retpos = 0 then s.crtpos + 2 else s.retpos
    depth := s.depth + 1
    crtpos := off }

/-- The variables after a label of `n` characters. -/
def Decoding.pass (s : Decoding) (n : ℕ) (dst : Option (List UInt8)) : Decoding :=
  { s with dst, len := s.len + (n + 1), crtpos := s.crtpos + (n + 1) }

/-- The variables after the end of a name. -/
def Decoding.back (s : Decoding) (dst : Option (List UInt8)) : Decoding :=
  if s.retpos = 0 then { s with dst, crtpos := s.crtpos + 1 }
  -- return to toplevel saved spot
  else { s with dst, crtpos := s.retpos, depth := 0, retpos := 0 }

def atPointer (cstr : List UInt8) (s : Decoding) (c : UInt8) : DecodeTurn :=
  if cstr.length < s.crtpos + 2 then .null
  else
    match cstr[s.crtpos + 1]? with
    | none => .outside
    | some c' => .next (s.jump (pointee c c'))

def atLabel (cstr : List UInt8) (s : Decoding) (c : UInt8) : DecodeTurn :=
  if cstr.length < s.crtpos + c.toNat + 1 then .null
  else
    match copyLabel cstr s c with
    | none => .outside
    | some dst => .next (s.pass c.toNat dst)

/-- The turn at the NUL of a name. -/
def atNul (s : Decoding) : DecodeTurn :=
  match endName s with
  | none => .outside
  | some dst => .next (s.back dst)

def atByte (cstr : List UInt8) (s : Decoding) (c : UInt8) : DecodeTurn :=
  if c &&& 0xc0 = 0xc0 then atPointer cstr s c
  else if c ≠ 0 then atLabel cstr s c
  else atNul s

/-- One turn of the loop of `dname_dec`. -/
def decodeTurn (cstr : List UInt8) (s : Decoding) : DecodeTurn :=
  match cstr[s.crtpos]? with
  | none => .outside
  | some c =>
    match atByte cstr s c with
    | .next s' => if 6 < s'.depth ∨ 1025 * 6 < s'.len then .null else .next s'
    | t => t

/-! ### What a turn does -/

/-- What a turn that goes on does: it takes a pointer, copies a label, or ends a name. -/
inductive Moves (cstr : List UInt8) (s : Decoding) : Decoding → Prop
  | pointer {c c' : UInt8} (hc : cstr[s.crtpos]? = some c) (hmark : c &&& 0xc0 = 0xc0)
      (hc' : cstr[s.crtpos + 1]? = some c') :
      Moves cstr s (s.jump (pointee c c'))
  | label {c : UInt8} {dst : Option (List UInt8)} (hc : cstr[s.crtpos]? = some c)
      (hmark : c &&& 0xc0 ≠ 0xc0) (hne : c ≠ 0) (hle : s.crtpos + c.toNat + 1 ≤ cstr.length)
      (hdst : copyLabel cstr s c = some dst) : Moves cstr s (s.pass c.toNat dst)
  | nul {dst : Option (List UInt8)} (hc : cstr[s.crtpos]? = some 0)
      (hdst : endName s = some dst) : Moves cstr s (s.back dst)

theorem lt_of_getElem? {bs : List UInt8} {i : ℕ} {b : UInt8} (h : bs[i]? = some b) :
    i < bs.length := by
  by_contra hi
  rw [List.getElem?_eq_none (Nat.le_of_not_lt hi)] at h
  cases h

theorem moves_of_atByte {cstr : List UInt8} {s s' : Decoding} {c : UInt8}
    (hc : cstr[s.crtpos]? = some c) (h : atByte cstr s c = .next s') : Moves cstr s s' := by
  rw [atByte] at h
  split at h
  · rename_i hmark
    rw [atPointer] at h
    split at h
    · cases h
    · split at h
      · cases h
      · rename_i hc'
        cases h
        exact .pointer hc hmark hc'
  · rename_i hmark
    split at h
    · rename_i hne
      rw [atLabel] at h
      split at h
      · cases h
      · split at h
        · cases h
        · rename_i hle _ _ hdst
          cases h
          exact .label hc hmark hne (Nat.le_of_not_lt hle) hdst
    · rename_i hzero
      rw [atNul] at h
      split at h
      · cases h
      · rename_i hdst
        cases h
        rw [not_not.mp hzero] at hc
        exact .nul hc hdst

theorem Moves.atByte {cstr : List UInt8} {s s' : Decoding} (h : Moves cstr s s') :
    ∃ c, cstr[s.crtpos]? = some c ∧ Dhcp.atByte cstr s c = .next s' := by
  cases h with
  | @pointer c c' hc hmark hc' =>
    have hlt := lt_of_getElem? hc'
    refine ⟨c, hc, ?_⟩
    rw [Dhcp.atByte, if_pos hmark, atPointer, if_neg (by omega), hc']
  | @label c dst hc hmark hne hle hdst =>
    refine ⟨c, hc, ?_⟩
    rw [Dhcp.atByte, if_neg hmark, if_pos hne, atLabel, if_neg (by omega), hdst]
  | nul hc hdst =>
    refine ⟨0, hc, ?_⟩
    rw [Dhcp.atByte, if_neg (by decide), if_neg (not_not.mpr rfl), atNul, hdst]

/-- **A turn goes on** exactly where it can move, if it does not exceed the limits. -/
theorem decodeTurn_eq_next {cstr : List UInt8} {s s' : Decoding} :
    decodeTurn cstr s = .next s' ↔ Moves cstr s s' ∧ s'.depth ≤ 6 ∧ s'.len ≤ 1025 * 6 := by
  constructor
  · intro h
    rw [decodeTurn] at h
    split at h
    · cases h
    · rename_i c hc
      split at h
      · rename_i s₁ hbyte
        split at h
        · cases h
        · cases h
          exact ⟨moves_of_atByte hc hbyte, by omega, by omega⟩
      · rename_i hno
        exact absurd h (hno s')
  · rintro ⟨hmoves, hdepth, hlen⟩
    obtain ⟨c, hc, hbyte⟩ := hmoves.atByte
    rw [decodeTurn, hc]
    dsimp only
    rw [hbyte]
    dsimp only
    rw [if_neg (by omega)]

/-! ### The passes end -/

/-- How far a pass has got in the list itself, and whether it has left it for what a pointer
points to. -/
def Decoding.ahead (cstr : List UInt8) (s : Decoding) : ℕ :=
  if s.retpos = 0 then 2 * (cstr.length - s.crtpos) else 2 * (cstr.length - s.retpos) + 1

/-- A turn gets ahead in the list, or uses up a pointer, or gets ahead where a pointer points to. -/
theorem decodeTurn_decreases {cstr : List UInt8} {s s' : Decoding}
    (h : decodeTurn cstr s = .next s') :
    s'.ahead cstr < s.ahead cstr ∨
      s'.ahead cstr = s.ahead cstr ∧ (7 - s'.depth < 7 - s.depth ∨
        7 - s'.depth = 7 - s.depth ∧ cstr.length - s'.crtpos < cstr.length - s.crtpos) := by
  obtain ⟨hmoves, hdepth, -⟩ := decodeTurn_eq_next.mp h
  cases hmoves with
  | pointer hc hmark hc' =>
    have hlt := lt_of_getElem? hc'
    by_cases hret : s.retpos = 0
    · left
      simp only [Decoding.jump, Decoding.ahead, hret, if_true,
        if_neg (Nat.succ_ne_zero (s.crtpos + 1))]
      omega
    · right
      simp only [Decoding.jump] at hdepth
      simp only [Decoding.jump, Decoding.ahead, hret, if_false, true_and]
      omega
  | label hc hmark hne hle hdst =>
    by_cases hret : s.retpos = 0
    · left
      simp only [Decoding.pass, Decoding.ahead, hret, if_true]
      omega
    · right
      simp only [Decoding.pass, Decoding.ahead, hret, if_false, true_and]
      omega
  | nul hc hdst =>
    have hlt := lt_of_getElem? hc
    left
    by_cases hret : s.retpos = 0
    · simp only [Decoding.back, Decoding.ahead, hret, if_true]
      omega
    · simp only [Decoding.back, Decoding.ahead, hret, if_true, if_false]
      omega

/-- The loop of `dname_dec`: the variables after it, or NULL; there is no result where it leaves
the list or the buffer. -/
def decodePass (cstr : List UInt8) (s : Decoding) : Option (Option Decoding) :=
  if s.crtpos < cstr.length then
    match _h : decodeTurn cstr s with
    | .next s' => decodePass cstr s'
    | .null => some none
    | .outside => none
  else some (some s)
termination_by (s.ahead cstr, 7 - s.depth, cstr.length - s.crtpos)
decreasing_by
  rw [Prod.lex_def, Prod.lex_def]
  exact decodeTurn_decreases _h

theorem decodePass_next {cstr : List UInt8} {s s' : Decoding} (hlt : s.crtpos < cstr.length)
    (h : decodeTurn cstr s = .next s') : decodePass cstr s = decodePass cstr s' := by
  rw [decodePass, if_pos hlt]
  split
  · rename_i hs
    rw [h] at hs
    cases hs
    rfl
  · rename_i hs
    rw [h] at hs
    cases hs
  · rename_i hs
    rw [h] at hs
    cases hs

theorem decodePass_null {cstr : List UInt8} {s : Decoding} (hlt : s.crtpos < cstr.length)
    (h : decodeTurn cstr s = .null) : decodePass cstr s = some none := by
  rw [decodePass, if_pos hlt]
  split
  · rename_i hs
    rw [h] at hs
    cases hs
  · rfl
  · rename_i hs
    rw [h] at hs
    cases hs

theorem decodePass_of_moves {cstr : List UInt8} {s s' : Decoding} (h : Moves cstr s s')
    (hdepth : s'.depth ≤ 6) (hlen : s'.len ≤ 1025 * 6) :
    decodePass cstr s = decodePass cstr s' := by
  obtain ⟨c, hc, -⟩ := h.atByte
  exact decodePass_next (lt_of_getElem? hc) (decodeTurn_eq_next.mpr ⟨h, hdepth, hlen⟩)

theorem decodePass_of_deep {cstr : List UInt8} {s s' : Decoding} (h : Moves cstr s s')
    (hdepth : 6 < s'.depth) : decodePass cstr s = some none := by
  obtain ⟨c, hc, hbyte⟩ := h.atByte
  apply decodePass_null (lt_of_getElem? hc)
  rw [decodeTurn, hc]
  dsimp only
  rw [hbyte]
  exact if_pos (.inl hdepth)

/-- The variables at the start of a pass. -/
def Decoding.start (dst : Option (List UInt8)) : Decoding :=
  { crtpos := 0, retpos := 0, depth := 0, len := 0, dst }

/-- `dname_dec`: the buffer that it returns, or NULL.  What `xmalloc` leaves in a buffer is
`garbage`. -/
def dnameDec (cstr : List UInt8) (pre : Str) (garbage : ℕ → UInt8) : Option (Option (List UInt8)) :=
  do
    match ← decodePass cstr (.start none) with
    | none => return none
    | some first =>
      if first.len = 0 then return none
      else
        match ← decodePass cstr (.start (some ((List.range first.len).map garbage))) with
        | none => return none
        | some second =>
          if second.len = 0 then return none
          else
            let dst ← second.dst
            let dst ← writeAt dst (second.len - 1) [0]
            return some (pre ++ dst)

/-! ### Reading and writing -/

theorem readAt_of_le {bs : List UInt8} {off n : ℕ} (h : off + n ≤ bs.length) :
    readAt bs off n = some ((bs.drop off).take n) :=
  if_pos h

theorem writeAt_of_le {bs data : List UInt8} {off : ℕ} (h : off + data.length ≤ bs.length) :
    writeAt bs off data = some (bs.take off ++ data ++ bs.drop (off + data.length)) :=
  if_pos h

theorem length_of_writeAt {bs data bs' : List UInt8} {off : ℕ}
    (h : writeAt bs off data = some bs') : bs'.length = bs.length := by
  rw [writeAt] at h
  split at h
  · cases h
    rw [List.length_append, List.length_append, List.length_take, List.length_drop]
    omega
  · cases h

/-! ### The second pass follows the first -/

/-- The variables of the second pass, where those of the first one are `s`. -/
def Decoding.writing (s : Decoding) (dst : List UInt8) : Decoding := { s with dst := some dst }

/-- **A turn of the first pass** reads inside the list. -/
theorem decodeTurn_ne_outside {cstr : List UInt8} {s : Decoding} (hs : s.dst = none)
    (hlt : s.crtpos < cstr.length) : decodeTurn cstr s ≠ .outside := by
  have hcopy (c : UInt8) : copyLabel cstr s c = some none := by rw [copyLabel, hs]
  have hend : endName s = some none := by rw [endName, hs]
  have hbyte (c : UInt8) : atByte cstr s c ≠ .outside := by
    rw [atByte]
    split
    · rw [atPointer]
      split
      · exact DecodeTurn.noConfusion
      · rw [List.getElem?_eq_getElem (by omega)]
        exact DecodeTurn.noConfusion
    · split
      · rw [atLabel, hcopy]
        split <;> exact DecodeTurn.noConfusion
      · rw [atNul, hend]
        exact DecodeTurn.noConfusion
  rw [decodeTurn, List.getElem?_eq_getElem hlt]
  dsimp only
  split
  · split <;> exact DecodeTurn.noConfusion
  · exact hbyte _

/-- **A turn of the first pass** that goes on has nothing to write to, and the text gets no
shorter. -/
theorem decodeTurn_measures {cstr : List UInt8} {s s' : Decoding} (hs : s.dst = none)
    (h : decodeTurn cstr s = .next s') : s'.dst = none ∧ s.len ≤ s'.len := by
  cases (decodeTurn_eq_next.mp h).1 with
  | pointer hc hmark hc' => exact ⟨hs, Nat.le_refl _⟩
  | label hc hmark hne hle hdst =>
    rw [copyLabel, hs] at hdst
    cases hdst
    exact ⟨rfl, Nat.le_add_right _ _⟩
  | nul hc hdst =>
    rw [endName, hs] at hdst
    cases hdst
    rw [Decoding.back]
    split <;> exact ⟨rfl, Nat.le_refl _⟩

theorem back_len (s : Decoding) (dst : Option (List UInt8)) : (s.back dst).len = s.len := by
  rw [Decoding.back]
  split <;> rfl

theorem writing_back (s : Decoding) (dst dst' : List UInt8) :
    (s.writing dst).back (some dst') = (s.back none).writing dst' := by
  by_cases hret : s.retpos = 0
  · rw [Decoding.back, Decoding.back, if_pos hret]
    exact if_pos hret
  · rw [Decoding.back, Decoding.back, if_neg hret]
    exact if_neg hret

/-- **A turn of the second pass** does what the turn of the first one does, and writes inside the
buffer. -/
theorem decodeTurn_writes {cstr : List UInt8} {s s' : Decoding} (hs : s.dst = none)
    (h : decodeTurn cstr s = .next s') {dst : List UInt8} (hlen : s'.len ≤ dst.length) :
    ∃ dst', dst'.length = dst.length ∧
      decodeTurn cstr (s.writing dst) = .next (s'.writing dst') := by
  obtain ⟨hmoves, hdepth, hlimit⟩ := decodeTurn_eq_next.mp h
  suffices hw : ∃ dst', dst'.length = dst.length ∧
      Moves cstr (s.writing dst) (s'.writing dst') by
    obtain ⟨dst', hlen', hmoves'⟩ := hw
    exact ⟨dst', hlen', decodeTurn_eq_next.mpr ⟨hmoves', hdepth, hlimit⟩⟩
  cases hmoves with
  | pointer hc hmark hc' => exact ⟨dst, rfl, .pointer hc hmark hc'⟩
  | @label c _ hc hmark hne hle hdst =>
    have hread : readAt cstr (s.crtpos + 1) c.toNat =
        some ((cstr.drop (s.crtpos + 1)).take c.toNat) := readAt_of_le (by omega)
    have hroom : s.len + ((cstr.drop (s.crtpos + 1)).take c.toNat ++ [dot]).length ≤
        dst.length := by
      rw [List.length_append, List.length_take, List.length_drop, List.length_singleton]
      simp only [Decoding.pass] at hlen
      omega
    have hwrite := writeAt_of_le hroom
    refine ⟨_, length_of_writeAt hwrite, .label hc hmark hne hle ?_⟩
    simp only [copyLabel, Decoding.writing, Option.bind_eq_bind, hread, Option.bind_some, hwrite]
    rfl
  | nul hc hdst =>
    rw [endName, hs] at hdst
    cases hdst
    obtain ⟨dst', hlen', hend⟩ : ∃ dst', dst'.length = dst.length ∧
        endName (s.writing dst) = some (some dst') := by
      by_cases hzero : s.len = 0
      · exact ⟨dst, rfl, if_pos hzero⟩
      · have hroom : s.len - 1 + [space].length ≤ dst.length := by
          rw [back_len] at hlen
          rw [List.length_singleton]
          omega
        have hwrite := writeAt_of_le hroom
        refine ⟨_, length_of_writeAt hwrite, (if_neg hzero).trans ?_⟩
        simp only [Option.bind_eq_bind, Decoding.writing, hwrite, Option.bind_some]
        rfl
    refine ⟨dst', hlen', ?_⟩
    rw [← writing_back]
    exact .nul hc hend

/-- **The second pass** goes as the first one did, and writes inside the buffer. -/
theorem decodePass_measures {cstr : List UInt8} {s : Decoding} (hs : s.dst = none) :
    ∃ r, decodePass cstr s = some r ∧ ∀ e, r = some e → s.len ≤ e.len ∧
      ∀ dst : List UInt8, e.len ≤ dst.length → ∃ dst', dst'.length = dst.length ∧
        decodePass cstr (s.writing dst) = some (some (e.writing dst')) := by
  fun_induction decodePass cstr s with
  | case1 s hlt s' h ih =>
    obtain ⟨hs', hle⟩ := decodeTurn_measures hs h
    obtain ⟨r, hr, hpass⟩ := ih hs'
    refine ⟨r, hr, fun e he => ?_⟩
    obtain ⟨hle', hwrite⟩ := hpass e he
    refine ⟨hle.trans hle', fun dst hlen => ?_⟩
    obtain ⟨dst₁, hlen₁, hturn⟩ := decodeTurn_writes hs h (hle'.trans hlen)
    obtain ⟨dst₂, hlen₂, hrest⟩ := hwrite dst₁ (by omega)
    have hlt' : (s.writing dst).crtpos < cstr.length := hlt
    exact ⟨dst₂, hlen₂.trans hlen₁, (decodePass_next hlt' hturn).trans hrest⟩
  | case2 s hlt h => exact ⟨none, rfl, fun e he => by cases he⟩
  | case3 s hlt h => exact absurd h (decodeTurn_ne_outside hs hlt)
  | case4 s hge =>
    refine ⟨some s, rfl, fun e he => ?_⟩
    cases he
    refine ⟨Nat.le_refl _, fun dst hlen => ⟨dst, rfl, ?_⟩⟩
    rw [decodePass]
    exact if_neg hge

/-- **Decoding is safe** on every list.  `dname_dec` ends, and it reads inside the list and writes
inside its buffer; a buffer that it returns is as long as the prefix and the text together.  The
second pass comes to the length that the first one has found. -/
theorem dnameDec_safe (cstr : List UInt8) (pre : Str) (garbage : ℕ → UInt8) :
    (∃ r, dnameDec cstr pre garbage = some r ∧ ∀ ret, r = some ret →
        ∃ e, decodePass cstr (.start none) = some (some e) ∧ ret.length = pre.length + e.len) ∧
      ∃ first, decodePass cstr (.start none) = some first ∧
        ∀ e, first = some e → ∀ dst : List UInt8, dst.length = e.len →
          ∃ second dst', decodePass cstr (.start (some dst)) = some (some second) ∧
            second.len = e.len ∧ second.dst = some dst' ∧ dst'.length = e.len := by
  have hstart : (Decoding.start none).dst = none := rfl
  obtain ⟨first, hfirst, hpass⟩ := @decodePass_measures cstr _ hstart
  have hsecond (e : Decoding) (he : first = some e) (dst : List UInt8)
      (hdst : dst.length = e.len) : ∃ dst', dst'.length = e.len ∧
        decodePass cstr (.start (some dst)) = some (some (e.writing dst')) := by
    obtain ⟨dst', hlen, hrun⟩ := (hpass e he).2 dst (Nat.le_of_eq hdst.symm)
    exact ⟨dst', hlen.trans hdst, hrun⟩
  refine ⟨?_, first, hfirst, fun e he dst hdst => ?_⟩
  · cases hr : first with
    | none =>
      refine ⟨none, ?_, fun ret h => by cases h⟩
      rw [dnameDec, hfirst, hr]
      rfl
    | some e =>
      by_cases hlen : e.len = 0
      · refine ⟨none, ?_, fun ret h => by cases h⟩
        rw [dnameDec, hfirst, hr]
        simp only [Option.bind_eq_bind, Option.bind_some, if_pos hlen]
        rfl
      · obtain ⟨dst', hdst', hrun⟩ := hsecond e hr ((List.range e.len).map garbage)
          (by rw [List.length_map, List.length_range])
        have hwrite : writeAt dst' (e.len - 1) [0] =
            some (dst'.take (e.len - 1) ++ [0] ++ dst'.drop (e.len - 1 + 1)) :=
          writeAt_of_le (by rw [List.length_singleton]; omega)
        refine ⟨some (pre ++ (dst'.take (e.len - 1) ++ [0] ++ dst'.drop (e.len - 1 + 1))), ?_,
          fun ret h => ?_⟩
        · rw [dnameDec, hfirst, hr]
          simp only [Option.bind_eq_bind, Option.bind_some, if_neg hlen, hrun, Decoding.writing,
            hwrite]
          rfl
        · cases h
          refine ⟨e, by rw [hfirst, hr], ?_⟩
          rw [List.length_append, length_of_writeAt hwrite, hdst']
  · obtain ⟨dst', hlen, hrun⟩ := hsecond e he dst hdst
    exact ⟨e.writing dst', dst', hrun, rfl, rfl, hlen⟩

end Rustybox.Dhcp
