import Rustybox.Gunzip.Window

/-!
# Runs over two windows

Each function of the decoder does the same over any window: it stops with the same error, or comes
to the same state, with the window changed by the same writes.  From the first round of
`inflate_codes` up to `inflate_unzip_internal`, two runs that start with different windows then
write the same bytes exactly when no match reaches back further than what was decoded before it.
-/

namespace Rustybox.Gunzip

/-! ### One window more -/

/-- The state with another window and another CRC. -/
def State.over (s : State) (win : Window) (crc : ℕ) : State :=
  { s with window := win, crc := crc }

/-- A match copies nothing, or starts within what was decoded before it. -/
def Match.Clean (m : Match) : Prop := m.length = 0 ∨ m.distance ≤ m.decoded

/-- `f` does the same over any window. -/
def Oblivious {α : Type} (f : State → Except Stop (α × State)) (s : State)
    (Post : α → State → List Source → Prop) : Prop :=
  (∃ e, ∀ win crc, f (s.over win crc) = .error e) ∨
    ∃ a s' srcs, Post a s' srcs ∧
      ∀ win crc, ∃ crc', f (s.over win crc) = .ok (a, s'.over (writeAll s.w srcs win) crc')

/-- The decoder is inside a window. -/
structure Running (s : State) : Prop where
  w_lt : s.w < wsize
  bytesOut : s.bytesOut = 0 ∨ wsize ≤ s.bytesOut
  resume : s.resumeCopy = true → 0 < s.bytesOut

/-- From `s` to `s'` the bytes `srcs` were written, up to `lim`; the new matches are clean exactly
when these writes are grounded. -/
structure Traced (s s' : State) (lim : ℕ) (srcs : List Source) : Prop where
  limit : s.w + srcs.length = lim
  inside : ∀ dd, Source.back dd ∈ srcs → dd < wsize
  bytesOut : s'.bytesOut = s.bytesOut
  copies : ∃ ms, s'.copies = s.copies ++ ms ∧
    ((∀ m ∈ ms, m.Clean) ↔ Grounded s.bytesOut s.w srcs)

theorem Traced.trans {s s1 s2 : State} {lim : ℕ} {srcs more : List Source}
    (h : Traced s s1 s1.w srcs) (h' : Traced s1 s2 lim more) :
    Traced s s2 lim (srcs ++ more) where
  limit := by
    have h1 := h.limit
    have h2 := h'.limit
    rw [List.length_append]
    omega
  inside dd hdd := (List.mem_append.mp hdd).elim (h.inside dd) (h'.inside dd)
  bytesOut := h'.bytesOut.trans h.bytesOut
  copies := by
    obtain ⟨ms, hms, hiff⟩ := h.copies
    obtain ⟨ms', hms', hiff'⟩ := h'.copies
    refine ⟨ms ++ ms', by rw [hms', hms, List.append_assoc], ?_⟩
    rw [List.forall_mem_append, hiff, hiff', grounded_append, h.bytesOut, h.limit]

theorem Traced.refl {s s' : State} (hb : s'.bytesOut = s.bytesOut) (hc : s'.copies = s.copies) :
    Traced s s' s.w [] where
  limit := rfl
  inside := by simp
  bytesOut := hb
  copies := ⟨[], by rw [hc, List.append_nil], by simp [Grounded]⟩

/-! ### Copies -/

theorem grounded_backs_iff {bytesOut e dd w : ℕ} :
    Grounded bytesOut w (backs e dd) ↔ e = 0 ∨ dd < w ∨ 0 < bytesOut := by
  cases e with
  | zero => simp [backs, Grounded]
  | succ e =>
    constructor
    · exact fun h => Or.inr h.1
    · rintro (h | h)
      · cases h
      · exact grounded_backs h

theorem masked_lt (dd : ℕ) : dd &&& (wsize - 1) < wsize := by
  have := @Nat.and_le_right dd (wsize - 1)
  simp only [wsize] at *
  omega

/-- How many bytes one piece of a copy takes. -/
def pieceLength (s : State) : ℕ := min (wsize - max (s.dd &&& (wsize - 1)) s.w) s.nn

theorem copyPiece_over (s : State) (win : Window) (crc : ℕ) :
    copyPiece (s.over win crc) =
      (copyPiece s).over (writeAll s.w (backs (pieceLength s) (s.dd &&& (wsize - 1))) win) crc := by
  have hwin : ∀ dd e : ℕ, (if (if s.w > dd then s.w - dd else dd - s.w) ≥ e then
      copyFast e dd s.w win else copySlow e dd s.w win) = writeAll s.w (backs e dd) win := by
    intro dd e
    by_cases h : (if s.w > dd then s.w - dd else dd - s.w) ≥ e
    · have hapart : s.w + e ≤ dd ∨ dd + e ≤ s.w := by split at h <;> omega
      rw [if_pos h, copyFast_eq_copySlow win hapart, copySlow_eq_writeAll]
    · rw [if_neg h, copySlow_eq_writeAll]
  rw [← hwin]
  rfl

/-- What a round came to, and where the writes end. -/
def RoundPost (s : State) (round : Round) (s' : State) (srcs : List Source) : Prop :=
  match round with
  | .more => Traced s s' s'.w srcs ∧ Running s'
  | .endOfBlock => Traced s s' s'.outbufCount srcs ∧ s'.w = s'.outbufCount ∧ Running s'
  | .full => Traced s s' s'.outbufCount srcs ∧ s'.outbufCount = wsize ∧ s'.w = 0

/-- The copies of one match. -/
structure CopyPost (s : State) (round : Round) (s' : State) (srcs : List Source) : Prop where
  limit : s.w + srcs.length = if round = .full then s'.outbufCount else s'.w
  inside : ∀ dd, Source.back dd ∈ srcs → dd < wsize
  bytesOut : s'.bytesOut = s.bytesOut
  copies : s'.copies = s.copies
  grounded : Grounded s.bytesOut s.w srcs ↔
    s.nn = 0 ∨ s.dd &&& (wsize - 1) < s.w ∨ 0 < s.bytesOut
  more : round = .more → s'.w < wsize ∧ s'.resumeCopy = false
  full : round = .full → s'.outbufCount = wsize ∧ s'.w = 0
  notEnd : round ≠ .endOfBlock

theorem copyLoop_oblivious (fuel : ℕ) (s : State) (hw : s.w < wsize) :
    Oblivious (copyLoop fuel) s (CopyPost s) := by
  induction fuel generalizing s with
  | zero => exact Or.inl ⟨.spin, fun _ _ => rfl⟩
  | succ fuel ih =>
    have hdd := masked_lt s.dd
    have hpiece : pieceLength s ≤ s.nn := Nat.min_le_right _ _
    have hlen : pieceLength s = 0 ↔ s.nn = 0 := by
      rw [pieceLength]
      omega
    have hlim : s.w + pieceLength s ≤ wsize ∧ (s.dd &&& (wsize - 1)) + pieceLength s ≤ wsize := by
      rw [pieceLength]
      omega
    have hinside : ∀ dd, Source.back dd ∈ backs (pieceLength s) (s.dd &&& (wsize - 1)) →
        dd < wsize := fun dd h => by
      have := mem_backs h
      omega
    have hground : Grounded s.bytesOut s.w (backs (pieceLength s) (s.dd &&& (wsize - 1))) ↔
        s.nn = 0 ∨ s.dd &&& (wsize - 1) < s.w ∨ 0 < s.bytesOut := by
      rw [grounded_backs_iff, hlen]
    have hw1 : (copyPiece s).w = s.w + pieceLength s := rfl
    have hnn1 : (copyPiece s).nn = s.nn - pieceLength s := rfl
    by_cases hfull : s.w + pieceLength s = wsize
    · refine Or.inr ⟨.full, { (copyPiece s).windowFull with
        resumeCopy := decide ((copyPiece s).nn ≠ 0) }, _, ⟨?_, hinside, rfl, rfl, hground, ?_, ?_,
        ?_⟩, fun win crc => ⟨crc, ?_⟩⟩
      · rw [length_backs, if_pos rfl]
        rfl
      · exact fun h => by cases h
      · exact fun _ => ⟨hfull, rfl⟩
      · exact fun h => by cases h
      · rw [copyLoop, copyPiece_over]
        exact if_pos hfull
    by_cases hdone : s.nn - pieceLength s = 0
    · refine Or.inr ⟨.more, { copyPiece s with resumeCopy := false }, _,
        ⟨?_, hinside, rfl, rfl, hground, ?_, ?_, ?_⟩, fun win crc => ⟨crc, ?_⟩⟩
      · rw [length_backs, if_neg (by simp)]
        rfl
      · exact fun _ => ⟨by show s.w + pieceLength s < wsize; omega, rfl⟩
      · exact fun h => by cases h
      · exact fun h => by cases h
      · rw [copyLoop, copyPiece_over]
        exact (if_neg hfull).trans (if_pos hdone)
    · -- the source has reached the end of the window, and goes on at its start
      have hloop : ∀ win crc, copyLoop (fuel + 1) (s.over win crc) = copyLoop fuel
          ((copyPiece s).over
            (writeAll s.w (backs (pieceLength s) (s.dd &&& (wsize - 1))) win) crc) := by
        intro win crc
        rw [copyLoop, copyPiece_over]
        exact (if_neg hfull).trans (if_neg hdone)
      have hsource : (s.dd &&& (wsize - 1)) + pieceLength s = wsize ∧ 0 < pieceLength s := by
        have : ¬ s.nn = 0 := by omega
        rw [pieceLength] at *
        omega
      have hzero : (copyPiece s).dd &&& (wsize - 1) = 0 := by
        have hdd1 : (copyPiece s).dd = (s.dd &&& (wsize - 1)) + pieceLength s := rfl
        rw [hdd1, hsource.1]
        decide
      rcases ih (copyPiece s) (by rw [hw1]; omega) with ⟨e, he⟩ | ⟨round, s', srcs, hpost, hok⟩
      · exact Or.inl ⟨e, fun win crc => (hloop win crc).trans (he _ _)⟩
      · refine Or.inr ⟨round, s', backs (pieceLength s) (s.dd &&& (wsize - 1)) ++ srcs,
          ⟨?_, ?_, hpost.bytesOut, hpost.copies, ?_, hpost.more, hpost.full, hpost.notEnd⟩,
          fun win crc => ?_⟩
        · have := hpost.limit
          rw [hw1] at this
          rw [List.length_append, length_backs, ← this]
          omega
        · exact fun dd h => (List.mem_append.mp h).elim (hinside dd) (hpost.inside dd)
        · rw [grounded_append, hground, length_backs]
          have hrest : Grounded s.bytesOut (s.w + pieceLength s) srcs := by
            refine hpost.grounded.mpr (Or.inr (Or.inl ?_))
            rw [hzero, hw1]
            omega
          exact ⟨fun h => h.1, fun h => ⟨h, hrest⟩⟩
        · obtain ⟨crc', h⟩ := hok (writeAll s.w (backs (pieceLength s) (s.dd &&& (wsize - 1))) win)
            crc
          refine ⟨crc', (hloop win crc).trans (h.trans ?_)⟩
          rw [writeAll_append, length_backs]
          rfl

/-! ### Rounds -/

theorem Traced.congr {s s1 s' : State} {lim : ℕ} {srcs : List Source} (hw : s1.w = s.w)
    (hb : s1.bytesOut = s.bytesOut) (hc : s1.copies = s.copies) (h : Traced s1 s' lim srcs) :
    Traced s s' lim srcs := by
  obtain ⟨hlim, hin, hbo, ms, hms, hiff⟩ := h
  rw [hw] at hlim hiff
  rw [hb] at hbo hiff
  exact ⟨hlim, hin, hbo, ms, by rw [← hc]; exact hms, hiff⟩

/-- What a round came to depends on three fields of the state it started in. -/
theorem RoundPost.congr {s s1 s' : State} {round : Round} {srcs : List Source}
    (h : RoundPost s1 round s' srcs) (hw : s1.w = s.w) (hb : s1.bytesOut = s.bytesOut)
    (hc : s1.copies = s.copies) : RoundPost s round s' srcs := by
  cases round with
  | more => exact ⟨h.1.congr hw hb hc, h.2⟩
  | full => exact ⟨h.1.congr hw hb hc, h.2⟩
  | endOfBlock => exact ⟨h.1.congr hw hb hc, h.2⟩

theorem clean_iff {s : State} (h : Running s) (dd nn : ℕ) :
    (Match.mk (ringDistance dd s.w) nn (s.bytesOut + s.w)).Clean ↔
      nn = 0 ∨ dd &&& (wsize - 1) < s.w ∨ 0 < s.bytesOut := by
  have hw := h.w_lt
  have hb := h.bytesOut
  have hdd := masked_lt dd
  show nn = 0 ∨ ringDistance dd s.w ≤ s.bytesOut + s.w ↔ _
  rw [ringDistance]
  split
  · omega
  · omega

/-- What a copy does as a part of a round that added `ms` to the history. -/
theorem roundPost_of_copyPost {s s1 s' : State} {round : Round} {srcs : List Source}
    {ms : List Match} (hs : Running s) (hw : s1.w = s.w) (hb : s1.bytesOut = s.bytesOut)
    (hc : s1.copies = s.copies ++ ms)
    (hms : (∀ m ∈ ms, m.Clean) ↔ s1.nn = 0 ∨ s1.dd &&& (wsize - 1) < s1.w ∨ 0 < s1.bytesOut)
    (h : CopyPost s1 round s' srcs) : RoundPost s round s' srcs := by
  have htrace : ∀ lim, s1.w + srcs.length = lim → Traced s s' lim srcs := by
    intro lim hlim
    refine ⟨by rw [← hw]; exact hlim, h.inside, h.bytesOut.trans hb, ms, h.copies.trans hc, ?_⟩
    rw [← hb, ← hw]
    exact hms.trans h.grounded.symm
  have hlim := h.limit
  cases round with
  | more =>
    obtain ⟨hlt, hres⟩ := h.more rfl
    refine ⟨htrace _ (by simpa using hlim), hlt, ?_, by simp [hres]⟩
    rw [h.bytesOut, hb]
    exact hs.bytesOut
  | full => exact ⟨htrace _ (by simpa using hlim), h.full rfl⟩
  | endOfBlock => exact absurd rfl h.notEnd

/-- What decoding a match leaves: the lengths, and the match in the history. -/
theorem decodeMatch_cases (t : Huft) (s : State) :
    (∃ e, ∀ win crc, decodeMatch t (s.over win crc) = .error e) ∨
      ∃ b nn dd, ∀ win crc, decodeMatch t (s.over win crc) =
        .ok ({ s with
          bits := b, nn := nn, dd := dd,
          copies := s.copies ++ [Match.mk (ringDistance dd s.w) nn (s.bytesOut + s.w)]
        }.over win crc) := by
  cases h1 : takeBits t.e s.bits with
  | error e =>
    refine Or.inl ⟨e, fun win crc => ?_⟩
    show (takeBits t.e s.bits >>= _) = _
    rw [h1]
    rfl
  | ok r1 =>
  cases h2 : lookUp s.td s.bd r1.2 with
  | error e =>
    refine Or.inl ⟨e, fun win crc => ?_⟩
    show (takeBits t.e s.bits >>= _) = _
    rw [h1]
    show (lookUp s.td s.bd r1.2 >>= _) = _
    rw [h2]
    rfl
  | ok r2 =>
  cases h3 : takeBits r2.1.e r2.2 with
  | error e =>
    refine Or.inl ⟨e, fun win crc => ?_⟩
    show (takeBits t.e s.bits >>= _) = _
    rw [h1]
    show (lookUp s.td s.bd r1.2 >>= _) = _
    rw [h2]
    show (takeBits r2.1.e r2.2 >>= _) = _
    rw [h3]
    rfl
  | ok r3 =>
    refine Or.inr ⟨r3.2, t.v + r1.1, copyFrom s.w r2.1.v r3.1, fun win crc => ?_⟩
    show (takeBits t.e s.bits >>= _) = _
    rw [h1]
    show (lookUp s.td s.bd r1.2 >>= _) = _
    rw [h2]
    show (takeBits r2.1.e r2.2 >>= _) = _
    rw [h3]
    rfl

theorem copyMatch_oblivious (t : Huft) (s : State) (hs : Running s) :
    Oblivious (copyMatch t) s (RoundPost s) := by
  rcases decodeMatch_cases t s with ⟨e, he⟩ | ⟨b, nn, dd, hok⟩
  · refine Or.inl ⟨e, fun win crc => ?_⟩
    rw [copyMatch, he]
    rfl
  -- the state that the copy starts from
  obtain ⟨s1, hs1⟩ : ∃ s1 : State, s1 =
      { s with
        bits := b, nn := nn, dd := dd,
        copies := s.copies ++ [Match.mk (ringDistance dd s.w) nn (s.bytesOut + s.w)] } := ⟨_, rfl⟩
  have hw : s1.w = s.w := by rw [hs1]
  have hnn : s1.nn = nn := by rw [hs1]
  have hrun : ∀ win crc, copyMatch t (s.over win crc) = copyLoop (nn + 1) (s1.over win crc) := by
    intro win crc
    rw [copyMatch, hok, ← hs1, ← hnn]
    rfl
  have hpost : ∀ round s' srcs, CopyPost s1 round s' srcs → RoundPost s round s' srcs := by
    intro round s' srcs
    refine roundPost_of_copyPost hs hw (by rw [hs1]) (by rw [hs1]) ?_
    rw [hs1, List.forall_mem_singleton]
    exact clean_iff hs dd nn
  rcases copyLoop_oblivious (nn + 1) s1 (by rw [hw]; exact hs.w_lt) with
    ⟨e, he⟩ | ⟨round, s', srcs, hcopy, hok⟩
  · exact Or.inl ⟨e, fun win crc => (hrun win crc).trans (he win crc)⟩
  · refine Or.inr ⟨round, s', srcs, hpost round s' srcs hcopy, fun win crc => ?_⟩
    obtain ⟨crc', h⟩ := hok win crc
    exact ⟨crc', (hrun win crc).trans (by rw [h, hw])⟩

theorem emit_over (s : State) (byte : UInt8) (win : Window) (crc : ℕ) :
    (s.over win crc).emit byte =
      ((s.emit byte).1, (s.emit byte).2.over (writeAll s.w [.byte byte] win) crc) := by
  have hfst : (s.over win crc).emit byte = if s.w + 1 = wsize then
      (.full, ({ s with w := s.w + 1 }.windowFull).over (win.put s.w byte) crc) else
      (.more, { s with w := s.w + 1 }.over (win.put s.w byte) crc) := rfl
  have hsnd : s.emit byte = if s.w + 1 = wsize then
      (.full, { s with window := s.window.put s.w byte, w := s.w + 1 }.windowFull) else
      (.more, { s with window := s.window.put s.w byte, w := s.w + 1 }) := rfl
  rw [hfst, hsnd]
  split
  · rfl
  · rfl

theorem emit_post (s : State) (byte : UInt8) (hs : Running s) :
    RoundPost s (s.emit byte).1 (s.emit byte).2 [.byte byte] := by
  have hw := hs.w_lt
  have hemit : s.emit byte = if s.w + 1 = wsize then
      (.full, { s with window := s.window.put s.w byte, w := s.w + 1 }.windowFull) else
      (.more, { s with window := s.window.put s.w byte, w := s.w + 1 }) := rfl
  have htrace : ∀ s' : State, s'.bytesOut = s.bytesOut → s'.copies = s.copies →
      Traced s s' (s.w + 1) [.byte byte] := fun s' hb hc =>
    ⟨rfl, by simp, hb, [], by rw [hc, List.append_nil], by simp [Grounded]⟩
  rw [hemit]
  by_cases hfull : s.w + 1 = wsize
  · rw [if_pos hfull]
    exact ⟨htrace _ rfl rfl, hfull, rfl⟩
  · rw [if_neg hfull]
    exact ⟨htrace _ rfl rfl, by show s.w + 1 < wsize; omega, hs.bytesOut, hs.resume⟩

theorem codesRound_oblivious (s : State) (hs : Running s) :
    Oblivious codesRound s (RoundPost s) := by
  by_cases hres : s.resumeCopy = true
  · have hrun : ∀ win crc, codesRound (s.over win crc) = copyLoop (s.nn + 1) (s.over win crc) :=
      fun win crc => if_pos hres
    rcases copyLoop_oblivious (s.nn + 1) s hs.w_lt with ⟨e, he⟩ | ⟨round, s', srcs, hcopy, hok⟩
    · exact Or.inl ⟨e, fun win crc => (hrun win crc).trans (he win crc)⟩
    · refine Or.inr ⟨round, s', srcs, ?_, fun win crc => ?_⟩
      · refine roundPost_of_copyPost hs rfl rfl (List.append_nil _).symm ?_ hcopy
        exact ⟨fun _ => Or.inr (Or.inr (hs.resume hres)), fun _ => by simp⟩
      · obtain ⟨crc', h⟩ := hok win crc
        exact ⟨crc', (hrun win crc).trans h⟩
  cases hl : lookUp s.tl s.bl s.bits with
  | error e =>
    refine Or.inl ⟨e, fun win crc => (if_neg hres).trans ?_⟩
    show (lookUp s.tl s.bl s.bits >>= _) = _
    rw [hl]
    rfl
  | ok r =>
  obtain ⟨t, b⟩ := r
  have hs1 : Running { s with bits := b } := ⟨hs.w_lt, hs.bytesOut, hs.resume⟩
  have hrun : ∀ win crc, codesRound (s.over win crc) =
      if t.e = 16 then .ok (({ s with bits := b }.over win crc).emit (UInt8.ofNat t.v))
      else if t.e = 15 then
        .ok (.endOfBlock, { s with bits := b, outbufCount := s.w, tl := [], td := [] }.over win crc)
      else copyMatch t ({ s with bits := b }.over win crc) := by
    intro win crc
    refine (if_neg hres).trans ?_
    show (lookUp s.tl s.bl s.bits >>= _) = _
    rw [hl]
    rfl
  by_cases h16 : t.e = 16
  · have hpost := emit_post { s with bits := b } (UInt8.ofNat t.v) hs1
    refine Or.inr ⟨_, _, _, RoundPost.congr hpost rfl rfl rfl, fun win crc => ⟨crc, ?_⟩⟩
    rw [hrun, if_pos h16, emit_over]
  by_cases h15 : t.e = 15
  · refine Or.inr ⟨.endOfBlock, { s with bits := b, outbufCount := s.w, tl := [], td := [] }, [],
      ⟨Traced.refl rfl rfl, rfl, hs.w_lt, hs.bytesOut, hs.resume⟩, fun win crc => ⟨crc, ?_⟩⟩
    rw [hrun, if_neg h16, if_pos h15]
    rfl
  · have hm := copyMatch_oblivious t { s with bits := b } hs1
    rcases hm with ⟨e, he⟩ | ⟨round, s', srcs, hpost, hok⟩
    · refine Or.inl ⟨e, fun win crc => ?_⟩
      rw [hrun, if_neg h16, if_neg h15]
      exact he win crc
    · refine Or.inr ⟨round, s', srcs, RoundPost.congr hpost rfl rfl rfl, fun win crc => ?_⟩
      rw [hrun, if_neg h16, if_neg h15]
      exact hok win crc

/-! ### Blocks -/

/-- What a block came to in one window: `full` when the window is full. -/
structure BlockPost (s : State) (full : Bool) (s' : State) (srcs : List Source) : Prop where
  trace : Traced s s' s'.outbufCount srcs
  full_window : full = true → s'.outbufCount = wsize ∧ s'.w = 0
  done : full = false → s'.w = s'.outbufCount ∧ Running s'

theorem BlockPost.cons {s s1 s' : State} {full : Bool} {srcs more : List Source}
    (h : RoundPost s .more s1 srcs) (h' : BlockPost s1 full s' more) :
    BlockPost s full s' (srcs ++ more) :=
  ⟨h.1.trans h'.trace, h'.full_window, h'.done⟩

theorem Oblivious.cons {α : Type} {f : State → Except Stop (α × State)} {s s1 : State}
    {a : α} {s' : State} {srcs more : List Source} (hlim : s.w + srcs.length = s1.w)
    {start : Window → ℕ → Except Stop (α × State)}
    (hstart : ∀ win crc, ∃ crc', start win crc = f (s1.over (writeAll s.w srcs win) crc'))
    (hok : ∀ win crc, ∃ crc', f (s1.over win crc) = .ok (a, s'.over (writeAll s1.w more win) crc')) :
    ∀ win crc, ∃ crc', start win crc = .ok (a, s'.over (writeAll s.w (srcs ++ more) win) crc') := by
  intro win crc
  obtain ⟨crc1, h1⟩ := hstart win crc
  obtain ⟨crc2, h2⟩ := hok (writeAll s.w srcs win) crc1
  exact ⟨crc2, by rw [h1, h2, writeAll_append, hlim]⟩

theorem inflateCodes_oblivious (fuel : ℕ) (s : State) (hs : Running s) :
    Oblivious (inflateCodes fuel) s (BlockPost s) := by
  induction fuel generalizing s with
  | zero => exact Or.inl ⟨.spin, fun _ _ => rfl⟩
  | succ fuel ih =>
    rcases codesRound_oblivious s hs with ⟨e, he⟩ | ⟨round, s1, srcs, hround, hok⟩
    · refine Or.inl ⟨e, fun win crc => ?_⟩
      rw [inflateCodes, he]
      rfl
    cases round with
    | full =>
      refine Or.inr ⟨true, s1, srcs, ⟨hround.1, fun _ => hround.2, by simp⟩, fun win crc => ?_⟩
      obtain ⟨crc', h⟩ := hok win crc
      exact ⟨crc', by rw [inflateCodes, h]; rfl⟩
    | endOfBlock =>
      refine Or.inr ⟨false, s1, srcs, ⟨hround.1, by simp, fun _ => hround.2⟩, fun win crc => ?_⟩
      obtain ⟨crc', h⟩ := hok win crc
      exact ⟨crc', by rw [inflateCodes, h]; rfl⟩
    | more =>
      have hrun : ∀ win crc, ∃ crc', inflateCodes (fuel + 1) (s.over win crc) =
          inflateCodes fuel (s1.over (writeAll s.w srcs win) crc') := by
        intro win crc
        obtain ⟨crc', h⟩ := hok win crc
        exact ⟨crc', by rw [inflateCodes, h]; rfl⟩
      rcases ih s1 hround.2 with ⟨e, he⟩ | ⟨full, s', more, hpost, hok'⟩
      · refine Or.inl ⟨e, fun win crc => ?_⟩
        obtain ⟨crc', h⟩ := hrun win crc
        rw [h, he]
      · exact Or.inr ⟨full, s', srcs ++ more, hpost.cons hround,
          Oblivious.cons hround.1.limit hrun hok'⟩

theorem storedRound_oblivious (n : ℕ) (s : State) (hs : Running s) :
    Oblivious (storedRound n) s fun round s' srcs =>
      RoundPost s round s' srcs ∧ round ≠ .endOfBlock := by
  cases h1 : takeBits 8 s.bits with
  | error e =>
    refine Or.inl ⟨e, fun win crc => ?_⟩
    show (takeBits 8 s.bits >>= _) = _
    rw [h1]
    rfl
  | ok r =>
    have hs1 : Running { s with bits := r.2, storedN := n } := ⟨hs.w_lt, hs.bytesOut, hs.resume⟩
    have hpost := emit_post { s with bits := r.2, storedN := n } (UInt8.ofNat r.1) hs1
    refine Or.inr ⟨_, _, _, ⟨hpost.congr rfl rfl rfl, ?_⟩, fun win crc => ⟨crc, ?_⟩⟩
    · show (if s.w + 1 = wsize then (_, _) else (_, _)).1 ≠ _
      split <;> simp
    · show (takeBits 8 s.bits >>= _) = _
      rw [h1]
      exact congrArg Except.ok (emit_over { s with bits := r.2, storedN := n } _ win crc)

theorem inflateStored_oblivious (n : ℕ) (s : State) (hs : Running s) :
    Oblivious (inflateStored n) s (BlockPost s) := by
  induction n generalizing s with
  | zero =>
    refine Or.inr ⟨false, { s with outbufCount := s.w, storedN := 0 }, [],
      ⟨Traced.refl rfl rfl, by simp, fun _ => ⟨rfl, hs.w_lt, hs.bytesOut, hs.resume⟩⟩,
      fun win crc => ⟨crc, rfl⟩⟩
  | succ n ih =>
    rcases storedRound_oblivious n s hs with ⟨e, he⟩ | ⟨round, s1, srcs, ⟨hround, hne⟩, hok⟩
    · refine Or.inl ⟨e, fun win crc => ?_⟩
      rw [inflateStored, he]
      rfl
    cases round with
    | endOfBlock => exact absurd rfl hne
    | full =>
      refine Or.inr ⟨true, s1, srcs, ⟨hround.1, fun _ => hround.2, by simp⟩, fun win crc => ?_⟩
      obtain ⟨crc', h⟩ := hok win crc
      exact ⟨crc', by rw [inflateStored, h]; rfl⟩
    | more =>
      have hrun : ∀ win crc, ∃ crc', inflateStored (n + 1) (s.over win crc) =
          inflateStored n (s1.over (writeAll s.w srcs win) crc') := by
        intro win crc
        obtain ⟨crc', h⟩ := hok win crc
        exact ⟨crc', by rw [inflateStored, h]; rfl⟩
      rcases ih s1 hround.2 with ⟨e, he⟩ | ⟨full, s', more, hpost, hok'⟩
      · refine Or.inl ⟨e, fun win crc => ?_⟩
        obtain ⟨crc', h⟩ := hrun win crc
        rw [h, he]
      · exact Or.inr ⟨full, s', srcs ++ more, hpost.cons hround,
          Oblivious.cons hround.1.limit hrun hok'⟩

/-! ### inflate_block -/

/-- What a new block leaves alone. -/
structure SameData (s s' : State) : Prop where
  w : s'.w = s.outbufCount
  bytesOut : s'.bytesOut = s.bytesOut
  copies : s'.copies = s.copies
  resumeCopy : s'.resumeCopy = s.resumeCopy
  outbufCount : s'.outbufCount = s.outbufCount

/-- `f` makes a new block, and does the same over any window. -/
def BlockOblivious (f : State → Except Stop State) (s : State) : Prop :=
  (∃ e, ∀ win crc, f (s.over win crc) = .error e) ∨
    ∃ s', SameData s s' ∧ ∀ win crc, f (s.over win crc) = .ok (s'.over win crc)

theorem BlockOblivious.bind {α : Type} {s : State} {x : Except Stop α}
    {k : α → State → Except Stop State} (h : ∀ a, BlockOblivious (k a) s) :
    BlockOblivious (fun s => x >>= fun a => k a s) s := by
  cases x with
  | error e => exact Or.inl ⟨e, fun _ _ => rfl⟩
  | ok a => exact h a

theorem BlockOblivious.error {s : State} (e : Stop) : BlockOblivious (fun _ => .error e) s :=
  Or.inl ⟨e, fun _ _ => rfl⟩

theorem BlockOblivious.ite {s : State} {p : Prop} [Decidable p] {f g : State → Except Stop State}
    (hf : BlockOblivious f s) (hg : BlockOblivious g s) :
    BlockOblivious (fun s => if p then f s else g s) s := by
  by_cases h : p
  · simpa only [h, if_true] using hf
  · simpa only [h, if_false] using hg

theorem inflateCodesSetup_oblivious (s : State) (b : Bits) (tl td : Built) :
    BlockOblivious (fun s => .ok (inflateCodesSetup s b tl td)) s :=
  Or.inr ⟨inflateCodesSetup s b tl td, ⟨rfl, rfl, rfl, rfl, rfl⟩, fun _ _ => rfl⟩

theorem storedBlock_oblivious (s : State) (b : Bits) :
    BlockOblivious (fun s => storedBlock s b) s :=
  .bind fun (n, _) => .bind fun b => .ite (.error _)
    (Or.inr ⟨{ s with bits := b.dump 16, storedN := n, w := s.outbufCount, method := .stored },
      ⟨rfl, rfl, rfl, rfl, rfl⟩, fun _ _ => rfl⟩)

theorem dynamicBlock_oblivious (s : State) (b : Bits) :
    BlockOblivious (fun s => dynamicBlock s b) s :=
  .bind fun _ => .bind fun _ => .bind fun _ => .ite (.error _) (.bind fun _ => .ite (.error _)
    (.bind fun _ => .ite (.error _) (.ite (.error _) (inflateCodesSetup_oblivious s _ _ _))))

theorem BlockOblivious.takeBits {s : State} {n : ℕ}
    {k : ℕ × Bits → State → Except Stop State} (h : ∀ a, BlockOblivious (k a) s) :
    BlockOblivious (fun s => takeBits n s.bits >>= fun a => k a s) s :=
  BlockOblivious.bind (x := Gunzip.takeBits n s.bits) h

theorem BlockOblivious.setBits {s : State} {b : Bits} {e : Bool} {f : State → Except Stop State}
    (h : BlockOblivious f { s with bits := b, endReached := e }) :
    BlockOblivious (fun s => f { s with bits := b, endReached := e }) s := by
  rcases h with ⟨err, he⟩ | ⟨s', hsame, hok⟩
  · exact Or.inl ⟨err, he⟩
  · exact Or.inr ⟨s', ⟨hsame.w, hsame.bytesOut, hsame.copies, hsame.resumeCopy,
      hsame.outbufCount⟩, hok⟩

theorem inflateBlock_oblivious (s : State) : BlockOblivious inflateBlock s :=
  .takeBits fun _ => .bind fun (_, _) => .setBits
    (.ite (storedBlock_oblivious _ _) (.ite (inflateCodesSetup_oblivious _ _ _ _)
      (.ite (dynamicBlock_oblivious _ _) (.error _))))

theorem nextBlock_oblivious (s : State) (hs : Running s)
    (hneed : s.needAnotherBlock = true → s.w = s.outbufCount) :
    (∃ e, ∀ win crc, nextBlock (s.over win crc) = .error e) ∨
      ∃ s', Running s' ∧ s'.w = s.w ∧ s'.bytesOut = s.bytesOut ∧ s'.copies = s.copies ∧
        ∀ win crc, nextBlock (s.over win crc) = .ok (s'.over win crc) := by
  by_cases h : s.needAnotherBlock = true
  · rcases inflateBlock_oblivious s with ⟨e, he⟩ | ⟨s', hsame, hok⟩
    · refine Or.inl ⟨e, fun win crc => (if_pos h).trans ?_⟩
      rw [he]
      rfl
    · have hw : s'.w = s.w := hsame.w.trans (hneed h).symm
      refine Or.inr ⟨{ s' with needAnotherBlock := false }, ⟨?_, ?_, ?_⟩, hw, hsame.bytesOut,
        hsame.copies, fun win crc => (if_pos h).trans ?_⟩
      · show s'.w < wsize
        rw [hw]
        exact hs.w_lt
      · show s'.bytesOut = 0 ∨ wsize ≤ s'.bytesOut
        rw [hsame.bytesOut]
        exact hs.bytesOut
      · show s'.resumeCopy = true → 0 < s'.bytesOut
        rw [hsame.bytesOut, hsame.resumeCopy]
        exact hs.resume
      · rw [hok]
        rfl
  · exact Or.inr ⟨s, hs, rfl, rfl, rfl, fun win crc => if_neg h⟩

/-! ### Windows -/

/-- What is known of a window when it is to be written. -/
structure WindowPost (s : State) (more : Bool) (s' : State) (srcs : List Source) : Prop where
  limit : s.w + srcs.length = s'.outbufCount
  inside : ∀ dd, Source.back dd ∈ srcs → dd < wsize
  bytesOut : s'.bytesOut = s.bytesOut + s'.outbufCount
  copies : ∃ ms, s'.copies = s.copies ++ ms ∧
    ((∀ m ∈ ms, m.Clean) ↔ Grounded s.bytesOut s.w srcs)
  bound : s'.outbufCount ≤ wsize
  full : more = true → s'.outbufCount = wsize ∧ s'.w = 0

theorem WindowPost.cons {s s1 s' : State} {more : Bool} {srcs rest : List Source}
    (h : Traced s s1 s1.w srcs) (h' : WindowPost s1 more s' rest) :
    WindowPost s more s' (srcs ++ rest) := by
  have htail : Traced s1 { s' with bytesOut := s1.bytesOut } s'.outbufCount rest :=
    ⟨h'.limit, h'.inside, rfl, h'.copies⟩
  have htrace := h.trans htail
  exact ⟨htrace.limit, htrace.inside, by rw [h'.bytesOut, h.bytesOut], htrace.copies, h'.bound,
    h'.full⟩

theorem inflateMethod_oblivious (fuel : ℕ) (s : State) (hs : Running s) :
    Oblivious (inflateMethod fuel) s (BlockPost s) := by
  cases h : s.method with
  | stored =>
    have hrun : ∀ win crc, inflateMethod fuel (s.over win crc) =
        inflateStored s.storedN (s.over win crc) := fun win crc => by
      rw [inflateMethod, show (s.over win crc).method = .stored from h]
      rfl
    simpa only [Oblivious, hrun] using inflateStored_oblivious s.storedN s hs
  | codes =>
    have hrun : ∀ win crc, inflateMethod fuel (s.over win crc) =
        inflateCodes fuel (s.over win crc) := fun win crc => by
      rw [inflateMethod, show (s.over win crc).method = .codes from h]
    simpa only [Oblivious, hrun] using inflateCodes_oblivious fuel s hs

theorem windowLoop_oblivious (fuel rounds : ℕ) (s : State) (hs : Running s)
    (hneed : s.needAnotherBlock = true → s.w = s.outbufCount) :
    Oblivious (windowLoop fuel rounds) s (WindowPost s) := by
  induction rounds generalizing s with
  | zero => exact Or.inl ⟨.spin, fun _ _ => rfl⟩
  | succ rounds ih =>
    by_cases hend : s.needAnotherBlock ∧ s.endReached
    · -- last block
      have hw := hneed hend.1
      refine Or.inr ⟨false, { s with
          bytesOut := s.bytesOut + s.outbufCount, endReached := false }, [],
        ⟨hw, by simp, rfl, ⟨[], (List.append_nil _).symm, by simp [Grounded]⟩, ?_, by simp⟩,
        fun win crc => ⟨_, if_pos hend⟩⟩
      show s.outbufCount ≤ wsize
      rw [← hw]
      exact Nat.le_of_lt hs.w_lt
    have hloop : ∀ win crc, windowLoop fuel (rounds + 1) (s.over win crc) =
        nextBlock (s.over win crc) >>= fun s => inflateMethod fuel s >>= fun r =>
          if r.1 then .ok (true, calculateGunzipCrc r.2)
          else windowLoop fuel rounds { r.2 with needAnotherBlock := true } :=
      fun win crc => if_neg hend
    rcases nextBlock_oblivious s hs hneed with ⟨e, he⟩ | ⟨s1, hs1, hw1, hb1, hc1, hok1⟩
    · refine Or.inl ⟨e, fun win crc => ?_⟩
      rw [hloop, he]
      rfl
    rcases inflateMethod_oblivious fuel s1 hs1 with ⟨e, he⟩ | ⟨full, s2, srcs, hblock, hok2⟩
    · refine Or.inl ⟨e, fun win crc => ?_⟩
      rw [hloop, hok1]
      show (inflateMethod fuel (s1.over win crc) >>= _) = _
      rw [he]
      rfl
    have htrace : Traced s s2 s2.outbufCount srcs := hblock.trace.congr hw1 hb1 hc1
    cases full with
    | true =>
      obtain ⟨hfull, hw⟩ := hblock.full_window rfl
      refine Or.inr ⟨true, { s2 with bytesOut := s2.bytesOut + s2.outbufCount }, srcs,
        ⟨htrace.limit, htrace.inside, ?_, htrace.copies, Nat.le_of_eq hfull, fun _ => ⟨hfull, hw⟩⟩,
        fun win crc => ?_⟩
      · show s2.bytesOut + s2.outbufCount = _
        rw [htrace.bytesOut]
      · obtain ⟨crc', h⟩ := hok2 win crc
        refine ⟨crc32Block crc' (s2.over (writeAll s1.w srcs win) crc').outbuf, ?_⟩
        rw [hloop, hok1]
        show (inflateMethod fuel (s1.over win crc) >>= _) = _
        rw [h, ← hw1]
        rfl
    | false =>
      obtain ⟨hw2, hs2⟩ := hblock.done rfl
      obtain ⟨s3, hs3⟩ : ∃ s3 : State, s3 = { s2 with needAnotherBlock := true } := ⟨_, rfl⟩
      have hrunning : Running s3 := by
        rw [hs3]
        exact ⟨hs2.w_lt, hs2.bytesOut, hs2.resume⟩
      have hw3 : s3.w = s3.outbufCount := by rw [hs3]; exact hw2
      have htrace3 : Traced s s3 s3.w srcs := by
        rw [hw3, hs3]
        exact ⟨htrace.limit, htrace.inside, htrace.bytesOut, htrace.copies⟩
      have hrun : ∀ win crc, ∃ crc', windowLoop fuel (rounds + 1) (s.over win crc) =
          windowLoop fuel rounds (s3.over (writeAll s.w srcs win) crc') := by
        intro win crc
        obtain ⟨crc', h⟩ := hok2 win crc
        refine ⟨crc', ?_⟩
        rw [hloop, hok1]
        show (inflateMethod fuel (s1.over win crc) >>= _) = _
        rw [h, hs3, ← hw1]
        rfl
      rcases ih s3 hrunning (fun _ => hw3) with ⟨e, he⟩ | ⟨more, s', rest, hpost, hok⟩
      · refine Or.inl ⟨e, fun win crc => ?_⟩
        obtain ⟨crc', h⟩ := hrun win crc
        rw [h, he]
      · exact Or.inr ⟨more, s', srcs ++ rest, hpost.cons htrace3,
          Oblivious.cons htrace3.limit hrun hok⟩

end Rustybox.Gunzip
