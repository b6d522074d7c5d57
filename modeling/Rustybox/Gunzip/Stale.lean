import Rustybox.Gunzip.Oblivious

/-!
# What the new window held

`gunzip_window` comes from `malloc` and is not cleared, and nothing checks how far back a match
reaches.  A match that starts before the first decoded byte copies what the heap held there into
the output.
-/

namespace Rustybox.Gunzip

/-! ### One window -/

/-- The decoder is between two windows. -/
structure Between (s : State) : Prop where
  w : s.w = 0
  bytesOut : s.bytesOut = 0 ∨ wsize ≤ s.bytesOut
  resume : s.resumeCopy = true → 0 < s.bytesOut

theorem inflateGetNextWindow_oblivious (fuel : ℕ) (s : State) (hs : Between s) :
    Oblivious (inflateGetNextWindow fuel) s (WindowPost s) := by
  have hstart : Running { s with outbufCount := 0 } :=
    ⟨by show s.w < wsize; rw [hs.w]; decide, hs.bytesOut, hs.resume⟩
  rcases windowLoop_oblivious fuel fuel { s with outbufCount := 0 } hstart (fun _ => hs.w) with
    ⟨e, he⟩ | ⟨more, s', srcs, hpost, hok⟩
  · exact Or.inl ⟨e, he⟩
  · exact Or.inr ⟨more, s', srcs, ⟨hpost.limit, hpost.inside, hpost.bytesOut, hpost.copies,
      hpost.bound, hpost.full⟩, hok⟩

theorem WindowPost.between {s s' : State} {srcs : List Source} (h : WindowPost s true s' srcs) :
    Between s' ∧ 0 < s'.bytesOut := by
  obtain ⟨hfull, hw⟩ := h.full rfl
  have hb : wsize ≤ s'.bytesOut := by
    rw [h.bytesOut, hfull]
    exact Nat.le_add_left _ _
  have hpos : 0 < s'.bytesOut := Nat.lt_of_lt_of_le (by decide) hb
  exact ⟨⟨hw, Or.inr hb, fun _ => hpos⟩, hpos⟩

/-- The first `n` bytes of a window. -/
def front (n : ℕ) (win : Window) : List UInt8 := (List.range n).map win

theorem front_eq_of_agree (bytesOut : ℕ) {n : ℕ} {win win' : Window} (hn : n ≤ wsize)
    (h : Agree bytesOut n win win') : front n win = front n win' := by
  refine List.map_congr_left fun i hi => ?_
  have := List.mem_range.mp hi
  exact h i (by omega) (Or.inl this)

theorem front_ne_of_differ {n : ℕ} {win win' : Window} (h : Differ n win win') :
    front n win ≠ front n win' := by
  obtain ⟨i, hi, hne⟩ := h
  intro heq
  have hget := congrArg (fun l => l[i]?) heq
  simp only [front, List.getElem?_map, List.getElem?_range hi, Option.map_some,
    Option.some.injEq] at hget
  exact hne hget

/-! ### All windows -/

/-- What the output of a run is, given the window it starts with, and what the matches `ms` of
the run say about it. -/
structure Reveals (bytesOut : ℕ) (ms : List Match) (written : Window → List UInt8) : Prop where
  length : ∀ win win', (written win).length = (written win').length
  alike : (∀ m ∈ ms, m.Clean) → ∀ win win', Agree bytesOut 0 win win' → written win = written win'
  apart : ¬ (∀ m ∈ ms, m.Clean) → ∀ g g' win win', (∀ i, g i ≠ g' i) →
    Untouched bytesOut 0 g win → Untouched bytesOut 0 g' win' → written win ≠ written win'

theorem Reveals.last {s s' : State} {more : Bool} {srcs : List Source} {ms : List Match}
    (hs : Between s) (h : WindowPost s more s' srcs)
    (hms : (∀ m ∈ ms, m.Clean) ↔ Grounded s.bytesOut s.w srcs) :
    Reveals s.bytesOut ms fun win => front s'.outbufCount (writeAll s.w srcs win) := by
  have hlim := h.limit
  rw [hs.w] at hms hlim ⊢
  refine ⟨fun _ _ => by simp [front], fun hclean win win' hwin => ?_,
    fun hdirty g g' win win' happart hu hu' => ?_⟩
  · refine front_eq_of_agree s.bytesOut h.bound ?_
    rw [← hlim]
    exact agree_writeAll h.inside (hms.mp hclean) hwin
  · refine front_ne_of_differ ?_
    rw [← hlim]
    exact differ_writeAll (fun hg => hdirty (hms.mpr hg)) happart hu hu'

theorem Reveals.cons {s s' : State} {srcs : List Source} {ms more : List Match}
    {rest : Window → List UInt8} (hs : Between s) (h : WindowPost s true s' srcs)
    (hms : (∀ m ∈ ms, m.Clean) ↔ Grounded s.bytesOut s.w srcs)
    (hrest : Reveals s'.bytesOut more rest) :
    Reveals s.bytesOut (ms ++ more) fun win =>
      front s'.outbufCount (writeAll s.w srcs win) ++ rest (writeAll s.w srcs win) := by
  have hlast := Reveals.last hs h hms
  obtain ⟨hfull, -⟩ := h.full rfl
  have hlim := h.limit
  have hb' := h.between.2
  rw [hs.w] at hlim
  refine ⟨fun win win' => ?_, fun hclean win win' hwin => ?_,
    fun hdirty g g' win win' happart hu hu' heq => ?_⟩
  · rw [List.length_append, List.length_append, hlast.length win win', hrest.length _ _]
  · rw [List.forall_mem_append] at hclean
    have hagree : Agree s'.bytesOut 0 (writeAll s.w srcs win) (writeAll s.w srcs win') := by
      intro i hi _
      have hg := hms.mp hclean.1
      rw [hs.w] at hg ⊢
      exact agree_writeAll h.inside hg hwin i hi (by omega)
    rw [show front _ _ = front _ _ from hlast.alike hclean.1 win win' hwin,
      hrest.alike hclean.2 _ _ hagree]
  · obtain ⟨hfront, hback⟩ := List.append_inj heq (hlast.length win win')
    rw [List.forall_mem_append] at hdirty
    by_cases hclean : ∀ m ∈ ms, m.Clean
    · -- the first dirty match comes later, where nothing of the new window is left
      have hvoid : ∀ g win, Untouched s'.bytesOut 0 g win := fun _ _ h0 => by omega
      exact hrest.apart (fun h => hdirty ⟨hclean, h⟩) g g' _ _ happart (hvoid _ _) (hvoid _ _)
        hback
    · exact hlast.apart hclean g g' win win' happart hu hu' hfront

/-- **Runs over all windows.**  They stop alike, or they all end in the same state but for the
window, with an output that the matches decide about. -/
theorem unzipLoop_runs (takes : ℕ → Bool) (fuel rounds n i : ℕ) (s : State) (hs : Between s) :
    (∃ e, ∀ win crc out, unzipLoop takes fuel rounds n (s.over win crc) ⟨out, i⟩ = .error e) ∨
      ∃ (n' : ℕ) (s' : State) (i' : ℕ) (written : Window → List UInt8) (ms : List Match),
        s'.copies = s.copies ++ ms ∧ Reveals s.bytesOut ms written ∧
        ∀ win crc out, ∃ win' crc', unzipLoop takes fuel rounds n (s.over win crc) ⟨out, i⟩ =
          .ok (n', s'.over win' crc', ⟨out ++ written win, i'⟩) := by
  induction rounds generalizing n i s with
  | zero => exact Or.inl ⟨.spin, fun _ _ _ => rfl⟩
  | succ rounds ih =>
    rcases inflateGetNextWindow_oblivious fuel s hs with ⟨e, he⟩ | ⟨more, s1, srcs, hpost, hok⟩
    · refine Or.inl ⟨e, fun win crc out => ?_⟩
      rw [unzipLoop, he]
      rfl
    obtain ⟨ms, hcopies, hms⟩ := hpost.copies
    by_cases htakes : takes i = true
    swap
    · refine Or.inl ⟨.fail "write", fun win crc out => ?_⟩
      obtain ⟨crc', h⟩ := hok win crc
      rw [unzipLoop, h]
      show (transformerWrite takes ⟨out, i⟩ _ >>= _) = _
      rw [transformerWrite, if_neg htakes]
      rfl
    have hrun : ∀ win crc out, ∃ crc',
        unzipLoop takes fuel (rounds + 1) n (s.over win crc) ⟨out, i⟩ =
        if more then unzipLoop takes fuel rounds (n + s1.outbufCount)
          (s1.over (writeAll s.w srcs win) crc')
          ⟨out ++ front s1.outbufCount (writeAll s.w srcs win), i + 1⟩
        else .ok (n + s1.outbufCount, s1.over (writeAll s.w srcs win) crc',
          ⟨out ++ front s1.outbufCount (writeAll s.w srcs win), i + 1⟩) := by
      intro win crc out
      obtain ⟨crc', h⟩ := hok win crc
      refine ⟨crc', ?_⟩
      rw [unzipLoop, h]
      show (transformerWrite takes ⟨out, i⟩ _ >>= _) = _
      rw [transformerWrite, if_pos htakes]
      rfl
    cases more with
    | false =>
      refine Or.inr ⟨n + s1.outbufCount, s1, i + 1, _, ms, hcopies, Reveals.last hs hpost hms,
        fun win crc out => ?_⟩
      obtain ⟨crc', h⟩ := hrun win crc out
      exact ⟨_, crc', h⟩
    | true =>
      rcases ih (n + s1.outbufCount) (i + 1) s1 hpost.between.1 with
        ⟨e, he⟩ | ⟨n', s', i', rest, more, hcopies', hreveals, hok'⟩
      · refine Or.inl ⟨e, fun win crc out => ?_⟩
        obtain ⟨crc', h⟩ := hrun win crc out
        exact h.trans (he _ _ _)
      · refine Or.inr ⟨n', s', i', _, ms ++ more, ?_, Reveals.cons hs hpost hms hreveals,
          fun win crc out => ?_⟩
        · rw [hcopies', hcopies, List.append_assoc]
        · obtain ⟨crc', h⟩ := hrun win crc out
          obtain ⟨win2, crc2, h2⟩ := hok' (writeAll s.w srcs win) crc'
            (out ++ front s1.outbufCount (writeAll s.w srcs win))
          exact ⟨win2, crc2, by rw [← List.append_assoc]; exact h.trans h2⟩

/-! ### Two runs -/

/-- Both runs are rejected in the same way, or both write the same bytes. -/
def Alike : Except Stop (ℕ × State × Output) → Except Stop (ℕ × State × Output) → Prop
  | .ok r, .ok r' => r.1 = r'.1 ∧ r.2.2.written = r'.2.2.written
  | .error e, .error e' => e = e'
  | _, _ => False

/-- The matches of the run that starts with a window of zeros; none if it is rejected. -/
def matchesOf (takes : ℕ → Bool) (fuel : ℕ) (input : Input) (out : Output) : List Match :=
  match inflateUnzipInternal takes fuel (fun _ => 0) input out with
  | .ok r => r.2.1.copies
  | .error _ => []

theorem between_freshState (win : Window) (input : Input) : Between (freshState win input) :=
  ⟨rfl, Or.inl rfl, by simp [freshState]⟩

/-- **Stale memory.**  The output depends on the input alone exactly when every match that copies
anything starts within what was decoded before it. -/
theorem alike_iff (takes : ℕ → Bool) (fuel : ℕ) (input : Input) (out : Output) :
    (∀ g g' : Window, Alike (inflateUnzipInternal takes fuel g input out)
        (inflateUnzipInternal takes fuel g' input out)) ↔
      ∀ m ∈ matchesOf takes fuel input out, m.length = 0 ∨ m.distance ≤ m.decoded := by
  show _ ↔ ∀ m ∈ matchesOf takes fuel input out, m.Clean
  obtain ⟨written, i⟩ := out
  have hover : ∀ g, freshState g input =
      (freshState (fun _ => 0) input).over g 0xffffffff := fun _ => rfl
  rcases unzipLoop_runs takes fuel fuel 0 i _ (between_freshState (fun _ => 0) input) with
    ⟨e, he⟩ | ⟨n, s, i', text, ms, hcopies, hreveals, hok⟩
  · have hrun : ∀ g, inflateUnzipInternal takes fuel g input ⟨written, i⟩ = .error e := by
      intro g
      rw [inflateUnzipInternal, hover, he]
      rfl
    simp [matchesOf, hrun, Alike]
  · have hrun : ∀ g, ∃ s' : State, s'.copies = ms ∧
        inflateUnzipInternal takes fuel g input ⟨written, i⟩ =
          .ok (n, s', ⟨written ++ text g, i'⟩) := by
      intro g
      obtain ⟨win, crc, h⟩ := hok g 0xffffffff written
      refine ⟨{ s.over win crc with bits := putBack s.bits }, hcopies, ?_⟩
      rw [inflateUnzipInternal, hover, h]
      rfl
    have hms : matchesOf takes fuel input ⟨written, i⟩ = ms := by
      obtain ⟨s', hs', h⟩ := hrun fun _ => 0
      rw [matchesOf, h]
      exact hs'
    have halike : ∀ g g', Alike (inflateUnzipInternal takes fuel g input ⟨written, i⟩)
        (inflateUnzipInternal takes fuel g' input ⟨written, i⟩) ↔ text g = text g' := by
      intro g g'
      obtain ⟨_, -, h⟩ := hrun g
      obtain ⟨_, -, h'⟩ := hrun g'
      rw [h, h']
      exact ⟨fun h => List.append_cancel_left h.2, fun h => ⟨rfl, congrArg (written ++ ·) h⟩⟩
    rw [hms]
    constructor
    · intro h
      by_contra hdirty
      refine hreveals.apart hdirty (fun _ => 0) (fun _ => 1) _ _ (fun _ => by decide)
        (fun _ _ _ => rfl) (fun _ _ _ => rfl) ((halike _ _).mp (h _ _))
    · intro hclean g g'
      exact (halike g g').mpr (hreveals.alike hclean g g' fun i _ h =>
        absurd h (by simp [freshState]))

/-- A last block of dynamic codes with one match, of length 3 and distance 1. -/
def earlyMatch : Input :=
  ⟨[13, 192, 129, 0, 0, 0, 0, 0, 144, 255, 107, 4], [], fun _ => some 0, 0, -1⟩

/-- The bytes that a run writes, if it is not rejected. -/
def writtenOf (run : Except Stop (ℕ × State × Output)) : Option (List UInt8) :=
  run.toOption.map (·.2.2.written)

theorem not_alike {run run' : Except Stop (ℕ × State × Output)} {out out' : List UInt8}
    (h : writtenOf run = some out) (h' : writtenOf run' = some out') (hne : out ≠ out') :
    ¬ Alike run run' := by
  cases run with
  | error e => cases h
  | ok r =>
    cases run' with
    | error e' => cases h'
    | ok r' =>
      rintro ⟨-, heq⟩
      exact hne (Option.some.inj (h.symm.trans ((congrArg some heq).trans h')))

/-- The match of `earlyMatch` copies the last byte of the new window three times. -/
theorem early_match_leaks :
    ¬ ∀ g g' : Window, Alike (inflateUnzipInternal (fun _ => true) 20 g earlyMatch ⟨[], 0⟩)
        (inflateUnzipInternal (fun _ => true) 20 g' earlyMatch ⟨[], 0⟩) := by
  have h0 : writtenOf (inflateUnzipInternal (fun _ => true) 20 (fun _ => 0) earlyMatch ⟨[], 0⟩) =
      some [0, 0, 0] := by decide +kernel
  have h1 : writtenOf (inflateUnzipInternal (fun _ => true) 20 (fun _ => 1) earlyMatch ⟨[], 0⟩) =
      some [1, 1, 1] := by decide +kernel
  intro h
  refine absurd (h _ _) (not_alike h0 h1 ?_)
  decide

end Rustybox.Gunzip
