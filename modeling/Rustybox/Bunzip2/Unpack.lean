import Rustybox.Bunzip2.Bounds

/-!
# Unpacking a file

`unpack_bz2_stream` behind the signature: one stream is read and written, and if "BZ" is behind it,
the next one is read from there.  What the buffer lacks of "BZ" is asked for with one `read`.

`unpackBz2Stream_spec`: an answer that is not negative is the length of what has been written, and
that is what the streams hold up to the first one that is not right.
-/

namespace Rustybox.Bunzip2

/-- The rest of what a call of `read` could give is there for the next one. -/
def Input.ofChunk (chunk : List UInt8) (reads : List (List UInt8)) : Input :=
  ⟨[], if chunk.isEmpty then reads else chunk :: reads⟩

/-- Do we have "BZ..." after last processed byte?  What is behind it. -/
def Input.behindMagic : Input → Option Input
  | ⟨b :: z :: inbuf, reads⟩ => if b = 66 ∧ z = 90 then some ⟨inbuf, reads⟩ else none
  | ⟨[b], (z :: chunk) :: reads⟩ => if b = 66 ∧ z = 90 then some (ofChunk chunk reads) else none
  | ⟨[], (b :: z :: chunk) :: reads⟩ =>
    if b = 66 ∧ z = 90 then some (ofChunk chunk reads) else none
  -- `safe_read` gives less than it is asked for
  | _ => none

def nextInput (fuel : ℕ) (old : ℕ → List UInt32) (input : Input) : Option Input :=
  (behindInput false fuel old input).bind Input.behindMagic

/-- The streams: what `i` is at the end, and what has been written behind `written` bytes.  The first
number is for the streams.  All blocks of a stream are read here before the first one is written. -/
def unpackStreams (writes : ℕ → Bool) (fuel fuel' : ℕ) (old : ℕ → List UInt32) :
    ℕ → ℕ → Input → Except Fail (ℤ × List UInt8)
  | 0, _, _ => .error .fuel
  | left + 1, written, input =>
    (readInput false fuel old input).bind fun s =>
      match pumpStream writes fuel' written s with
      | none => .error .fault
      | some p =>
        -- EOF?
        if p.i ≠ -1 ∧ p.i ≠ 0 then .ok (p.i, p.out)
        else if p.bd.headerCRC ≠ p.bd.totalCRC then .ok (p.i, p.out)
        else
          -- Successfully unpacked one BZ stream
          match nextInput fuel old input with
          | none => .ok (0, p.out)
          | some input =>
            (unpackStreams writes fuel fuel' old left (written + p.out.length) input).map
              fun r => (r.1, p.out ++ r.2)

/-- `unpack_bz2_stream`: what it returns, and what it has written. -/
def unpackBz2Stream (writes : ℕ → Bool) (fuel fuel' : ℕ) (old : ℕ → List UInt32) (input : Input) :
    Except Fail (ℤ × List UInt8) :=
  (unpackStreams writes fuel fuel' old (input.bytes.length + 1) 0 input).map fun r =>
    (if r.1 ≠ 0 then r.1 else r.2.length, r.2)

/-! ### The next stream -/

theorem Input.bytes_ofChunk (chunk : List UInt8) (reads : List (List UInt8)) :
    (ofChunk chunk reads).bytes = chunk ++ (Input.mk [] reads).bytes := by
  cases chunk with
  | nil => rfl
  | cons c chunk => rfl

theorem Input.behindMagic_some {input next : Input} (h : input.behindMagic = some next) :
    input.bytes = [66, 90] ++ next.bytes := by
  unfold behindMagic at h
  split at h
  · split at h
    · obtain ⟨rfl, rfl⟩ := ‹_ ∧ _›
      obtain rfl := Option.some.inj h
      rfl
    · cases h
  · split at h
    · obtain ⟨rfl, rfl⟩ := ‹_ ∧ _›
      obtain rfl := Option.some.inj h
      rw [bytes_ofChunk]
      rfl
    · cases h
  · split at h
    · obtain ⟨rfl, rfl⟩ := ‹_ ∧ _›
      obtain rfl := Option.some.inj h
      rw [bytes_ofChunk]
      rfl
    · cases h
  · cases h

section Next

variable {fuel : ℕ} {old : ℕ → List UInt32}

/-- Each stream is behind the one before. -/
theorem nextInput_lt {input next : Input} (hfuel : input.bits.length < fuel)
    (h : nextInput fuel old input = some next) : next.bytes.length < input.bytes.length := by
  obtain ⟨behind, hbehind, hmagic⟩ := Option.bind_eq_some_iff.mp h
  have hrel := (@behindInput_agree False false false (Or.inl rfl) fuel old input hfuel).resolve_right
    fun h => h.1
  rw [hbehind] at hrel
  obtain ⟨pos, -, cur, hdrop, -⟩ := exists_of_rel hrel
  have hlen := congrArg List.length hdrop
  have hbytes := congrArg List.length (Input.behindMagic_some hmagic)
  rw [List.length_drop, List.length_append, Input.length_bits, Input.length_bits] at hlen
  rw [List.length_append] at hbytes
  change _ = 2 + _ at hbytes
  omega

/-- The streams that can be come to. -/
def Leads (fuel : ℕ) (old : ℕ → List UInt32) : Input → Input → Prop :=
  Relation.ReflTransGen fun input next => nextInput fuel old input = some next

/-- `text` is what the streams of an input hold.  With a `gap` the last one may be one that is not
right, which holds nothing. -/
inductive Unpacks (fuel : ℕ) (old : ℕ → List UInt32) (gap : Prop) : Input → List UInt8 → Prop
  | last {input : Input} {s : Stream} {rest : List (Block × List UInt8)}
      (hread : readInput false fuel old input = .ok s) (hholds : s.Holds rest)
      (hsound : s.Sound rest) (hnext : nextInput fuel old input = none) :
      Unpacks fuel old gap input (textOf rest)
  | more {input next : Input} {s : Stream} {rest : List (Block × List UInt8)} {text : List UInt8}
      (hread : readInput false fuel old input = .ok s) (hholds : s.Holds rest)
      (hsound : s.Sound rest) (hnext : nextInput fuel old input = some next)
      (h : Unpacks fuel old gap next text) : Unpacks fuel old gap input (textOf rest ++ text)
  | gap {input : Input} {s : Stream} {rest : List (Block × List UInt8)} (hgap : gap)
      (hread : readInput false fuel old input = .ok s) (hholds : s.Holds rest)
      (hsound : ¬ s.Sound rest) (hnil : textOf rest = []) : Unpacks fuel old gap input []

end Next

/-! ### The answer -/

section Answer

variable {writes : ℕ → Bool} {fuel fuel' left written : ℕ} {old : ℕ → List UInt32} {input : Input}
  {s : Stream} {rest : List (Block × List UInt8)}

theorem unpackStreams_of_last {p : Pumped} (hread : readInput false fuel old input = .ok s)
    (hpump : pumpStream writes fuel' written s = some p)
    (hlast : (p.i ≠ -1 ∧ p.i ≠ 0) ∨ p.bd.headerCRC ≠ p.bd.totalCRC) :
    unpackStreams writes fuel fuel' old (left + 1) written input = .ok (p.i, p.out) := by
  rw [unpackStreams, hread]
  change (match pumpStream writes fuel' written s with | none => _ | some p => _) = _
  rw [hpump]
  dsimp only
  rcases hlast with hlast | hlast
  · rw [if_pos hlast]
  · rw [if_pos hlast, ite_self]

theorem unpackStreams_of_written {p : Pumped} (hread : readInput false fuel old input = .ok s)
    (hpump : pumpStream writes fuel' written s = some p) (hi : ¬ (p.i ≠ -1 ∧ p.i ≠ 0))
    (hcrc : p.bd.headerCRC = p.bd.totalCRC) :
    unpackStreams writes fuel fuel' old (left + 1) written input =
      match nextInput fuel old input with
      | none => .ok (0, p.out)
      | some next => (unpackStreams writes fuel fuel' old left (written + p.out.length) next).map
          fun r => (r.1, p.out ++ r.2) := by
  rw [unpackStreams, hread]
  change (match pumpStream writes fuel' written s with | none => _ | some p => _) = _
  rw [hpump]
  dsimp only
  rw [if_neg hi, if_neg (not_not.mpr hcrc)]

/-- What holds of the end of the streams. -/
structure Answers (writes : ℕ → Bool) (fuel : ℕ) (old : ℕ → List UInt32) (written : ℕ)
    (input : Input) (i : ℤ) (out : List UInt8) : Prop where
  le : i ≤ 0
  unpacks : i = 0 → Unpacks fuel old True input out
  whole : ∀ text, Unpacks fuel old False input text →
    (∀ k < text.length, writes (written + k) = true) → i = 0 ∧ out = text

theorem holds_unique {s' : Stream} {rest' : List (Block × List UInt8)}
    (hread : readInput false fuel old input = .ok s) (hholds : s.Holds rest)
    (hread' : readInput false fuel old input = .ok s') (hholds' : s'.Holds rest') :
    s' = s ∧ rest' = rest := by
  obtain rfl := Except.ok.inj (hread.symm.trans hread')
  exact ⟨rfl, hholds'.unique hholds⟩

/-- There is no "BZ" behind the stream. -/
theorem answers_last (hread : readInput false fuel old input = .ok s) (hholds : s.Holds rest)
    (hsound : s.Sound rest) (hnext : nextInput fuel old input = none) :
    Answers writes fuel old written input 0 (textOf rest) where
  le := le_rfl
  unpacks _ := Unpacks.last hread hholds hsound hnext
  whole text htext _ := by
    refine ⟨rfl, ?_⟩
    cases htext with
    | last hread' hholds' =>
      obtain ⟨-, rfl⟩ := holds_unique hread hholds hread' hholds'
      rfl
    | more _ _ _ hnext' => rw [hnext] at hnext'; cases hnext'
    | gap hgap => exact hgap.elim

/-- The answer for the streams behind one that is right, with what that one holds before it. -/
theorem Answers.more {next : Input} {i : ℤ} {out : List UInt8}
    (h : Answers writes fuel old (written + (textOf rest).length) next i out)
    (hread : readInput false fuel old input = .ok s) (hholds : s.Holds rest)
    (hsound : s.Sound rest) (hnext : nextInput fuel old input = some next) :
    Answers writes fuel old written input i (textOf rest ++ out) where
  le := h.le
  unpacks hzero := Unpacks.more hread hholds hsound hnext (h.unpacks hzero)
  whole text htext hwrites := by
    cases htext with
    | last _ _ _ hnext' => rw [hnext] at hnext'; cases hnext'
    | @more _ _ _ read text hread' hholds' _ hnext' htext =>
      obtain ⟨-, rfl⟩ := holds_unique hread hholds hread' hholds'
      obtain rfl := Option.some.inj (hnext.symm.trans hnext')
      have hwrites' : ∀ k < text.length, writes (written + (textOf read).length + k) = true := by
        intro k hk
        rw [Nat.add_assoc]
        refine hwrites _ ?_
        rw [List.length_append]
        exact Nat.add_lt_add_left hk _
      obtain ⟨hzero, rfl⟩ := h.whole text htext hwrites'
      exact ⟨hzero, rfl⟩
    | gap hgap => exact hgap.elim

theorem answers_failed {p : Pumped} (hread : readInput false fuel old input = .ok s)
    (hholds : s.Holds rest) (hfailed : Failed writes written (textOf rest) p) :
    Answers writes fuel old written input p.i p.out where
  le := by
    rw [hfailed.i]
    decide
  unpacks hzero := by
    rw [hfailed.i] at hzero
    cases hzero
  whole text htext hwrites := by
    have hne : ∀ more, ∃ k < (textOf rest ++ more).length, writes (written + k) ≠ true := by
      intro more
      refine ⟨p.out.length, ?_, by rw [hfailed.write]; decide⟩
      rw [List.length_append]
      exact Nat.lt_add_right _ hfailed.lt
    cases htext with
    | last hread' hholds' =>
      obtain ⟨-, rfl⟩ := holds_unique hread hholds hread' hholds'
      obtain ⟨k, hk, hwrite⟩ := hne []
      rw [List.append_nil] at hk
      exact absurd (hwrites k hk) hwrite
    | more hread' hholds' =>
      obtain ⟨-, rfl⟩ := holds_unique hread hholds hread' hholds'
      obtain ⟨k, hk, hwrite⟩ := hne _
      exact absurd (hwrites k hk) hwrite
    | gap hgap => exact hgap.elim

/-- A stream that is not right is the last one that is looked at. -/
theorem answers_not_sound {p : Pumped} (hread : readInput false fuel old input = .ok s)
    (hholds : s.Holds rest) (hsound : ¬ s.Sound rest)
    (hi : p.i < 0 ∨ p.i = 0 ∧ p.out = [] ∧ textOf rest = []) :
    Answers writes fuel old written input p.i p.out where
  le := hi.elim (fun hi => hi.le) fun hi => hi.1.le
  unpacks hzero := by
    rcases hi with hi | ⟨-, hout, hnil⟩
    · exact absurd hzero hi.ne
    · exact hout ▸ Unpacks.gap trivial hread hholds hsound hnil
  whole text htext _ := by
    cases htext with
    | last hread' hholds' hsound' =>
      obtain ⟨rfl, rfl⟩ := holds_unique hread hholds hread' hholds'
      exact absurd hsound' hsound
    | more hread' hholds' hsound' =>
      obtain ⟨rfl, rfl⟩ := holds_unique hread hholds hread' hholds'
      exact absurd hsound' hsound
    | gap hgap => exact hgap.elim

theorem unpackStreams_spec (hold : ∀ n, (old n).length = n) (hfuel : input.bits.length < fuel)
    (hleft : input.bytes.length < left) :
    (∃ next, Leads fuel old input next ∧ readInput true fuel old next = .error .longRun) ∨
      ∃ i out, (∃ N, ∀ fuel' ≥ N,
          unpackStreams writes fuel fuel' old left written input = .ok (i, out)) ∧
        Answers writes fuel old written input i out := by
  induction left generalizing written input with
  | zero => cases hleft
  | succ left ih =>
    rcases readInput_safe input hfuel hold with hlong | ⟨s, rest, hread, hholds, -⟩
    · exact Or.inl ⟨input, Relation.ReflTransGen.refl, hlong⟩
    obtain ⟨N, henough⟩ : ∃ N, (textOf rest).length / 4096 + 1 < N := ⟨_, Nat.lt_succ_self _⟩
    by_cases hsound : s.Sound rest
    · obtain ⟨p, hpump, ⟨hi, hcrc, hout⟩ | hfailed⟩ :=
        @pumpStream_of_sound writes _ written s rest hholds hsound henough
      · cases hnext : nextInput fuel old input with
        | none =>
          refine Or.inr ⟨0, textOf rest, ⟨N, fun fuel' hfuel' => ?_⟩,
            answers_last hread hholds hsound hnext⟩
          rw [unpackStreams_of_written hread (pumpStream_mono hpump hfuel') hi hcrc, hnext, hout]
        | some next =>
          have hlt := nextInput_lt hfuel hnext
          have hbits : next.bits.length < fuel := by
            rw [Input.length_bits] at hfuel ⊢
            omega
          rcases @ih (written + (textOf rest).length) next hbits (by omega) with
            ⟨last, hleads, hlong⟩ | ⟨i, out, ⟨N', hrun⟩, hanswers⟩
          · exact Or.inl ⟨last, Relation.ReflTransGen.head hnext hleads, hlong⟩
          refine Or.inr ⟨i, textOf rest ++ out, ⟨max N N', fun fuel' hfuel' => ?_⟩,
            hanswers.more hread hholds hsound hnext⟩
          rw [unpackStreams_of_written hread
            (pumpStream_mono hpump (le_trans (le_max_left N N') hfuel')) hi hcrc, hnext, hout]
          dsimp only
          rw [hrun fuel' (le_trans (le_max_right N N') hfuel')]
          rfl
      · have hi : p.i ≠ -1 ∧ p.i ≠ 0 := by
          rw [hfailed.i]
          decide
        exact Or.inr ⟨p.i, p.out, ⟨N, fun fuel' hfuel' =>
          unpackStreams_of_last hread (pumpStream_mono hpump hfuel') (Or.inl hi)⟩,
          answers_failed hread hholds hfailed⟩
    · obtain ⟨p, hpump, hlast, hi⟩ :=
        @pumpStream_of_not_sound writes _ written s rest hholds hsound henough
      exact Or.inr ⟨p.i, p.out, ⟨N, fun fuel' hfuel' =>
        unpackStreams_of_last hread (pumpStream_mono hpump hfuel') hlast⟩,
        answers_not_sound hread hholds hsound hi⟩

/-- **What an answer of `unpack_bz2_stream` says.**  If it is not negative, it is the length of what
has been written, which is what the streams hold, up to one that is not right and holds nothing; and
if all streams are right and all writes succeed, it is the length of what they hold.  Else the test of
runs that the source does not make would fail in one of the streams. -/
theorem unpackBz2Stream_spec (writes : ℕ → Bool) (hold : ∀ n, (old n).length = n)
    (hfuel : input.bits.length < fuel) :
    (∃ next, Leads fuel old input next ∧ readInput true fuel old next = .error .longRun) ∨
      ∃ n out, (∃ N, ∀ fuel' ≥ N, unpackBz2Stream writes fuel fuel' old input = .ok (n, out)) ∧
        (0 ≤ n → n = out.length ∧ Unpacks fuel old True input out) ∧
        ∀ text, Unpacks fuel old False input text → (∀ k < text.length, writes k = true) →
          n = text.length ∧ out = text := by
  rcases @unpackStreams_spec writes fuel _ 0 old input hold hfuel (Nat.lt_succ_self _) with
    hlong | ⟨i, out, ⟨N, hrun⟩, hanswers⟩
  · exact Or.inl hlong
  refine Or.inr ⟨if i ≠ 0 then i else out.length, out, ⟨N, fun fuel' hfuel' => ?_⟩, fun hn => ?_,
    fun text htext hwrites => ?_⟩
  · rw [unpackBz2Stream, hrun fuel' hfuel']
    rfl
  · have hzero : i = 0 := by
      by_contra hne
      rw [if_pos hne] at hn
      exact hne (le_antisymm hanswers.le hn)
    rw [if_neg (not_not.mpr hzero)]
    exact ⟨rfl, hanswers.unpacks hzero⟩
  · obtain ⟨hzero, rfl⟩ := hanswers.whole text htext fun k hk => by
      rw [Nat.zero_add]
      exact hwrites k hk
    rw [if_neg (not_not.mpr hzero)]
    exact ⟨rfl, rfl⟩

/-- The file for "banana", of which no write succeeds. -/
theorem unpackBz2Stream_spec_banana :
    (∃ next, Leads 297 (fun n => List.replicate n 0) ⟨[], [bananaFile]⟩ next ∧
        readInput true 297 (fun n => List.replicate n 0) next = .error .longRun) ∨
      ∃ n out, (∃ N, ∀ fuel' ≥ N, unpackBz2Stream (fun _ => false) 297 fuel'
          (fun n => List.replicate n 0) ⟨[], [bananaFile]⟩ = .ok (n, out)) ∧
        (0 ≤ n → n = out.length ∧
          Unpacks 297 (fun n => List.replicate n 0) True ⟨[], [bananaFile]⟩ out) ∧
        ∀ text, Unpacks 297 (fun n => List.replicate n 0) False ⟨[], [bananaFile]⟩ text →
          (∀ k < text.length, (fun _ => false) k = true) → n = text.length ∧ out = text :=
  unpackBz2Stream_spec _ (fun n => List.length_replicate) (by rw [Input.length_bits]; decide)

end Answer

end Rustybox.Bunzip2
