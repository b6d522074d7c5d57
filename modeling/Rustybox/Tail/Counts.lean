import Rustybox.Tail.Tail
import Rustybox.Lib.Lines

/-!
# What tail leaves out

With a plus sign what comes before the line or byte is skipped, and the rest is written as it is
read.

As many bytes as are wanted are kept at the start of the buffer.
-/

namespace Rustybox.Tail

open Rust
open Lines

variable {o : Options} {env : Env}

def wanted (o : Options) (input : Str) : Str :=
  if o.fromTop then
    if o.bytes then input.drop (o.count - 1)
    else ((lines newline input).drop (o.count - 1)).flatten
  else if o.bytes then input.drop (input.length - o.count)
  else lastLines newline o.count input

theorem holds_start {input tailbuf : Str} (htailbuf : tailbuf.length = bufferSize o) :
    Holds [] (start o input tailbuf) := by
  have hsize := bufferSize_lt o
  refine ⟨rfl, rfl, htailbuf, ?_, ?_⟩
  · exact Nat.lt_of_lt_of_le (by decide) hsize.1
  · exact Nat.lt_trans hsize.2 (by decide)

theorem load_suffix {buf data : Str} (hbuf : buf.take data.length = data) {n : ℕ}
    (hn : n ≤ data.length) : load buf n (data.length - n) = .ok (data.drop n) := by
  have hsplit : buf = data.take n ++ data.drop n ++ buf.drop data.length := by
    rw [List.take_append_drop]
    exact (List.take_append_drop _ _).symm.trans (congrArg (· ++ _) hbuf)
  have hload := load_ok _ hsplit
  rw [List.length_take, Nat.min_eq_left hn, List.length_drop, Int.ofNat_sub hn] at hload
  exact hload

/-- The end of what has been read is written, once so much of it has been skipped. -/
theorem writeFrom_ok {data : Str} {s : State} (hbuf : s.tailbuf.take data.length = data) {n : ℕ}
    {nwrite : ℤ} {seen : ℕ} (hskip : afterSkip o data.length data s.seen = (nwrite, seen))
    (hn : data.length - n = nwrite.toNat) (hnwrite : nwrite ≤ data.length - n) :
    writeFrom o data.length data s = .ok { s with seen, out := s.out ++ data.drop n } := by
  rw [writeFrom, hskip]
  dsimp only
  split
  · obtain rfl : nwrite = data.length - n := by omega
    have hload := load_suffix hbuf (show n ≤ data.length by omega)
    rw [Int.sub_sub_self, hload, ok_bind]
    rfl
  · rw [List.drop_of_length_le (by omega), List.append_nil]

theorem skipLines_spec {data : Str} {seen : ℕ} (hseen : seen < o.count) :
    skipLines o data seen =
      ((skip newline (o.count - seen) data).length, min o.count (seen + data.count newline)) := by
  induction data generalizing seen with
  | nil =>
    rw [skipLines, skip_nil]
    rw [List.count_nil, Nat.add_zero, Nat.min_eq_right (Nat.le_of_lt hseen)]
    rfl
  | cons c cs ih =>
    obtain ⟨k, hk⟩ : ∃ k, o.count - seen = k + 1 := ⟨o.count - seen - 1, by omega⟩
    rw [skipLines, hk, skip]
    by_cases hsep : c = newline
    · rw [if_pos hsep, if_pos hsep, hsep, List.count_cons_self]
      by_cases hlast : seen + 1 = o.count
      · obtain rfl : k = 0 := by omega
        rw [if_pos hlast, skip, ← hlast]
        congr 1
        omega
      · rw [if_neg hlast, ih (by omega)]
        have hk' : o.count - (seen + 1) = k := by omega
        rw [hk']
        congr 1
        omega
    · rw [if_neg hsep, if_neg hsep, List.count_cons_of_ne hsep, ih hseen, hk]

/-- The state between two turns, from the top: nothing is kept, and of what has been read what is
wanted has been written. -/
structure FromTop (o : Options) (input done kept : Str) (s : State) : Prop where
  all : input = done ++ s.fd.rest
  empty : kept = []
  holds : Holds [] s
  size : s.tailbufsize = 8192
  out : s.out = wanted o done

theorem FromTop.chunk_eq {input done kept : Str} {s : State} (h : FromTop o input done kept s) :
    chunk kept s = s.fd.rest.take 8192 := by
  rw [chunk, h.empty, h.size]
  rfl

theorem cInt_length {data : Str} (h : data.length < 2 ^ 31) : cInt data.length = data.length :=
  cInt_of_mem (by omega) (by omega)

/-- A turn from the top, when so many bytes are skipped. -/
theorem FromTop.turn (htop : o.fromTop = true) {input done kept : Str} {s : State}
    (h : FromTop o input done kept s) (hrest : s.fd.rest ≠ []) {data : Str}
    (hdata : chunk kept s = data) {n : ℕ} {nwrite : ℤ} {seen : ℕ}
    (hskip : afterSkip o data.length data s.seen = (nwrite, seen))
    (hn : data.length - n = nwrite.toNat) (hnwrite : nwrite ≤ data.length - n)
    (hwanted : wanted o (done ++ data) = wanted o done ++ data.drop n) :
    ∃ s', Tail.turn o env s = .ok (true, s') ∧ s.fd.rest = data ++ s'.fd.rest ∧
      FromTop o input (done ++ data) [] s' ∧ s'.seen = seen := by
  have hlength : data.length ≤ 8192 := by
    rw [← hdata, h.chunk_eq]
    exact List.length_take_le _ _
  obtain rfl := h.empty
  have hpos := List.length_pos_iff.mpr (h.holds.chunk_ne_nil hrest)
  obtain ⟨fd, tailbuf, hsplit, hsize, htake, hturn⟩ := @Holds.turn o env [] s h.holds
  rw [hdata] at hsplit htake hturn hpos
  have hwrite : writeFrom o data.length data { s with fd, tailbuf } = _ :=
    writeFrom_ok htake hskip hn hnwrite
  refine ⟨{ s with fd, tailbuf, seen, out := s.out ++ data.drop n }, ?_, hsplit,
    ⟨?_, rfl, ⟨rfl, h.holds.taillen, hsize, h.holds.room, h.holds.bound⟩, h.size, ?_⟩, rfl⟩
  · rw [hturn, cInt_length (by omega), handle, if_neg (by omega), if_pos htop, hwrite]
    rfl
  · rw [h.all, hsplit, List.append_assoc]
  · rw [hwanted, ← h.out]

/-! ### Lines -/

/-- `seen` counts the lines of what has been read, until it is at the one to start from. -/
def SeenLines (o : Options) (done : Str) (seen : ℕ) : Prop :=
  (seen < o.count ∧ seen = 1 + done.count newline) ∨
    (o.count ≤ seen ∧ o.count - 1 ≤ done.count newline)

theorem wanted_top_lines (htop : o.fromTop = true) (hlines : o.bytes = false) (input : Str) :
    wanted o input = skip newline (o.count - 1) input := by
  rw [wanted, if_pos htop, if_neg (by rw [hlines]; exact Bool.false_ne_true), skip_eq]

theorem top_lines_turn (htop : o.fromTop = true) (hlines : o.bytes = false)
    {input done kept : Str} {s : State} (h : FromTop o input done kept s)
    (hseen : SeenLines o done s.seen) (hrest : s.fd.rest ≠ []) :
    ∃ s', turn o env s = .ok (true, s') ∧ s.fd.rest = chunk kept s ++ s'.fd.rest ∧
      FromTop o input (done ++ chunk kept s) [] s' ∧
      SeenLines o (done ++ chunk kept s) s'.seen := by
  generalize hdata : chunk kept s = data
  have hbytes : ¬ o.bytes = true := by
    rw [hlines]
    exact Bool.false_ne_true
  rcases hseen with ⟨hmore, hcount⟩ | ⟨hpast, hcount⟩
  · -- Some of the lines to skip may be in what is read.
    obtain ⟨hnone, hskip⟩ := skip_append_of_lt (show done.count newline < o.count - 1 by omega) data
    have hleft : o.count - 1 - done.count newline = o.count - s.seen := by omega
    rw [hleft] at hskip
    have hsuffix := List.suffix_iff_eq_drop.mp (skip_suffix newline (o.count - s.seen) data)
    have hle := (skip_suffix newline (o.count - s.seen) data).length_le
    have hafter : afterSkip o data.length data s.seen =
        (((skip newline (o.count - s.seen) data).length : ℤ),
          min o.count (s.seen + data.count newline)) := by
      rw [afterSkip, if_pos hmore, if_neg hbytes, skipLines_spec hmore]
    obtain ⟨s', hturn, hsplit, hnext, hseen'⟩ := @FromTop.turn o env htop _ _ _ _ h hrest _ hdata
      (data.length - (skip newline (o.count - s.seen) data).length) _ _ hafter (by omega) (by omega)
      (by rw [wanted_top_lines htop hlines, wanted_top_lines htop hlines, hskip, hnone,
          List.nil_append, ← hsuffix])
    refine ⟨s', hturn, hsplit, hnext, ?_⟩
    rw [SeenLines, hseen', List.count_append]
    omega
  · have hafter : afterSkip o data.length data s.seen = ((data.length : ℤ), s.seen) := by
      rw [afterSkip, if_neg (by omega)]
    obtain ⟨s', hturn, hsplit, hnext, hseen'⟩ := @FromTop.turn o env htop _ _ _ _ h hrest _ hdata 0
      _ _ hafter (by omega) (by omega) (by
        rw [wanted_top_lines htop hlines, wanted_top_lines htop hlines,
          skip_append_of_le hcount, List.drop_zero])
    refine ⟨s', hturn, hsplit, hnext, Or.inr ⟨hseen' ▸ hpast, ?_⟩⟩
    rw [List.count_append]
    omega

theorem top_lines_right (htop : o.fromTop = true) (hlines : o.bytes = false) (input : Str) :
    tailMain o env input = some (.ok (wanted o input)) := by
  have hgoes : Goes o env fun done kept s =>
      FromTop o input done kept s ∧ SeenLines o done s.seen := by
    refine ⟨?_, ?_⟩
    · rintro done kept s ⟨h, _⟩
      exact h.empty ▸ h.holds
    · rintro done kept s ⟨h, hseen⟩ hrest
      obtain ⟨s', hturn, hsplit, hnext, hseen'⟩ := top_lines_turn htop hlines h hseen hrest
      exact ⟨s', [], hturn, hsplit, hnext, hseen'⟩
  have hstart : ∀ tailbuf, tailbuf.length = bufferSize o →
      FromTop o input [] [] (start o input tailbuf) ∧
        SeenLines o [] (start o input tailbuf).seen := by
    intro tailbuf htailbuf
    refine ⟨⟨rfl, rfl, holds_start htailbuf, ?_, ?_⟩, ?_⟩
    · rw [start, bufferSize, htop]
      rfl
    · rw [wanted_top_lines htop hlines, skip_nil]
      rfl
    · rw [SeenLines, start]
      dsimp only
      rw [List.count_nil]
      omega
  obtain ⟨kept, s, ⟨h, _⟩, hmain⟩ := hgoes.tailMain hstart
  rw [hmain, outcome, if_pos htop, h.out]

/-! ### Bytes -/

/-- `seen` counts the bytes of what has been read, until it is at the one to start from.  What is
still to skip is in the range of the type, or it is so with the bytes of the next read. -/
def SeenBytes (o : Options) (done : Str) (rest : Str) (seen : ℕ) : Prop :=
  ((seen < o.count ∧ seen = 1 + done.length) ∨ (o.count ≤ seen ∧ o.count - 1 ≤ done.length)) ∧
    (rest ≠ [] → o.count ≤ 2 ^ 31 + 8193 ∧
      o.count ≤ 2 ^ 31 + 1 + done.length + min 8192 rest.length)

theorem wanted_top_bytes (htop : o.fromTop = true) (hbytes : o.bytes = true) (input : Str) :
    wanted o input = input.drop (o.count - 1) := by
  rw [wanted, if_pos htop, if_pos hbytes]

theorem top_bytes_turn (htop : o.fromTop = true) (hbytes : o.bytes = true)
    {input done kept : Str} {s : State} (h : FromTop o input done kept s)
    (hseen : SeenBytes o done s.fd.rest s.seen) (hrest : s.fd.rest ≠ []) :
    ∃ s', turn o env s = .ok (true, s') ∧ s.fd.rest = chunk kept s ++ s'.fd.rest ∧
      FromTop o input (done ++ chunk kept s) [] s' ∧
      SeenBytes o (done ++ chunk kept s) s'.fd.rest s'.seen := by
  have hlength : (chunk kept s).length = min 8192 s.fd.rest.length := by
    rw [h.chunk_eq, List.length_take]
  generalize hdata : chunk kept s = data at hlength
  obtain ⟨hseen, hfits⟩ := hseen
  obtain ⟨hbound, hcount⟩ := hfits hrest
  have hwanted : wanted o (done ++ data) =
      wanted o done ++ data.drop (o.count - 1 - done.length) := by
    rw [wanted_top_bytes htop hbytes, wanted_top_bytes htop hbytes, List.drop_append]
  rcases hseen with ⟨hmore, hat⟩ | ⟨hpast, hat⟩
  · have hafter : afterSkip o data.length data s.seen =
        ((data.length : ℤ) - (o.count - s.seen), s.seen + data.length) := by
      have hwrap : ((s.seen + (data.length : ℤ)) % 2 ^ 32).toNat = s.seen + data.length := by
        omega
      rw [afterSkip, if_pos hmore, if_pos hbytes, hwrap, cInt_of_mem (by omega) (by omega)]
    obtain ⟨s', hturn, hsplit, hnext, hseen'⟩ := @FromTop.turn o env htop _ _ _ _ h hrest _ hdata
      (o.count - 1 - done.length) _ _ hafter (by omega) (by omega) hwanted
    refine ⟨s', hturn, hsplit, hnext, ?_, ?_⟩
    · rw [hseen', List.length_append]
      omega
    · intro _
      rw [List.length_append]
      omega
  · have hafter : afterSkip o data.length data s.seen = ((data.length : ℤ), s.seen) := by
      rw [afterSkip, if_neg (by omega)]
    obtain ⟨s', hturn, hsplit, hnext, hseen'⟩ := @FromTop.turn o env htop _ _ _ _ h hrest _ hdata
      (o.count - 1 - done.length) _ _ hafter (by omega) (by omega) hwanted
    refine ⟨s', hturn, hsplit, hnext, ?_, ?_⟩
    · rw [hseen', List.length_append]
      omega
    · intro _
      rw [List.length_append]
      omega

theorem top_bytes_right (htop : o.fromTop = true) (hbytes : o.bytes = true) {input : Str}
    (hfits : input ≠ [] → o.count ≤ 2 ^ 31 + 1 + min 8192 input.length) :
    tailMain o env input = some (.ok (wanted o input)) := by
  have hgoes : Goes o env fun done kept s =>
      FromTop o input done kept s ∧ SeenBytes o done s.fd.rest s.seen := by
    refine ⟨?_, ?_⟩
    · rintro done kept s ⟨h, _⟩
      exact h.empty ▸ h.holds
    · rintro done kept s ⟨h, hseen⟩ hrest
      obtain ⟨s', hturn, hsplit, hnext, hseen'⟩ := top_bytes_turn htop hbytes h hseen hrest
      exact ⟨s', [], hturn, hsplit, hnext, hseen'⟩
  have hstart : ∀ tailbuf, tailbuf.length = bufferSize o →
      FromTop o input [] [] (start o input tailbuf) ∧
        SeenBytes o [] input (start o input tailbuf).seen := by
    intro tailbuf htailbuf
    refine ⟨⟨rfl, rfl, holds_start htailbuf, ?_, ?_⟩, ?_, ?_⟩
    · rw [start, bufferSize, htop]
      rfl
    · rw [wanted_top_bytes htop hbytes, List.drop_nil]
      rfl
    · rw [start]
      dsimp only
      rw [List.length_nil]
      omega
    · intro hinput
      have hcount := hfits hinput
      rw [List.length_nil]
      omega
  obtain ⟨kept, s, ⟨h, _⟩, hmain⟩ := hgoes.tailMain hstart
  rw [hmain, outcome, if_pos htop, h.out]

/-! ## The last bytes -/

theorem wanted_zero (htop : o.fromTop = false) (hcount : o.count = 0) (input : Str) :
    wanted o input = [] := by
  rw [wanted, if_neg (by rw [htop]; exact Bool.false_ne_true), hcount, Nat.sub_zero,
    List.drop_length, lastLines, Nat.sub_zero, List.drop_length, List.flatten_nil]
  split <;> rfl

theorem wanted_bytes (htop : o.fromTop = false) (hbytes : o.bytes = true) (input : Str) :
    wanted o input = input.drop (input.length - o.count) := by
  rw [wanted, if_neg (by rw [htop]; exact Bool.false_ne_true), if_pos hbytes]

theorem lastBytes_append (n : ℕ) (l m : Str) :
    (l.drop (l.length - n) ++ m).drop ((l.drop (l.length - n) ++ m).length - n) =
      (l ++ m).drop ((l ++ m).length - n) := by
  have hsame : l.drop (l.length - n) ++ m = (l ++ m).drop (l.length - n) := by
    rw [List.drop_append_of_le_length (Nat.sub_le _ _)]
  rw [hsame, List.drop_drop, List.length_drop, List.length_append]
  congr 1
  omega

theorem Holds.read (htop : o.fromTop = false) {kept : Str} {s : State} (h : Holds kept s)
    (hrest : s.fd.rest ≠ []) (hfits : (chunk kept s).length < 2 ^ 31) :
    ∃ fd tailbuf, s.fd.rest = chunk kept s ++ fd.rest ∧ tailbuf.length = s.tailbufsize ∧
      tailbuf.take (kept ++ chunk kept s).length = kept ++ chunk kept s ∧
      Tail.turn o env s =
        if o.count = 0 then .ok (true, { s with fd, tailbuf })
        else if o.bytes then do
          let s ← keepBytes o (chunk kept s).length { s with fd, tailbuf }
          return (true, s)
        else do
          let s ← dropLines o (chunk kept s).length (chunk kept s) { s with fd, tailbuf }
          let s ← grow env s
          return (true, s) := by
  have hpos := List.length_pos_iff.mpr (h.chunk_ne_nil hrest)
  obtain ⟨fd, tailbuf, hsplit, hsize, htake, hturn⟩ := @Holds.turn o env kept s h
  refine ⟨fd, tailbuf, hsplit, hsize, htake, ?_⟩
  rw [hturn, cInt_length hfits, handle, if_neg (by omega),
    if_neg (by rw [htop]; exact Bool.false_ne_true)]

theorem keepBytes_ok (hcount : o.count < 2 ^ 31) {data : Str} {s : State}
    (htake : s.tailbuf.take data.length = data) (hdata : data.length < 2 ^ 31) {n : ℕ}
    (hn : s.taillen + n = data.length) :
    ∃ s', keepBytes o n s = .ok s' ∧
      s'.tailbuf.take (data.drop (data.length - o.count)).length =
        data.drop (data.length - o.count) ∧
      s'.taillen = (data.drop (data.length - o.count)).length ∧
      s'.tailbuf.length = s.tailbuf.length ∧ s'.tailbufsize = s.tailbufsize ∧ s'.fd = s.fd ∧
      s'.out = s.out := by
  rw [keepBytes, hn, cInt_length hdata, cInt_of_mem (by omega) (by omega)]
  by_cases hlt : o.count < data.length
  · have hfront : (data.take (data.length - o.count)).length = data.length - o.count := by
      rw [List.length_take]
      omega
    have hkeep : (data.drop (data.length - o.count)).length = o.count := by
      rw [List.length_drop]
      omega
    obtain ⟨tailbuf, hmove, hsize, htake'⟩ := @moveDown_ok s.tailbuf
      (data.take (data.length - o.count)) (data.drop (data.length - o.count))
      (by rw [List.take_append_drop, htake])
    rw [hfront, hkeep, Int.ofNat_sub (Nat.le_of_lt hlt)] at hmove
    refine ⟨{ s with tailbuf, taillen := o.count }, ?_, htake', ?_, hsize, rfl, rfl, rfl⟩
    · rw [if_pos (Int.ofNat_lt.mpr hlt), hmove, ok_bind]
      rfl
    · rw [hkeep]
  · have hall : data.length - o.count = 0 := by omega
    rw [hall, List.drop_zero, if_neg (by omega)]
    exact ⟨_, rfl, htake, rfl, rfl, rfl, rfl, rfl⟩

/-- The state between two turns: what is wanted of what has been read stands in the buffer. -/
structure Keeping (o : Options) (input done kept : Str) (s : State) : Prop where
  all : input = done ++ s.fd.rest
  wanted_ : kept = wanted o done
  holds : Holds kept s
  size : s.tailbufsize = o.count + 8192
  out : s.out = []

theorem right_of_keeping (htop : o.fromTop = false) {input : Str}
    (hgoes : Goes o env (Keeping o input)) (hsize : bufferSize o = o.count + 8192)
    (hnone : wanted o [] = []) : tailMain o env input = some (.ok (wanted o input)) := by
  have hstart : ∀ tailbuf, tailbuf.length = bufferSize o →
      Keeping o input [] [] (start o input tailbuf) := by
    intro tailbuf htailbuf
    exact ⟨rfl, hnone.symm, holds_start htailbuf, hsize, rfl⟩
  obtain ⟨kept, s, h, hmain⟩ := hgoes.tailMain hstart
  rw [hmain, outcome, if_neg (by rw [htop]; exact Bool.false_ne_true), h.out, List.nil_append,
    h.wanted_]

theorem zero_right (htop : o.fromTop = false) (hcount : o.count = 0) (input : Str) :
    tailMain o env input = some (.ok (wanted o input)) := by
  have hsize : bufferSize o = o.count + 8192 := by
    rw [bufferSize, hcount]
    split <;> rfl
  refine right_of_keeping htop ⟨fun h => h.holds, ?_⟩ hsize (wanted_zero htop hcount [])
  intro done kept s h hrest
  obtain rfl : kept = [] := h.wanted_.trans (wanted_zero htop hcount done)
  have hholds := h.holds
  have hlength : (chunk [] s).length ≤ 8192 := by
    rw [chunk, h.size, hcount, List.length_take]
    omega
  obtain ⟨fd, tailbuf, hsplit, hsize', _, hturn⟩ :=
    @Holds.read o env htop [] s h.holds hrest (by omega)
  rw [if_pos hcount] at hturn
  refine ⟨{ s with fd, tailbuf }, [], hturn, hsplit, ?_, ?_, ?_, h.size, h.out⟩
  · rw [h.all, hsplit, List.append_assoc]
  · exact (wanted_zero htop hcount _).symm
  · exact ⟨rfl, hholds.taillen, hsize', hholds.room, hholds.bound⟩

theorem bytes_right (htop : o.fromTop = false) (hbytes : o.bytes = true) (hpos : 0 < o.count)
    (hcount : o.count < 2 ^ 31) {input : Str}
    (hfits : o.count ≤ 2 ^ 31 - 8193 ∨ input.length < 2 ^ 31) :
    tailMain o env input = some (.ok (wanted o input)) := by
  have hsize : bufferSize o = o.count + 8192 := by
    rw [bufferSize, if_pos ⟨htop, hbytes⟩]
    omega
  have hnone : wanted o [] = [] := by rw [wanted_bytes htop hbytes, List.drop_nil]
  refine right_of_keeping htop ⟨fun h => h.holds, ?_⟩ hsize hnone
  intro done kept s h hrest
  have hkept := h.wanted_
  rw [wanted_bytes htop hbytes] at hkept
  -- What is kept and what is read fit in the range.
  have hrange : kept.length + (chunk kept s).length < 2 ^ 31 := by
    have hchunk : (chunk kept s).length ≤ s.fd.rest.length := by
      rw [chunk, List.length_take]
      omega
    have hroom : kept.length + (chunk kept s).length ≤ o.count + 8192 := by
      have hroom := h.holds.room
      rw [h.size] at hroom
      rw [chunk, h.size, List.length_take]
      omega
    have hall := congrArg List.length h.all
    have hless := congrArg List.length hkept
    rw [List.length_append] at hall
    rw [List.length_drop] at hless
    omega
  obtain ⟨fd, tailbuf, hsplit, hsize', htake, hturn⟩ :=
    @Holds.read o env htop kept s h.holds hrest (by omega)
  obtain ⟨s', hkeep, htake', hlen, hlength, hsize'', hfd, hout⟩ :=
    @keepBytes_ok o hcount (kept ++ chunk kept s) { s with fd, tailbuf } htake
      (by rw [List.length_append]; exact hrange) (chunk kept s).length
      (by rw [h.holds.taillen, List.length_append]; rfl)
  rw [if_neg (by omega), if_pos hbytes, hkeep, ok_bind] at hturn
  have hwanted : (kept ++ chunk kept s).drop ((kept ++ chunk kept s).length - o.count) =
      wanted o (done ++ chunk kept s) := by
    rw [wanted_bytes htop hbytes, ← lastBytes_append o.count done, ← hkept]
  rw [hwanted] at htake' hlen
  have hbound := h.holds.bound
  refine ⟨s', wanted o (done ++ chunk kept s), hturn, by rw [hfd]; exact hsplit, ?_, rfl, ?_,
    hsize''.trans h.size, hout.trans h.out⟩
  · rw [hfd, h.all, hsplit, List.append_assoc]
  · refine ⟨htake', hlen, (hlength.trans hsize').trans hsize''.symm, ?_, ?_⟩
    · rw [hsize'', wanted_bytes htop hbytes, List.length_drop]
      change _ < s.tailbufsize
      rw [h.size]
      omega
    · rw [hsize'']
      exact hbound

end Rustybox.Tail
