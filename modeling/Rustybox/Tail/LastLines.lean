import Rustybox.Tail.Counts

/-!
# The last lines

The buffer keeps the lines that may be among the last ones, and grows with them.  Its size is
computed in a `c_int`.
-/

namespace Rustybox.Tail

open Rust
open Lines

variable {o : Options} {env : Env}

/-- The first parts of the input, up to where a read ends.  A read fills a buffer of that size,
which keeps the last lines of what has been read. -/
def readEnds (n : ℕ) : ℕ → ℕ → Str → Str → List Str
  | 0, _, _, _ => []
  | reads + 1, size, done, rest =>
    if rest = [] then []
    else
      let room := size - (lastLines newline n done).length
      let done := done ++ rest.take room
      done :: readEnds n reads (max size ((lastLines newline n done).length + 8192)) done
        (rest.drop room)

/-- A `c_int` holds what is kept, with room for a read. -/
def Fits (n : ℕ) (done : Str) : Prop := (lastLines newline n done).length ≤ 2 ^ 31 - 8193

theorem scan_ok {k : ℕ} {l : Str} (hk : k ≤ l.count newline) (rest : Str) :
    scan k (l ++ rest) = .ok (l.length - (skip newline k l).length) := by
  induction l generalizing k with
  | nil =>
    obtain rfl : k = 0 := Nat.le_zero.mp hk
    rw [List.nil_append]
    cases rest <;> rfl
  | cons c cs ih =>
    rw [List.cons_append, scan]
    cases k with
    | zero =>
      rw [if_pos Int.natCast_zero, skip, Nat.sub_self]
    | succ k =>
      have hle := fun k => (skip_suffix newline k cs).length_le
      rw [if_neg (by omega), skip]
      by_cases hsep : c = newline
      · rw [hsep, List.count_cons_self] at hk
        have hless : ((k + 1 : ℕ) : ℤ) - 1 = k := by omega
        rw [if_pos hsep, if_pos hsep, hless, ih (by omega), ok_bind, List.length_cons]
        exact congrArg Except.ok (by have := hle k; omega)
      · rw [List.count_cons_of_ne hsep] at hk
        rw [if_neg hsep, if_neg hsep, ih hk, ok_bind, List.length_cons]
        exact congrArg Except.ok (by have := hle (k + 1); omega)

theorem dropLines_ok (hpos : 0 < o.count) (hcount : o.count < 2 ^ 31) {kept data : Str}
    (hdata : data ≠ []) {s : State} (htake : s.tailbuf.take (kept ++ data).length = kept ++ data)
    (hrange : (kept ++ data).length < 2 ^ 31) (hlen : s.taillen = kept.length)
    (hseen : s.newlinesSeen = kept.count newline) :
    ∃ s', dropLines o data.length data s = .ok s' ∧
      s'.tailbuf.take (lastLines newline o.count (kept ++ data)).length =
        lastLines newline o.count (kept ++ data) ∧
      s'.taillen = (lastLines newline o.count (kept ++ data)).length ∧
      s'.newlinesSeen = (lastLines newline o.count (kept ++ data)).count newline ∧
      s'.tailbuf.length = s.tailbuf.length ∧ s'.tailbufsize = s.tailbufsize ∧ s'.fd = s.fd ∧
      s'.out = s.out := by
  have hnewlines : (kept ++ data).count newline ≤ (kept ++ data).length := List.count_le_length
  have hsum : s.newlinesSeen + data.count newline = ((kept ++ data).count newline : ℕ) := by
    rw [hseen, List.count_append, Int.natCast_add]
  have htotal : s.taillen + data.length = ((kept ++ data).length : ℕ) := by
    rw [hlen, List.length_append, Int.natCast_add]
  have hextra : (if data.getLast? = some newline then 0 else 1 : ℤ) =
      (extra newline (kept ++ data) : ℕ) := by
    obtain ⟨front, c, hfront⟩ := (List.eq_nil_or_concat' data).resolve_left hdata
    rw [extra_append kept hdata, extra, hfront, List.getLast?_concat]
    simp only [Option.mem_def, Option.some.injEq, forall_eq']
    split <;> rfl
  have hone : extra newline (kept ++ data) ≤ 1 := extra_le (kept ++ data)
  have hsumint : cInt (s.newlinesSeen + data.count newline) =
      ((kept ++ data).count newline : ℕ) := by
    rw [hsum]
    exact cInt_of_mem (by omega) (by omega)
  have hcountint : cInt o.count = o.count := cInt_of_mem (by omega) (by omega)
  rw [dropLines, hsumint, hcountint]
  dsimp only
  clear hsumint hcountint
  by_cases hless : (kept ++ data).count newline < o.count
  · have hall := lastLines_of_le (show (kept ++ data).count newline +
      extra newline (kept ++ data) ≤ o.count by omega)
    rw [if_pos (Int.ofNat_lt.mpr hless), hall, htotal, cInt_length hrange]
    exact ⟨_, rfl, htake, rfl, rfl, rfl, rfl, rfl, rfl⟩
  · rw [if_neg (by omega), hsum, hextra]
    have hk : ((kept ++ data).count newline : ℤ) + extra newline (kept ++ data) - o.count =
        ((kept ++ data).count newline + extra newline (kept ++ data) - o.count : ℕ) := by omega
    rw [hk, cInt_of_mem (by omega) (by omega)]
    have hskip := @lastLines_eq _ _ newline o.count (kept ++ data)
    have hscan := @scan_ok ((kept ++ data).count newline + extra newline (kept ++ data) - o.count)
      (kept ++ data) (by omega) (s.tailbuf.drop (kept ++ data).length)
    have hbuf : kept ++ data ++ s.tailbuf.drop (kept ++ data).length = s.tailbuf :=
      (congrArg (· ++ _) htake).symm.trans (List.take_append_drop _ _)
    have hcountkept := count_lastLines hpos
      (show o.count ≤ (kept ++ data).count newline + extra newline (kept ++ data) by omega)
    have hsuffix : lastLines newline o.count (kept ++ data) <:+ kept ++ data := by
      rw [hskip]
      exact skip_suffix newline _ _
    rw [hbuf, ← hskip] at hscan
    clear hskip
    generalize lastLines newline o.count (kept ++ data) = last at *
    obtain ⟨front, hfront⟩ := hsuffix
    have hlength := congrArg List.length hfront
    rw [List.length_append] at hlength
    have hoffset : (kept ++ data).length - last.length = front.length := by omega
    rw [hoffset] at hscan
    rw [hscan, ok_bind]
    have hleft : s.taillen + ((data.length : ℤ) - (front.length : ℕ)) = (last.length : ℕ) := by
      omega
    obtain ⟨tailbuf, hmove, hsize, htake'⟩ := @moveDown_ok s.tailbuf front last
      (by rw [hfront]; exact htake)
    rw [hleft, cInt_length (by omega), hmove, ok_bind]
    refine ⟨_, rfl, htake', rfl, ?_, hsize, rfl, rfl, rfl⟩
    rw [hcountkept]
    dsimp only
    rw [cInt_of_mem (by omega) (by omega)]
    omega

/-! ### Growing -/

theorem grow_ok {s : State} (hsize : s.tailbuf.length = s.tailbufsize) {kept : Str}
    (htake : s.tailbuf.take kept.length = kept) (hlen : s.taillen = kept.length)
    (hfits : kept.length ≤ 2 ^ 31 - 8193) (hroom : kept.length ≤ s.tailbufsize) :
    ∃ s', grow env s = .ok s' ∧ s'.tailbufsize = max s.tailbufsize (kept.length + 8192) ∧
      s'.tailbuf.length = s'.tailbufsize ∧ s'.tailbuf.take kept.length = kept ∧
      s'.taillen = s.taillen ∧ s'.newlinesSeen = s.newlinesSeen ∧ s'.fd = s.fd ∧
      s'.out = s.out := by
  have hkept : sizeT s.taillen = kept.length := by
    rw [hlen, sizeT_of_nonneg (by omega) (by omega), Int.toNat_natCast]
  have hneed : sizeT (sizeT s.taillen + 8192) = kept.length + 8192 := by
    rw [hkept, sizeT_of_nonneg (by omega) (by omega)]
    omega
  have hnew : sizeT (cInt (s.taillen + 8192)) = kept.length + 8192 := by
    rw [hlen, cInt_of_mem (by omega) (by omega), sizeT_of_nonneg (by omega) (by omega)]
    omega
  rw [grow, hneed, hnew]
  split
  · rename_i hsmall
    obtain ⟨tailbuf, hrealloc, hlength, htake'⟩ :=
      @xrealloc_ok env (kept.length + 8192) (by omega) s.tailbuf
    dsimp only
    rw [hrealloc, ok_bind]
    refine ⟨_, rfl, ?_, hlength, ?_, rfl, rfl, rfl, rfl⟩
    · exact (Nat.max_eq_right (Nat.le_of_lt hsmall)).symm
    · rw [htake' _ (by omega) (by omega), htake]
  · rename_i hlarge
    exact ⟨s, rfl, (Nat.max_eq_left (Nat.not_lt.mp hlarge)).symm, hsize, htake, rfl, rfl, rfl, rfl⟩

theorem bmod_sub_self (n : ℤ) (m : ℕ) : (n - m).bmod m = n.bmod m := by
  have h := Int.sub_mul_bmod_self_right n 1 m
  rwa [Int.one_mul] at h

theorem cInt_of_ge {n : ℤ} (hlow : 2 ^ 31 ≤ n) (hhigh : n < 2 ^ 32 + 2 ^ 31) :
    cInt n = n - 2 ^ 32 := by
  have hless : n - 2 ^ 32 = n - (2 ^ 32 : ℕ) := by omega
  have hsame : cInt (n - 2 ^ 32) = cInt n := by
    rw [hless]
    exact bmod_sub_self n (2 ^ 32)
  rw [← hsame, cInt_of_mem (by omega) (by omega)]

/-- The sum of a length and the room for a read leaves the range of a `c_int`: as a `size_t` it is
more than there is. -/
theorem grow_dies {s : State} (hlow : 2 ^ 31 - 8192 ≤ s.taillen) (hhigh : s.taillen < 2 ^ 31)
    (hsize : s.tailbufsize < 2 ^ 31) : grow env s = .error .outOfMemory := by
  have hkept : sizeT s.taillen = s.taillen.toNat := sizeT_of_nonneg (by omega) (by omega)
  have hneed : sizeT (sizeT s.taillen + 8192) = s.taillen.toNat + 8192 := by
    rw [hkept, sizeT_of_nonneg (by omega) (by omega)]
    omega
  have hnew : ¬ sizeT (cInt (s.taillen + 8192)) < 2 ^ 63 := by
    rw [cInt_of_ge (by omega) (by omega), sizeT]
    omega
  have hrealloc : xrealloc env s.tailbuf (sizeT (cInt (s.taillen + 8192))) =
      .error .outOfMemory := by
    rw [xrealloc, if_neg hnew]
  rw [grow, hneed, if_pos (by omega)]
  dsimp only
  rw [hrealloc]
  rfl

/-! ### The loop -/

/-- The state between two turns: the last lines of what has been read stand in the buffer. -/
structure Lining (o : Options) (input done kept : Str) (s : State) : Prop where
  all : input = done ++ s.fd.rest
  kept_ : kept = lastLines newline o.count done
  holds : Holds kept s
  newlines : s.newlinesSeen = kept.count newline
  room : kept.length + 8192 ≤ s.tailbufsize
  small : s.tailbufsize < 2 ^ 31
  out : s.out = []

theorem Lining.turn (htop : o.fromTop = false) (hbytes : o.bytes = false) (hpos : 0 < o.count)
    (hcount : o.count < 2 ^ 31) {input done kept : Str} {s : State}
    (h : Lining o input done kept s) (hrest : s.fd.rest ≠ []) :
    (Fits o.count (done ++ chunk kept s) → ∃ s', Tail.turn o env s = .ok (true, s') ∧
      s.fd.rest = chunk kept s ++ s'.fd.rest ∧
      Lining o input (done ++ chunk kept s)
        (lastLines newline o.count (done ++ chunk kept s)) s' ∧
      s'.tailbufsize = max s.tailbufsize
        ((lastLines newline o.count (done ++ chunk kept s)).length + 8192)) ∧
    (¬ Fits o.count (done ++ chunk kept s) → Tail.turn o env s = .error .outOfMemory) := by
  have hsmall := h.small
  have hroom : kept.length + (chunk kept s).length ≤ s.tailbufsize := by
    have hroom := h.holds.room
    rw [chunk, List.length_take]
    omega
  obtain ⟨fd, tailbuf, hsplit, hsize, htake, hturn⟩ :=
    @Holds.read o env htop kept s h.holds hrest (by omega)
  obtain ⟨t, hdrop, htake', hlen, hnewlines, hlength, hsize', hfd, hout⟩ :=
    @dropLines_ok o hpos hcount kept (chunk kept s) (h.holds.chunk_ne_nil hrest)
      { s with fd, tailbuf } htake (by rw [List.length_append]; omega) h.holds.taillen h.newlines
  rw [if_neg (by omega), if_neg (by rw [hbytes]; exact Bool.false_ne_true), hdrop, ok_bind] at hturn
  have hlast : lastLines newline o.count (kept ++ chunk kept s) =
      lastLines newline o.count (done ++ chunk kept s) := by
    rw [h.kept_]
    exact lastLines_append hpos done _
  have hle : (lastLines newline o.count (kept ++ chunk kept s)).length ≤
      kept.length + (chunk kept s).length := by
    rw [← List.length_append, lastLines_eq]
    exact (skip_suffix newline _ _).length_le
  rw [hlast] at htake' hlen hnewlines hle
  have htlength : t.tailbuf.length = t.tailbufsize := (hlength.trans hsize).trans hsize'.symm
  have htsize : t.tailbufsize = s.tailbufsize := hsize'
  refine ⟨fun hfits => ?_, fun hfits => ?_⟩
  · rw [Fits] at hfits
    obtain ⟨u, hgrow, husize, hulength, hutake, hulen, hunewlines, hufd, huout⟩ :=
      @grow_ok env t htlength _ htake' hlen hfits (by omega)
    rw [hgrow, ok_bind] at hturn
    have hrest' : u.fd.rest = fd.rest := congrArg Input.rest (hufd.trans hfd)
    refine ⟨u, hturn, hrest' ▸ hsplit, ⟨?_, rfl, ?_, ?_, ?_, ?_, ?_⟩, ?_⟩
    · rw [hrest', h.all, hsplit, List.append_assoc]
    · refine ⟨hutake, hulen.trans hlen, hulength, ?_, ?_⟩ <;> omega
    · exact hunewlines.trans hnewlines
    · omega
    · omega
    · exact huout.trans (hout.trans h.out)
    · rw [husize, htsize]
  · rw [Fits] at hfits
    rw [@grow_dies env t (by omega) (by omega) (by omega)] at hturn
    exact hturn

theorem Lining.loop (htop : o.fromTop = false) (hbytes : o.bytes = false) (hpos : 0 < o.count)
    (hcount : o.count < 2 ^ 31) {turns : ℕ} {input done kept : Str} {s : State}
    (h : Lining o input done kept s) (hturns : s.fd.rest.length < turns) :
    ((∀ part ∈ readEnds o.count turns s.tailbufsize done s.fd.rest, Fits o.count part) →
      ∃ s', Tail.loop o env turns s = some (.ok s') ∧ finish o s' = .ok (wanted o input)) ∧
    ((∃ part ∈ readEnds o.count turns s.tailbufsize done s.fd.rest, ¬ Fits o.count part) →
      Tail.loop o env turns s = some (.error .outOfMemory)) := by
  induction turns generalizing done kept s with
  | zero => exact absurd hturns (Nat.not_lt_zero _)
  | succ turns ih =>
    rw [Tail.loop, readEnds]
    by_cases hrest : s.fd.rest = []
    · obtain ⟨s', hturn, hlen, hout, _, htake⟩ := @Holds.turn_end o env kept s h.holds hrest
      rw [if_pos hrest]
      refine ⟨fun _ => ⟨s', by rw [hturn], ?_⟩, fun hbad => ?_⟩
      · rw [finish_eq (hlen.trans h.holds.taillen) hout htake, outcome,
          if_neg (by rw [htop]; exact Bool.false_ne_true), h.out, List.nil_append, h.kept_,
          wanted, if_neg (by rw [htop]; exact Bool.false_ne_true),
          if_neg (by rw [hbytes]; exact Bool.false_ne_true), h.all, hrest, List.append_nil]
      · obtain ⟨part, hpart, _⟩ := hbad
        cases hpart
    · rw [if_neg hrest]
      dsimp only
      rw [← h.kept_, ← chunk]
      obtain ⟨hgood, hbad⟩ := @Lining.turn o env htop hbytes hpos hcount input done kept s h hrest
      by_cases hfits : Fits o.count (done ++ chunk kept s)
      · obtain ⟨s', hturn, hsplit, hnext, hsize⟩ := hgood hfits
        have hdrop : s.fd.rest.drop (s.tailbufsize - kept.length) = s'.fd.rest := by
          have hboth := List.take_append_drop (s.tailbufsize - kept.length) s.fd.rest
          exact List.append_cancel_left (hboth.trans hsplit)
        have hlength := congrArg List.length hsplit
        have hchunk := List.length_pos_iff.mpr (h.holds.chunk_ne_nil hrest)
        rw [List.length_append] at hlength
        obtain ⟨hall, hsome⟩ := ih hnext (by omega)
        rw [hdrop, ← hsize, hturn]
        refine ⟨fun hparts => ?_, fun hparts => ?_⟩
        · exact hall fun part hpart => hparts part (List.mem_cons_of_mem _ hpart)
        · obtain ⟨part, hpart, hnot⟩ := hparts
          rcases List.mem_cons.mp hpart with rfl | hmem
          · exact absurd hfits hnot
          · exact hsome ⟨part, hmem, hnot⟩
      · rw [hbad hfits]
        refine ⟨fun hparts => ?_, fun _ => rfl⟩
        exact absurd (hparts _ List.mem_cons_self) hfits

theorem lines_main (htop : o.fromTop = false) (hbytes : o.bytes = false) (hpos : 0 < o.count)
    (hcount : o.count < 2 ^ 31) (input : Str) :
    tailMain o env input = some (.ok (wanted o input)) ↔
      ∀ part ∈ readEnds o.count (input.length + 1) 8192 [] input, Fits o.count part := by
  have hsize : bufferSize o = 8192 := by
    rw [bufferSize, if_neg]
    rintro ⟨_, hbytes'⟩
    rw [hbytes] at hbytes'
    cases hbytes'
  obtain ⟨tailbuf, hbuf, hlength, _⟩ := @xrealloc_ok env (bufferSize o) (by omega) []
  have hnone : ([] : Str) = lastLines newline o.count [] := by
    rw [lastLines, Lines.lines, List.drop_nil, List.flatten_nil]
  have hstart : Lining o input [] [] (start o input tailbuf) := by
    refine ⟨rfl, hnone, holds_start hlength, rfl, ?_, ?_, rfl⟩
    · change 0 + 8192 ≤ bufferSize o
      omega
    · change bufferSize o < 2 ^ 31
      omega
  obtain ⟨hgood, hbad⟩ := @Lining.loop o env htop hbytes hpos hcount (input.length + 1) input [] []
    _ hstart (Nat.lt_succ_self input.length)
  have hbuffer : (start o input tailbuf).tailbufsize = 8192 := hsize
  rw [hbuffer] at hgood hbad
  rw [tailMain, hbuf]
  dsimp only
  constructor
  · intro hmain
    by_contra hparts
    push Not at hparts
    rw [hbad hparts] at hmain
    cases hmain
  · intro hparts
    obtain ⟨s', hloop, hfinish⟩ := hgood hparts
    rw [hloop]
    dsimp only
    rw [hfinish]

end Rustybox.Tail
