import Rustybox.Tail.LastLines

/-!
# When tail is right

Counts of bytes and lines beyond the signed range lead outside of the buffer, and so does a `+N`
that is more than that range behind the bytes of the first read.
-/

namespace Rustybox.Tail

open Rust
open Lines

variable {o : Options} {env : Env}

theorem bmod_add_self (n : ℤ) (m : ℕ) : (n + m).bmod m = n.bmod m := by
  have h := Int.add_mul_bmod_self_right n 1 m
  rwa [Int.one_mul] at h

theorem cInt_of_lt {n : ℤ} (hlow : -2 ^ 32 - 2 ^ 31 ≤ n) (hhigh : n < -2 ^ 31) :
    cInt n = n + 2 ^ 32 := by
  have hmore : n + 2 ^ 32 = n + (2 ^ 32 : ℕ) := by omega
  have hsame : cInt (n + 2 ^ 32) = cInt n := by
    rw [hmore]
    exact bmod_add_self n (2 ^ 32)
  rw [← hsame, cInt_of_mem (by omega) (by omega)]

theorem load_outside {buf : Str} {offset : ℤ} (hoffset : offset < 0) (len : ℤ) :
    load buf offset len = .error .outside := by
  rw [load, if_neg]
  omega

theorem wanted_nil (o : Options) : wanted o [] = [] := by
  rw [wanted]
  split
  · split
    · exact List.drop_nil
    · rw [Lines.lines, List.drop_nil, List.flatten_nil]
  · split
    · exact List.drop_nil
    · rw [lastLines, Lines.lines, List.drop_nil, List.flatten_nil]

theorem bufferSize_xrealloc (o : Options) (env : Env) :
    xrealloc env [] (bufferSize o) = .ok ((List.range (bufferSize o)).map env.junk) := by
  have hsize := bufferSize_lt o
  have hlength : ((List.range (bufferSize o)).map env.junk).length = bufferSize o := by
    rw [List.length_map, List.length_range]
  rw [xrealloc, if_pos (by omega), List.nil_append, List.take_of_length_le (Nat.le_of_eq hlength)]

theorem first_turn (o : Options) (env : Env) (input : Str) {buf data : Str}
    (hbuf : buf.length = bufferSize o) (hdata : input.take (bufferSize o) = data) :
    ∃ fd, turn o env (start o input buf) =
      handle o env (cInt data.length) data
        { start o input buf with fd, tailbuf := data ++ buf.drop data.length } := by
  have hsize := bufferSize_lt o
  have hasked : sizeT ((start o input buf).tailbufsize - (start o input buf).taillen) =
      bufferSize o := by
    change sizeT ((bufferSize o : ℤ) - 0) = bufferSize o
    rw [Int.sub_zero, sizeT_of_nonneg (by omega) (by omega), Int.toNat_natCast]
  obtain ⟨calls, hread⟩ := @fullRead_eq env (bufferSize o) (start o input buf).fd
  have hstore : store buf 0 data = .ok (data ++ buf.drop data.length) := by
    have hlength : data.length ≤ buf.length := by
      rw [← hdata, hbuf]
      exact List.length_take_le _ _
    rw [store, if_pos (by omega), Int.toNat_zero, List.take_zero, List.nil_append, Nat.zero_add]
  refine ⟨⟨input.drop (bufferSize o), calls⟩, ?_⟩
  rw [turn, hasked, hread]
  dsimp only
  rw [show (start o input buf).fd.rest.take (bufferSize o) = data from hdata]
  rw [show store (start o input buf).tailbuf (start o input buf).taillen data = _ from hstore,
    ok_bind]
  rfl

theorem main_dies {input data : Str} (hdata : input.take (bufferSize o) = data) {die : Die}
    (hhandle : ∀ fd, handle o env (cInt data.length) data
      { start o input ((List.range (bufferSize o)).map env.junk) with
        fd, tailbuf := data ++ ((List.range (bufferSize o)).map env.junk).drop data.length } =
      .error die) :
    tailMain o env input = some (.error die) := by
  have hlength : ((List.range (bufferSize o)).map env.junk).length = bufferSize o := by
    rw [List.length_map, List.length_range]
  obtain ⟨fd, hturn⟩ := first_turn o env input hlength hdata
  rw [tailMain, bufferSize_xrealloc]
  dsimp only
  rw [loop, hturn, hhandle]

/-- A first read that is more than a `c_int` holds is taken for the end. -/
theorem main_empty (htop : o.fromTop = false) {input : Str}
    (hlong : 2 ^ 31 ≤ (input.take (bufferSize o)).length) :
    tailMain o env input = some (.ok []) := by
  have hlength : ((List.range (bufferSize o)).map env.junk).length = bufferSize o := by
    rw [List.length_map, List.length_range]
  obtain ⟨fd, hturn⟩ := first_turn o env input hlength rfl
  have hsize := bufferSize_lt o
  have hle : (input.take (bufferSize o)).length ≤ bufferSize o := List.length_take_le _ _
  generalize input.take (bufferSize o) = data at hlong hturn hle
  rw [cInt_of_ge (by omega) (by omega), handle, if_pos (by omega)] at hturn
  rw [tailMain, bufferSize_xrealloc]
  dsimp only
  rw [loop, hturn]
  dsimp only
  rw [finish, if_neg (by rw [htop]; exact Bool.false_ne_true)]
  rw [load, if_pos ⟨Int.le_refl 0, Int.le_refl 0, Int.natCast_nonneg _⟩, ok_bind]
  rfl

theorem scan_outside {k : ℤ} {l : Str} (hk : k < 0 ∨ (l.count newline : ℤ) < k) :
    scan k l = .error .outside := by
  induction l generalizing k with
  | nil =>
    rw [List.count_nil] at hk
    rw [scan, if_neg (by omega)]
  | cons c cs ih =>
    rw [scan, if_neg (by omega)]
    by_cases hsep : c = newline
    · rw [hsep, List.count_cons_self] at hk
      rw [if_pos hsep, ih (by omega)]
      rfl
    · rw [List.count_cons_of_ne hsep] at hk
      rw [if_neg hsep, ih hk]
      rfl

/-! ### Counts out of range -/

theorem writeFrom_outside {nread nwrite : ℤ} {data : Str} {s : State} {seen : ℕ}
    (hafter : afterSkip o nread data s.seen = (nwrite, seen)) (hpos : 0 < nwrite)
    (hmore : nread < nwrite) : writeFrom o nread data s = .error .outside := by
  rw [writeFrom, hafter]
  dsimp only
  rw [if_pos hpos, load_outside (by omega)]
  rfl

theorem keepBytes_outside {nread : ℤ} {s : State} (hless : cInt (s.taillen + nread) < o.count)
    (hcount : cInt o.count < cInt (s.taillen + nread)) :
    keepBytes o nread s = .error .outside := by
  rw [keepBytes]
  generalize cInt (s.taillen + nread) = taillen at hless hcount
  rw [if_pos hcount, moveDown, load_outside (by omega)]
  rfl

theorem dropLines_outside {nread : ℤ} {data : Str} {s : State}
    (hcount : cInt o.count ≤ cInt (s.newlinesSeen + data.count newline))
    (hscan : ∀ e : ℤ, 0 ≤ e → e ≤ 1 →
      scan (cInt (s.newlinesSeen + data.count newline + e - o.count)) s.tailbuf =
        .error .outside) :
    dropLines o nread data s = .error .outside := by
  rw [dropLines]
  dsimp only
  rw [if_neg (Int.not_lt.mpr hcount), hscan]
  · rfl
  · split <;> decide
  · split <;> decide

theorem top_bytes_dies (htop : o.fromTop = true) (hbytes : o.bytes = true) {input : Str}
    (hinput : input ≠ []) (hcount : 2 ^ 31 + 1 + min 8192 input.length < o.count) :
    tailMain o env input = some (.error .outside) := by
  have hsize : bufferSize o = 8192 := by
    rw [bufferSize, htop, if_neg]
    rintro ⟨hfalse, _⟩
    cases hfalse
  have hlength : (input.take (bufferSize o)).length = min 8192 input.length := by
    rw [List.length_take, hsize]
  have hpos := List.length_pos_iff.mpr hinput
  have hfits := o.fits
  refine main_dies rfl fun fd => ?_
  generalize input.take (bufferSize o) = data at hlength
  rw [cInt_length (by omega), handle, if_neg (by omega), if_pos htop]
  have hafter : afterSkip o data.length data 1 =
      ((data.length : ℤ) - (o.count - 1) + 2 ^ 32, 1 + data.length) := by
    have hwrap : (((1 : ℕ) + (data.length : ℤ)) % 2 ^ 32).toNat = 1 + data.length := by
      omega
    rw [afterSkip, if_pos (by omega), if_pos hbytes, hwrap, cInt_of_lt (by omega) (by omega)]
    rfl
  rw [writeFrom_outside hafter (by omega) (by omega)]
  rfl

theorem bytes_dies (htop : o.fromTop = false) (hbytes : o.bytes = true) {input : Str}
    (hinput : input ≠ []) (hcount : 2 ^ 31 ≤ o.count)
    (hshort : (input.take (bufferSize o)).length < 2 ^ 31) :
    tailMain o env input = some (.error .outside) := by
  have hsize := bufferSize_lt o
  have hpos : 0 < (input.take (bufferSize o)).length := by
    rw [List.length_take]
    have := List.length_pos_iff.mpr hinput
    omega
  have hfits := o.fits
  refine main_dies rfl fun fd => ?_
  generalize input.take (bufferSize o) = data at hshort hpos
  rw [cInt_length hshort, handle, if_neg (by omega),
    if_neg (by rw [htop]; exact Bool.false_ne_true), if_neg (by omega), if_pos hbytes]
  have htaillen : cInt (0 + data.length) = data.length := by
    rw [Int.zero_add, cInt_length hshort]
  have hcountint : cInt o.count = o.count - 2 ^ 32 := cInt_of_ge (by omega) (by omega)
  rw [keepBytes_outside]
  · rfl
  · refine Int.lt_of_le_of_lt (Int.le_of_eq htaillen) ?_
    omega
  · refine Int.lt_of_lt_of_le ?_ (Int.le_of_eq htaillen.symm)
    omega

/-- Memory that holds no newline, as a fresh page does. -/
def zeros : Env := ⟨fun _ => 0, fun _ => 0⟩

theorem lines_dies (htop : o.fromTop = false) (hbytes : o.bytes = false) {input : Str}
    (hinput : input ≠ []) (hcount : 2 ^ 31 ≤ o.count) :
    tailMain o zeros input = some (.error .outside) := by
  have hsize : bufferSize o = 8192 := by
    rw [bufferSize, hbytes, if_neg]
    rintro ⟨_, hfalse⟩
    cases hfalse
  have hpos : 0 < (input.take (bufferSize o)).length := by
    rw [List.length_take]
    have := List.length_pos_iff.mpr hinput
    omega
  have hle : (input.take (bufferSize o)).length ≤ bufferSize o := List.length_take_le _ _
  have hfits := o.fits
  refine main_dies rfl fun fd => ?_
  generalize input.take (bufferSize o) = data at hpos hle
  have hnewlines : data.count newline ≤ data.length := List.count_le_length
  rw [cInt_length (by omega), handle, if_neg (by omega),
    if_neg (by rw [htop]; exact Bool.false_ne_true), if_neg (by omega),
    if_neg (by rw [hbytes]; exact Bool.false_ne_true)]
  have hcountint : cInt o.count = o.count - 2 ^ 32 := cInt_of_ge (by omega) (by omega)
  have hsum : cInt (0 + data.count newline) = data.count newline := by
    rw [Int.zero_add]
    exact cInt_of_mem (by omega) (by omega)
  have hnone : newline ∉ ((List.range (bufferSize o)).map zeros.junk).drop data.length := by
    intro hmem
    obtain ⟨n, _, hn⟩ := List.mem_map.mp (List.mem_of_mem_drop hmem)
    exact absurd (show (0 : UInt8) = newline from hn) (by decide)
  have hzeros : (data ++ ((List.range (bufferSize o)).map zeros.junk).drop data.length).count
      newline = data.count newline := by
    rw [List.count_append, List.count_eq_zero_of_not_mem hnone, Nat.add_zero]
  rw [dropLines_outside]
  · rfl
  · refine Int.le_trans ?_ (Int.le_of_eq hsum.symm)
    omega
  · intro e he hone
    refine scan_outside ?_
    rw [hzeros]
    change cInt (0 + data.count newline + e - o.count) < 0 ∨
      (data.count newline : ℤ) < cInt (0 + data.count newline + e - o.count)
    by_cases hrange : -2 ^ 31 ≤ (0 : ℤ) + data.count newline + e - o.count
    · rw [cInt_of_mem hrange (by omega)]
      omega
    · rw [cInt_of_lt (by omega) (by omega)]
      omega

/-! ### Any count -/

theorem nil_right (o : Options) (env : Env) : tailMain o env [] = some (.ok (wanted o [])) := by
  have hlength : ((List.range (bufferSize o)).map env.junk).length = bufferSize o := by
    rw [List.length_map, List.length_range]
  obtain ⟨s', hturn, hlen, hout, _, htake⟩ := @Holds.turn_end o env [] _
    (@holds_start o [] _ hlength) rfl
  rw [tailMain, bufferSize_xrealloc]
  dsimp only
  rw [loop, hturn]
  dsimp only
  rw [finish_eq hlen hout htake, outcome, wanted_nil]
  split <;> rfl

theorem wanted_ne_nil (htop : o.fromTop = false) (hbytes : o.bytes = true) (hpos : 0 < o.count)
    {input : Str} (hinput : input ≠ []) : wanted o input ≠ [] := by
  have hlength := List.length_pos_iff.mpr hinput
  rw [wanted_bytes htop hbytes]
  intro hnone
  have := List.drop_eq_nil_iff.mp hnone
  omega

/-- The counts that tail treats as it should, for an input. -/
def Treated (o : Options) (input : Str) : Prop :=
  input = [] ∨
    if o.fromTop then o.bytes = true → o.count ≤ 2 ^ 31 + 1 + min 8192 input.length
    else o.count = 0 ∨ (o.count < 2 ^ 31 ∧
      if o.bytes then o.count ≤ 2 ^ 31 - 8193 ∨ input.length < 2 ^ 31
      else ∀ part ∈ readEnds o.count (input.length + 1) 8192 [] input, Fits o.count part)

theorem bytes_right_iff (htop : o.fromTop = false) (hbytes : o.bytes = true) (hpos : 0 < o.count)
    {input : Str} (hinput : input ≠ []) :
    tailMain o env input = some (.ok (wanted o input)) ↔
      o.count < 2 ^ 31 ∧ (o.count ≤ 2 ^ 31 - 8193 ∨ input.length < 2 ^ 31) := by
  refine ⟨fun hmain => ?_, fun h => bytes_right htop hbytes hpos h.1 h.2⟩
  by_cases hlong : 2 ^ 31 ≤ (input.take (bufferSize o)).length
  · rw [main_empty htop hlong] at hmain
    exact absurd (Except.ok.inj (Option.some.inj hmain)).symm
      (wanted_ne_nil htop hbytes hpos hinput)
  · by_cases hcount : o.count < 2 ^ 31
    · refine ⟨hcount, ?_⟩
      have hsize : bufferSize o = o.count + 8192 := by
        rw [bufferSize, if_pos ⟨htop, hbytes⟩]
        omega
      rw [List.length_take, hsize] at hlong
      omega
    · rw [bytes_dies htop hbytes hinput (by omega) (by omega)] at hmain
      cases hmain

/-- `tail` writes what is wanted, in whatever parts the input is read. -/
theorem tailMain_right_iff (o : Options) (input : Str) :
    (∀ env, tailMain o env input = some (.ok (wanted o input))) ↔ Treated o input := by
  rw [Treated]
  by_cases hinput : input = []
  · rw [hinput]
    exact iff_of_true (fun env => nil_right o env) (Or.inl rfl)
  · rw [or_iff_right hinput]
    cases htop : o.fromTop with
    | true =>
      rw [if_pos rfl]
      cases hbytes : o.bytes with
      | true =>
        refine ⟨fun h _ => ?_, fun h env => top_bytes_right htop hbytes fun _ => h rfl⟩
        by_contra hmore
        have hmain := h zeros
        rw [top_bytes_dies htop hbytes hinput (by omega)] at hmain
        cases hmain
      | false =>
        refine iff_of_true (fun env => top_lines_right htop hbytes input) ?_
        intro hfalse
        cases hfalse
    | false =>
      rw [if_neg Bool.false_ne_true]
      by_cases hzero : o.count = 0
      · exact iff_of_true (fun env => zero_right htop hzero input) (Or.inl hzero)
      · have hpos : 0 < o.count := Nat.pos_of_ne_zero hzero
        rw [or_iff_right hzero]
        cases hbytes : o.bytes with
        | true =>
          rw [if_pos rfl]
          exact ⟨fun h => (bytes_right_iff htop hbytes hpos hinput).mp (h zeros),
            fun h env => (bytes_right_iff htop hbytes hpos hinput).mpr h⟩
        | false =>
          rw [if_neg Bool.false_ne_true]
          refine ⟨fun h => ?_, fun h env => (lines_main htop hbytes hpos h.1 input).mpr h.2⟩
          by_cases hcount : o.count < 2 ^ 31
          · exact ⟨hcount, (lines_main htop hbytes hpos hcount input).mp (h zeros)⟩
          · have hmain := h zeros
            rw [lines_dies htop hbytes hinput (by omega)] at hmain
            cases hmain

/-- `tail -c 2147483648` on one byte. -/
theorem bytes_lost : ¬ ∀ env, tailMain ⟨true, false, 2 ^ 31, by decide⟩ env [97] =
    some (.ok (wanted ⟨true, false, 2 ^ 31, by decide⟩ [97])) := by
  intro h
  have hmain := h zeros
  rw [bytes_dies rfl rfl (List.cons_ne_nil 97 []) (Nat.le_refl _) (by decide)] at hmain
  cases hmain

end Rustybox.Tail
