import Rustybox.Libbb.Unicode

/-!
# Wide strings

`bb_wcstombs` writes the shortest forms of the code points that fit, one after the other, and
`bb_mbstowcs` reads them again.  Of what else `bb_mbstowcs` reads, the check of `mbstowc_internal`
stops only the overlong forms of what fits into one byte: the strings that are read in another
form than the shortest are those that have one of the others (`faithful_iff`).
-/

namespace Rustybox.Libbb.Unicode

open Rust Multibyte

/-! ### A string is read -/

/-- Numbers in forms of so many bytes, one after the other. -/
def text (fs : List (ℕ × ℕ)) : List UInt8 := fs.flatMap fun f => form f.1 f.2

def codes (fs : List (ℕ × ℕ)) : List Int32 := fs.map fun f => (UInt32.ofNat f.2).toInt32

/-- The string begins with these forms: there are `n` of them, or else they are the string. -/
structure Front (s : List UInt8) (n : ℕ) (fs : List (ℕ × ℕ)) (rest : List UInt8) : Prop where
  begins : s = text fs ++ rest
  ends : fs.length = n ∨ fs.length < n ∧ rest = []
  accepted : ∀ f ∈ fs, Accepted f.1 f.2

theorem Accepted.lt {k v : ℕ} (h : Accepted k v) : v < 2 ^ 32 :=
  lt_of_lt_of_le h.form (capacity_le_all _)

theorem Accepted.read {k v : ℕ} (h : Accepted k v) (rest : List UInt8) :
    mbstowcInternal (Multibyte.form k v ++ rest) = some ((UInt32.ofNat v).toInt32, rest) := by
  rw [mbstowcInternal_form h.form, if_pos h.check]

theorem Accepted.ne_error {k v : ℕ} (h : Accepted k v) : (UInt32.ofNat v).toInt32 ≠ -1 := by
  intro heq
  have hcode := congrArg code heq
  rw [code_ofNat h.lt] at hcode
  exact h.error hcode

theorem ne_zero_of_ofNat {v : ℕ} (hv : v < 2 ^ 32) (h : v ≠ 0) : (UInt32.ofNat v).toInt32 ≠ 0 := by
  intro heq
  have hcode := congrArg code heq
  rw [code_ofNat hv] at hcode
  exact h hcode

theorem mbstowcsLoop_text {fs : List (ℕ × ℕ)} (h : ∀ f ∈ fs, Accepted f.1 f.2 ∧ f.2 ≠ 0) (m : ℕ)
    (rest : List UInt8) : mbstowcsLoop (fs.length + m) (text fs ++ rest) =
      (mbstowcsLoop m rest).map fun r => (codes fs ++ r.1, r.2) := by
  induction fs with
  | nil =>
    rw [List.length_nil, Nat.zero_add]
    exact Option.map_id'.symm
  | cons f fs ih =>
    obtain ⟨hf, hfs⟩ := List.forall_mem_cons.mp h
    have hlen : (f :: fs).length + m = fs.length + m + 1 := by
      rw [List.length_cons]
      omega
    have htext : text (f :: fs) ++ rest = form f.1 f.2 ++ (text fs ++ rest) := by
      rw [text, List.flatMap_cons, List.append_assoc]
      rfl
    rw [hlen, htext, mbstowcsLoop, hf.1.read, Option.bind_eq_bind, Option.bind_some]
    dsimp only
    rw [if_neg hf.1.ne_error, if_neg (ne_zero_of_ofNat hf.1.lt hf.2), ih hfs]
    cases mbstowcsLoop m rest with
    | none => rfl
    | some r => rfl

theorem accepted_zero {k : ℕ} (h : Accepted k 0) : k = 1 :=
  h.check.resolve_right (by decide)

theorem append_eq_append_zero {s a r : List UInt8} (ha : 0 ∉ a) (h : s ++ [0] = a ++ r) :
    ∃ r', s = a ++ r' ∧ r = r' ++ [0] := by
  rcases List.append_eq_append_iff.mp h with ⟨t, rfl, ht⟩ | ⟨t, rfl, ht⟩
  · cases t with
    | nil => exact ⟨[], (List.append_nil _).symm ▸ by simp, ht.symm⟩
    | cons b t =>
      obtain ⟨rfl, -⟩ := List.cons.inj ht
      exact absurd (List.mem_append_right s List.mem_cons_self) ha
  · exact ⟨t, rfl, ht⟩

theorem mbstowcsLoop_some {n : ℕ} {s : List UInt8} (hs : 0 ∉ s) {dest : List Int32} {left : ℕ}
    (h : mbstowcsLoop n (s ++ [0]) = some (dest, some left)) :
    ∃ fs rest, Front s n fs rest ∧ left = n - fs.length ∧ dest.take fs.length = codes fs := by
  induction n generalizing s dest left with
  | zero =>
    cases h
    exact ⟨[], s, ⟨rfl, Or.inl rfl, by simp⟩, rfl, rfl⟩
  | succ n ih =>
    obtain ⟨⟨wc, r⟩, hread⟩ := mbstowcInternal_isSome (List.mem_append_right s (List.mem_singleton_self 0))
    rw [mbstowcsLoop, hread, Option.bind_eq_bind, Option.bind_some] at h
    dsimp only at h
    by_cases herr : wc = -1
    · rw [if_pos herr] at h
      cases h
    · rw [if_neg herr] at h
      obtain ⟨k, haccepted, hsrc⟩ := mbstowcInternal_some hread herr
      by_cases hnul : wc = 0
      · subst hnul
        have hk := accepted_zero haccepted
        subst hk
        rw [if_pos rfl] at h
        cases h
        cases s with
        | nil => exact ⟨[], [], ⟨rfl, Or.inr ⟨Nat.succ_pos n, rfl⟩, by simp⟩, rfl, rfl⟩
        | cons b s =>
          obtain ⟨rfl, -⟩ := List.cons.inj hsrc
          exact absurd List.mem_cons_self hs
      · rw [if_neg hnul] at h
        have hcode : code wc ≠ 0 := fun hz => hnul (code_inj hz)
        obtain ⟨r', rfl, rfl⟩ := append_eq_append_zero (zero_notMem_form haccepted.form hcode) hsrc
        obtain ⟨⟨dest', left'⟩, hloop, h⟩ := Option.bind_eq_some_iff.mp h
        cases h
        obtain ⟨fs, rest, hfront, hleft, hdest⟩ := ih (fun hz => hs (List.mem_append_right _ hz)) hloop
        refine ⟨(k, code wc) :: fs, rest, ⟨?_, ?_, ?_⟩, ?_, ?_⟩
        · rw [text, List.flatMap_cons, List.append_assoc]
          exact congrArg _ hfront.begins
        · exact hfront.ends.imp (congrArg (· + 1)) fun h => ⟨Nat.succ_lt_succ h.1, h.2⟩
        · exact List.forall_mem_cons.mpr ⟨haccepted, hfront.accepted⟩
        · rw [hleft, List.length_cons, Nat.add_sub_add_right]
        · have hwc : (UInt32.ofNat (code wc)).toInt32 = wc := code_inj (code_ofNat haccepted.lt)
          rw [List.length_cons, List.take_succ_cons, hdest, codes, codes, List.map_cons, hwc]

theorem mbstowcs_isSome {s : List UInt8} (hs : 0 ∉ s) (n : ℕ) :
    ∃ r, mbstowcs (s ++ [0]) n = some r := by
  have hloop : ∃ r, mbstowcsLoop n (s ++ [0]) = some r := by
    induction n generalizing s with
    | zero => exact ⟨_, rfl⟩
    | succ n ih =>
      obtain ⟨⟨wc, r⟩, hread⟩ :=
        mbstowcInternal_isSome (List.mem_append_right s (List.mem_singleton_self 0))
      rw [mbstowcsLoop, hread, Option.bind_eq_bind, Option.bind_some]
      dsimp only
      by_cases herr : wc = -1
      · rw [if_pos herr]
        exact ⟨_, rfl⟩
      · rw [if_neg herr]
        by_cases hnul : wc = 0
        · rw [if_pos hnul]
          exact ⟨_, rfl⟩
        · rw [if_neg hnul]
          obtain ⟨k, haccepted, hsrc⟩ := mbstowcInternal_some hread herr
          have hcode : code wc ≠ 0 := fun hz => hnul (code_inj hz)
          obtain ⟨r', rfl, rfl⟩ := append_eq_append_zero (zero_notMem_form haccepted.form hcode) hsrc
          obtain ⟨r, hr⟩ := ih fun hz => hs (List.mem_append_right _ hz)
          rw [hr]
          exact ⟨_, rfl⟩
  obtain ⟨r, hr⟩ := hloop
  rw [mbstowcs, hr]
  exact ⟨_, rfl⟩

/-- The shortest forms of code points, one after the other. -/
def shortestText (cs : List Int32) : List UInt8 := cs.flatMap fun wc => shortest (code wc)

/-- Either there is an error, or the string is the shortest forms of the code points that are
returned, up to where there are `n` of them. -/
def Faithful (s : List UInt8) (n : ℕ) : Prop :=
  ∀ dest count, mbstowcs (s ++ [0]) n = some (dest, some count) →
    ∃ rest, s = shortestText (dest.take count) ++ rest ∧ (count < n → rest = [])

/-- Where the characters that are read are all accepted, each stands in its shortest form. -/
def NoOverlong (s : List UInt8) (n : ℕ) : Prop :=
  ∀ fs rest, Front s n fs rest → ∀ f ∈ fs, f.1 = width f.2

theorem Front.ne_zero {s rest : List UInt8} {n : ℕ} {fs : List (ℕ × ℕ)} (h : Front s n fs rest)
    (hs : 0 ∉ s) : ∀ f ∈ fs, f.2 ≠ 0 := by
  intro f hf hzero
  refine hs ?_
  have haccepted := h.accepted f hf
  rw [hzero] at haccepted
  have hform : form f.1 f.2 = [0] := by
    rw [hzero, accepted_zero haccepted]
    rfl
  rw [h.begins, text]
  refine List.mem_append_left rest (List.mem_flatMap.mpr ⟨f, hf, ?_⟩)
  rw [hform]
  exact List.mem_singleton_self 0

theorem Front.read {s rest : List UInt8} {n : ℕ} {fs : List (ℕ × ℕ)} (h : Front s n fs rest)
    (hs : 0 ∉ s) : ∃ dest, mbstowcs (s ++ [0]) n = some (dest, some fs.length) ∧
      dest.take fs.length = codes fs := by
  have hne := h.ne_zero hs
  have hread := mbstowcsLoop_text fun f hf => ⟨h.accepted f hf, hne f hf⟩
  have hlen : (codes fs).length = fs.length := List.length_map _
  rcases h.ends with hn | ⟨hn, hrest⟩
  · have hloop := hread 0 (rest ++ [0])
    rw [Nat.add_zero, hn, ← List.append_assoc, ← h.begins] at hloop
    refine ⟨codes fs, ?_, ?_⟩
    · rw [mbstowcs, hloop, hn]
      simp [mbstowcsLoop]
    · rw [← hlen, List.take_length]
  · obtain ⟨m, hm⟩ : ∃ m, n = fs.length + (m + 1) := ⟨n - fs.length - 1, by omega⟩
    have hloop := hread (m + 1) [0]
    have hs' : s = text fs := by rw [h.begins, hrest, List.append_nil]
    rw [← hm, ← hs'] at hloop
    refine ⟨codes fs ++ [0], ?_, ?_⟩
    · rw [mbstowcs, hloop]
      have hnul : mbstowcsLoop (m + 1) [0] = some ([0], some (m + 1)) := rfl
      rw [hnul, hm]
      simp
    · rw [← hlen, List.take_left']
      rfl

/-- Where one string is given by forms and by shortest forms, these are the same. -/
theorem width_of_text {fs : List (ℕ × ℕ)} (h : ∀ f ∈ fs, f.2 < capacity f.1) {r r' : List UInt8}
    (heq : text fs ++ r = shortestText (codes fs) ++ r') : ∀ f ∈ fs, f.1 = width f.2 := by
  induction fs with
  | nil => simp
  | cons f fs ih =>
    obtain ⟨hf, hfs⟩ := List.forall_mem_cons.mp h
    have hlt : f.2 < 2 ^ 32 := lt_of_lt_of_le hf (capacity_le_all _)
    rw [text, List.flatMap_cons, codes, List.map_cons, shortestText, List.flatMap_cons,
      code_ofNat hlt, List.append_assoc, List.append_assoc, shortest] at heq
    have hwidth := eq_of_form_append hf (width_spec hlt).1 heq
    rw [← hwidth] at heq
    exact List.forall_mem_cons.mpr ⟨hwidth, ih hfs (List.append_cancel_left heq)⟩

theorem shortestText_codes {fs : List (ℕ × ℕ)} (h : ∀ f ∈ fs, f.2 < capacity f.1)
    (hwidth : ∀ f ∈ fs, f.1 = width f.2) : shortestText (codes fs) = text fs := by
  rw [shortestText, codes, List.flatMap_map, text]
  refine List.flatMap_congr fun f hf => ?_
  rw [code_ofNat (lt_of_lt_of_le (h f hf) (capacity_le_all _)), shortest, ← hwidth f hf]

/-- **Overlong forms are what goes wrong.** -/
theorem faithful_iff {s : List UInt8} (hs : 0 ∉ s) (n : ℕ) : Faithful s n ↔ NoOverlong s n := by
  constructor
  · intro h fs rest hfront
    obtain ⟨dest, hread, hdest⟩ := hfront.read hs
    obtain ⟨rest', hs', -⟩ := h dest fs.length hread
    rw [hdest] at hs'
    exact width_of_text (fun f hf => (hfront.accepted f hf).form) (hfront.begins.symm.trans hs')
  · intro h dest count hread
    obtain ⟨⟨dest', left⟩, hloop, hret⟩ := Option.bind_eq_some_iff.mp hread
    cases left with
    | none => cases hret
    | some left =>
      obtain ⟨rfl, hcount⟩ := Prod.mk.inj (Option.some.inj hret)
      obtain ⟨fs, rest, hfront, hleft, hdest⟩ := mbstowcsLoop_some hs hloop
      have hle : fs.length ≤ n := hfront.ends.elim (fun h => h.le) fun h => h.1.le
      have hcount : count = fs.length := by
        have hdiff : n - left = count := Option.some.inj hcount
        omega
      refine ⟨rest, ?_, ?_⟩
      · rw [hcount, hdest, shortestText_codes (fun f hf => (hfront.accepted f hf).form)
          (h fs rest hfront)]
        exact hfront.begins
      · intro hlt
        exact (hfront.ends.resolve_left (by omega)).2

/-! ### A string is written -/

theorem shortestText_append (cs cs' : List Int32) :
    shortestText (cs ++ cs') = shortestText cs ++ shortestText cs' := List.flatMap_append

theorem shortestText_cons (wc : Int32) (cs : List Int32) :
    shortestText (wc :: cs) = shortest (code wc) ++ shortestText cs := List.flatMap_cons

theorem length_shortest_le (wc : Int32) : (shortest (code wc)).length ≤ 6 := by
  obtain ⟨h0, h6⟩ := le_six (width_spec (code_lt wc)).1
  rw [shortest, length_form h0.ne']
  exact h6

/-- `bs` has been written, of what `n` bytes have room for. -/
structure Written (mem : Memory) (n : ℕ) (bs : List UInt8) (d : Dest) : Prop where
  mem : d.mem = store mem 0 bs
  dest : d.dest = bs.length
  n : bs.length + d.n = n

variable {mem : Memory} {n : ℕ} {bs : List UInt8} {d : Dest}

theorem Written.put (h : Written mem n bs d) (s : List UInt8) :
    (d.put s).mem = store mem 0 (bs ++ s) := by
  have hstore := store_store mem 0 bs s
  rw [Nat.zero_add] at hstore
  rw [Dest.put, h.mem, h.dest]
  exact hstore

theorem Written.advance (h : Written mem n bs d) {s : List UInt8} (hs : s.length ≤ d.n) :
    Written mem n (bs ++ s) ((d.put s).advance s.length) := by
  have hn := h.n
  refine ⟨h.put s, ?_, ?_⟩
  · rw [Dest.advance, Dest.put, List.length_append, h.dest]
  · rw [Dest.advance, Dest.put, List.length_append]
    dsimp only
    omega

theorem length_shortest_pos (wc : Int32) : 0 < (shortest (code wc)).length := by
  rw [shortest, length_form (width_pos _).ne']
  exact width_pos _

theorem tightLoop_nul (d : Dest) : tightLoop [0] d = some (if d.n ≠ 0 then d.put [0] else d) := by
  have hnul : wcrtombInternal 0 = [0] := by decide
  rw [tightLoop]
  by_cases hn : d.n ≠ 0
  · rw [if_pos hn, if_pos hn, hnul, if_neg, if_pos rfl]
    rw [List.length_singleton]
    omega
  · rw [if_neg hn, if_neg hn]

theorem tightLoop_cons {wc : Int32} (hwc : wc ≠ 0) (src : List Int32) (d : Dest) :
    tightLoop (wc :: src) d =
      let s := shortest (code wc)
      if s.length ≤ d.n then tightLoop src ((d.put s).advance s.length) else some d := by
  have hpos := length_shortest_pos wc
  rw [tightLoop, wcrtombInternal_eq]
  dsimp only
  by_cases hn : d.n ≠ 0
  · rw [if_pos hn, if_neg hwc]
    by_cases hfits : (shortest (code wc)).length ≤ d.n
    · rw [if_neg (Nat.not_lt.mpr hfits), if_pos hfits]
    · rw [if_pos (Nat.lt_of_not_le hfits), if_neg hfits]
  · rw [if_neg hn, if_neg (by omega)]

/-- The loop over `tbuf` goes on until there is no room for the next character. -/
theorem tightLoop_spec {cs : List Int32} (hcs : 0 ∉ cs) (h : Written mem n bs d) :
    ∃ front rest d', cs = front ++ rest ∧ tightLoop (cs ++ [0]) d = some d' ∧
      (bs ++ shortestText front).length + d'.n = n ∧
      (∀ wc ∈ rest.head?, d'.n < (shortest (code wc)).length) ∧
      d'.mem = store mem 0 (bs ++ shortestText front ++ if rest = [] ∧ d'.n ≠ 0 then [0] else []) := by
  induction cs generalizing bs d with
  | nil =>
    refine ⟨[], [], _, rfl, tightLoop_nul d, ?_⟩
    have hbs : bs ++ shortestText [] = bs := List.append_nil bs
    rw [hbs]
    by_cases hn : d.n ≠ 0
    · rw [if_pos hn]
      refine ⟨h.n, by simp, ?_⟩
      have hroom : [] = ([] : List Int32) ∧ (d.put [0]).n ≠ 0 := ⟨rfl, hn⟩
      rw [if_pos hroom, h.put]
    · rw [if_neg hn]
      refine ⟨h.n, by simp, ?_⟩
      rw [if_neg fun h => hn h.2, List.append_nil, h.mem]
  | cons wc cs ih =>
    obtain ⟨hwc, hcs⟩ := not_or.mp (mt List.mem_cons.mpr hcs)
    rw [List.cons_append, tightLoop_cons (Ne.symm hwc)]
    dsimp only
    by_cases hfits : (shortest (code wc)).length ≤ d.n
    · rw [if_pos hfits]
      obtain ⟨front, rest, d', rfl, hloop, hn, hnext, hmem⟩ := ih hcs (h.advance hfits)
      refine ⟨wc :: front, rest, d', rfl, hloop, ?_⟩
      rw [shortestText_cons, ← List.append_assoc]
      exact ⟨hn, hnext, hmem⟩
    · rw [if_neg hfits]
      refine ⟨[], wc :: cs, d, rfl, rfl, ?_⟩
      have hbs : bs ++ shortestText [] = bs := List.append_nil bs
      rw [hbs]
      refine ⟨h.n, ?_, ?_⟩
      · intro wc' hwc'
        obtain rfl := Option.some.inj hwc'
        exact Nat.lt_of_not_le hfits
      · rw [if_neg fun h => List.cons_ne_nil _ _ h.1, List.append_nil, h.mem]

theorem wideLoop_nul (d : Dest) :
    wideLoop [0] d = some (if d.n ≥ 6 then (d.put [0], none) else (d, some [0])) := by
  have hnul : wcrtombInternal 0 = [0] := by decide
  rw [wideLoop]
  by_cases hn : d.n ≥ 6
  · rw [if_pos hn, if_pos hn, hnul, if_pos rfl]
  · rw [if_neg hn, if_neg hn]

theorem wideLoop_cons {wc : Int32} (hwc : wc ≠ 0) (src : List Int32) (d : Dest) :
    wideLoop (wc :: src) d =
      let s := shortest (code wc)
      if d.n ≥ 6 then wideLoop src ((d.put s).advance s.length) else some (d, some (wc :: src)) := by
  rw [wideLoop, wcrtombInternal_eq]
  dsimp only
  rw [if_neg hwc]

/-- The loop while there is room for any character writes all of them, or leaves the rest of them to
the other loop. -/
theorem wideLoop_spec {cs : List Int32} (hcs : 0 ∉ cs) (h : Written mem n bs d) :
    (∃ d', wideLoop (cs ++ [0]) d = some (d', none) ∧ d'.n ≠ 0 ∧
        (bs ++ shortestText cs).length + d'.n = n ∧
        d'.mem = store mem 0 (bs ++ shortestText cs ++ [0])) ∨
      ∃ front rest d', cs = front ++ rest ∧ wideLoop (cs ++ [0]) d = some (d', some (rest ++ [0])) ∧
        Written mem n (bs ++ shortestText front) d' := by
  induction cs generalizing bs d with
  | nil =>
    have hbs : bs ++ shortestText [] = bs := List.append_nil bs
    have hloop : wideLoop ([] ++ [0]) d = _ := wideLoop_nul d
    rw [hloop, hbs]
    by_cases hn : d.n ≥ 6
    · rw [if_pos hn]
      have hn' : d.n ≠ 0 := by omega
      exact Or.inl ⟨_, rfl, hn', h.n, h.put [0]⟩
    · rw [if_neg hn]
      refine Or.inr ⟨[], [], d, rfl, rfl, ?_⟩
      rwa [hbs]
  | cons wc cs ih =>
    obtain ⟨hwc, hcs⟩ := not_or.mp (mt List.mem_cons.mpr hcs)
    rw [List.cons_append, wideLoop_cons (Ne.symm hwc)]
    dsimp only
    by_cases hn : d.n ≥ 6
    · rw [if_pos hn, shortestText_cons, ← List.append_assoc]
      rcases ih hcs (h.advance (le_trans (length_shortest_le wc) hn)) with hall | hsome
      · exact Or.inl hall
      · obtain ⟨front, rest, d', rfl, hloop, hd'⟩ := hsome
        refine Or.inr ⟨wc :: front, rest, d', rfl, hloop, ?_⟩
        rwa [shortestText_cons, ← List.append_assoc]
    · rw [if_neg hn]
      refine Or.inr ⟨[], wc :: cs, d, rfl, rfl, ?_⟩
      have hbs : bs ++ shortestText [] = bs := List.append_nil bs
      rwa [hbs]

/-- **What is written**: the characters that fit, one after the other, and the terminator when it is
reached and fits as well.  What is returned is the number of the bytes before it. -/
theorem wcstombs_eq {cs : List Int32} (hcs : 0 ∉ cs) (mem : Memory) (n : ℕ) :
    ∃ front rest, cs = front ++ rest ∧ (shortestText front).length ≤ n ∧
      (∀ wc ∈ rest.head?, n < (shortestText front).length + (shortest (code wc)).length) ∧
      wcstombs mem (cs ++ [0]) n = some
        (store mem 0 (shortestText front ++
          if rest = [] ∧ (shortestText front).length < n then [0] else []),
        (shortestText front).length) := by
  have hstart : Written mem n [] { mem, n } := by
    refine ⟨?_, rfl, Nat.zero_add n⟩
    funext i
    simp [store]
  rcases wideLoop_spec hcs hstart with ⟨d, hloop, hne, hn, hmem⟩ | ⟨front, rest, d, rfl, hloop, hd⟩
  · rw [List.nil_append] at hn hmem
    refine ⟨cs, [], (List.append_nil cs).symm, by omega, by simp, ?_⟩
    rw [wcstombs, hloop, if_pos ⟨rfl, by omega⟩, ← hmem]
    exact congrArg (fun count => some (d.mem, count)) (by omega)
  · rw [List.nil_append] at hd
    obtain ⟨front', rest, d', rfl, hloop', hn, hnext, hmem⟩ :=
      tightLoop_spec (fun hz => hcs (List.mem_append_right _ hz)) hd
    rw [← shortestText_append] at hn hmem
    refine ⟨front ++ front', rest, (List.append_assoc _ _ _).symm, by omega, ?_, ?_⟩
    · intro wc hwc
      have := hnext wc hwc
      omega
    · have hroom : (rest = [] ∧ d'.n ≠ 0) =
          (rest = [] ∧ (shortestText (front ++ front')).length < n) := by
        refine propext (and_congr_right fun _ => ?_)
        omega
      simp only [hroom] at hmem
      rw [wcstombs, hloop, Option.bind_eq_bind, Option.bind_some]
      dsimp only
      rw [hloop', Option.bind_eq_bind, Option.bind_some, hmem]
      exact congrArg (fun count => some (_, count)) (by omega)

/-! ### There and back -/

theorem accepted_shortest {wc : Int32} (h : wc ≠ -1) : Accepted (width (code wc)) (code wc) := by
  obtain ⟨hcap, hleast⟩ := width_spec (code_lt wc)
  refine ⟨hcap, ?_, fun herr => h (code_inj herr)⟩
  by_cases hone : width (code wc) = 1
  · exact Or.inl hone
  · have hpos := width_pos (code wc)
    exact Or.inr (hleast 1 (by omega))

theorem mbstowcs_shortestText {cs : List Int32} (h0 : 0 ∉ cs) (herr : -1 ∉ cs) (m : ℕ) :
    ∃ dest, mbstowcs (shortestText cs ++ [0]) m = some (dest, some (min m cs.length)) ∧
      dest.take (min m cs.length) = cs.take m := by
  have hforms : ∀ cs : List Int32, text (cs.map fun wc => (width (code wc), code wc)) =
      shortestText cs := by
    intro cs
    rw [text, List.flatMap_map]
    rfl
  have hcodes : ∀ cs : List Int32, codes (cs.map fun wc => (width (code wc), code wc)) = cs := by
    intro cs
    rw [codes, List.map_map]
    conv => rhs; rw [← List.map_id cs]
    refine List.map_congr_left fun wc _ => ?_
    exact code_inj (code_ofNat (code_lt wc))
  have hsub : ∀ wc ∈ cs.take m, wc ∈ cs := fun wc hwc => List.mem_of_mem_take hwc
  have hlen : ((cs.take m).map fun wc => (width (code wc), code wc)).length = min m cs.length := by
    rw [List.length_map, List.length_take]
  have hzero : 0 ∉ shortestText cs := by
    intro hmem
    obtain ⟨wc, hwc, hmem⟩ := List.mem_flatMap.mp hmem
    refine zero_notMem_form (width_spec (code_lt wc)).1 (fun hz => h0 ?_) hmem
    have : wc = 0 := code_inj hz
    rwa [← this]
  have hfront : Front (shortestText cs) m ((cs.take m).map fun wc => (width (code wc), code wc))
      (shortestText (cs.drop m)) := by
    refine ⟨?_, ?_, ?_⟩
    · rw [hforms, ← shortestText_append, List.take_append_drop]
    · rw [hlen]
      rcases Nat.lt_or_ge cs.length m with hlt | hge
      · rw [List.drop_of_length_le hlt.le]
        exact Or.inr ⟨by omega, rfl⟩
      · exact Or.inl (by omega)
    · intro f hf
      obtain ⟨wc, hwc, rfl⟩ := List.mem_map.mp hf
      exact accepted_shortest fun h => herr (h ▸ hsub wc hwc)
  obtain ⟨dest, hread, hdest⟩ := hfront.read hzero
  rw [hlen] at hread hdest
  rw [hcodes] at hdest
  exact ⟨dest, hread, hdest⟩

/-- **Wide strings and strings of bytes.**

* A code point is written in its shortest form, and no other form of it is shorter.
* Of a wide string the characters are written that fit, and no part of the next one; what is
  returned is the number of their bytes, without the terminator.
* When there is room, `bb_mbstowcs` gives the wide string back.
* `bb_mbstowcs` does not read on behind the terminator, and it reads the shortest forms, or gives
  an error, exactly when there is no overlong form among accepted ones. -/
theorem wide_strings (s : List UInt8) (n : ℕ) :
    (∀ wc, wcrtombInternal wc = shortest (code wc) ∧ code wc < capacity (width (code wc)) ∧
      ∀ k < width (code wc), capacity k ≤ code wc) ∧
    (∀ cs mem n, 0 ∉ cs → ∃ front rest, cs = front ++ rest ∧ (shortestText front).length ≤ n ∧
      (∀ wc ∈ rest.head?, n < (shortestText front).length + (shortest (code wc)).length) ∧
      wcstombs mem (cs ++ [0]) n = some
        (store mem 0 (shortestText front ++
          if rest = [] ∧ (shortestText front).length < n then [0] else []),
        (shortestText front).length)) ∧
    (∀ cs mem n m, 0 ∉ cs → -1 ∉ cs → (shortestText cs).length < n → ∃ mem' len dest,
      wcstombs mem (cs ++ [0]) n = some (mem', len) ∧
      mbstowcs (load mem' 0 (len + 1)) m = some (dest, some (min m cs.length)) ∧
      dest.take (min m cs.length) = cs.take m) ∧
    (0 ∉ s → (∃ r, mbstowcs (s ++ [0]) n = some r) ∧ (Faithful s n ↔ NoOverlong s n)) := by
  refine ⟨fun wc => ⟨wcrtombInternal_eq wc, width_spec (code_lt wc)⟩,
    fun cs mem n hcs => wcstombs_eq hcs mem n, fun cs mem n m hcs herr hroom => ?_,
    fun hs => ⟨mbstowcs_isSome hs n, faithful_iff hs n⟩⟩
  obtain ⟨front, rest, rfl, -, hnext, hwrite⟩ := wcstombs_eq hcs mem n
  have hrest : rest = [] := by
    cases rest with
    | nil => rfl
    | cons wc rest =>
      have hlt := hnext wc rfl
      rw [shortestText_append, shortestText_cons, List.length_append, List.length_append] at hroom
      omega
  subst hrest
  rw [List.append_nil] at hcs herr hroom hwrite ⊢
  rw [if_pos ⟨rfl, hroom⟩] at hwrite
  obtain ⟨dest, hread, hdest⟩ := mbstowcs_shortestText hcs herr m
  refine ⟨_, _, dest, hwrite, ?_, hdest⟩
  have hload := load_store mem 0 (shortestText front ++ [0])
  rw [List.length_append, List.length_singleton] at hload
  rw [hload]
  exact hread

/-- The string of an accented letter is read as it should be. -/
theorem wide_strings_two_bytes : Faithful [0xc3, 0xa9] 5 ↔ NoOverlong [0xc3, 0xa9] 5 :=
  ((wide_strings [0xc3, 0xa9] 5).2.2.2 (by decide)).2

/-- 0x100 in four bytes is read. -/
theorem overlong_is_read : ∃ s n, 0 ∉ s ∧ ¬ Faithful s n := by
  refine ⟨[0xf0, 0x80, 0x84, 0x80], 2, by decide, fun h => ?_⟩
  obtain ⟨rest, hrest, hall⟩ := h [0x100, 0] 1 (by decide)
  have hshort : shortestText ([0x100, 0].take 1) = [0xc4, 0x80] := by decide
  rw [hall (by decide), hshort] at hrest
  revert hrest
  decide

end Rustybox.Libbb.Unicode
