import Rustybox.Ed.Edits

/-!
# Reading lines from a file

`readLines` looks for lines in a buffer and reads more behind what it has.  When the buffer begins
with an unfinished line that does not fill it, the next read goes over that line.  This is so when
a read has brought neither a newline nor all that it was asked for: `Unbroken` says that no read
but the last does that.
-/

namespace Rustybox.Ed

open Linked

variable {s : Globals} {ps : List ℕ} {a : Plain}

/-! ### The buffer -/

theorem length_slice (mem : ℕ → UInt8) (ptr used : ℕ) : (slice mem ptr used).length = used := by
  rw [slice, List.length_map, List.length_range]

theorem slice_add (mem : ℕ → UInt8) (ptr m n : ℕ) :
    slice mem ptr (m + n) = slice mem ptr m ++ slice mem (ptr + m) n := by
  rw [slice, List.range_add, List.map_append, List.map_map, slice, slice]
  congr 1
  refine List.map_congr_left fun i _ => ?_
  rw [Function.comp_apply, Nat.add_assoc]

theorem slice_split (mem : ℕ → UInt8) (ptr : ℕ) {k used : ℕ} (hk : k ≤ used) :
    slice mem ptr k = (slice mem ptr used).take k ∧
      slice mem (ptr + k) (used - k) = (slice mem ptr used).drop k := by
  have h := slice_add mem ptr k (used - k)
  rw [show k + (used - k) = used by omega] at h
  rw [h, List.take_left' (length_slice _ _ _), List.drop_left' (length_slice _ _ _)]
  exact ⟨rfl, rfl⟩

theorem slice_store (mem : ℕ → UInt8) (ptr : ℕ) (data : Text) :
    slice (store mem ptr data) ptr data.length = data := by
  refine List.ext_getElem (length_slice _ _ _) fun i h1 h2 => ?_
  simp only [slice, List.getElem_map, List.getElem_range]
  rw [store, if_pos (by omega), Nat.add_sub_cancel_left, List.getD_eq_getElem?_getD,
    List.getElem?_eq_getElem h2, Option.getD_some]

theorem slice_store_before (mem : ℕ → UInt8) (ptr : ℕ) (data : Text) :
    slice (store mem ptr data) 0 ptr = slice mem 0 ptr := by
  refine List.map_congr_left fun i hi => ?_
  rw [store, if_neg]
  rw [List.mem_range] at hi
  omega

theorem slice_store_append (mem : ℕ → UInt8) (ptr : ℕ) (data : Text) :
    slice (store mem ptr data) 0 (ptr + data.length) = slice mem 0 ptr ++ data := by
  rw [slice_add, slice_store_before, Nat.zero_add, slice_store]

/-! ### Lines -/

theorem splitLines_of_notMem : ∀ {data : Text}, 10 ∉ data → Plain.splitLines data = ([], data) := by
  intro data
  induction data with
  | nil => intro _; rfl
  | cons c data ih =>
    intro h
    rw [List.mem_cons, not_or] at h
    rw [Plain.splitLines_cons, if_neg (Ne.symm h.1), ih h.2]

theorem splitLines_line : ∀ {line : Text}, 10 ∉ line → ∀ data : Text,
    Plain.splitLines (line ++ 10 :: data) =
      ((line ++ [10]) :: (Plain.splitLines data).1, (Plain.splitLines data).2) := by
  intro line
  induction line with
  | nil => intro _ data; rfl
  | cons c line ih =>
    intro h data
    rw [List.mem_cons, not_or] at h
    rw [List.cons_append, Plain.splitLines_cons, if_neg (Ne.symm h.1), ih h.2]
    rfl

theorem splitLines_fst_ne_nil {data : Text} (h : 10 ∈ data) : (Plain.splitLines data).1 ≠ [] := by
  induction data with
  | nil => cases h
  | cons c data ih =>
    rw [Plain.splitLines_cons]
    by_cases hc : c = 10
    · rw [if_pos hc]
      exact List.cons_ne_nil _ _
    · rw [if_neg hc]
      have hne := ih ((List.mem_cons.mp h).resolve_left (Ne.symm hc))
      obtain ⟨line, lines, hl⟩ := List.exists_cons_of_ne_nil hne
      rw [show Plain.splitLines data = (line :: lines, (Plain.splitLines data).2) from
        Prod.ext hl rfl]
      exact List.cons_ne_nil _ _

theorem splitLines_append_snd {new : Text} (h : 10 ∈ new) : ∀ data : Text,
    (Plain.splitLines (data ++ new)).2 = (Plain.splitLines new).2 := by
  intro data
  induction data with
  | nil => rfl
  | cons c data ih =>
    rw [← ih, List.cons_append, Plain.splitLines_cons]
    by_cases hc : c = 10
    · rw [if_pos hc]
    · rw [if_neg hc]
      obtain ⟨line, lines, hl⟩ := List.exists_cons_of_ne_nil
        (splitLines_fst_ne_nil (List.mem_append_right data h))
      rw [show Plain.splitLines (data ++ new) = (line :: lines, (Plain.splitLines (data ++ new)).2)
        from Prod.ext hl rfl]

/-- The lines of what is in the buffer and is still to come. -/
def linesOf (ok : Bool) (data : Text) : List Text :=
  if ok ∧ (Plain.splitLines data).2 ≠ [] then
    (Plain.splitLines data).1 ++ [(Plain.splitLines data).2]
  else (Plain.splitLines data).1

theorem linesOf_line (ok : Bool) {line : Text} (h : 10 ∉ line) (data : Text) :
    linesOf ok (line ++ 10 :: data) = (line ++ [10]) :: linesOf ok data := by
  rw [linesOf, linesOf, splitLines_line h]
  by_cases hc : ok = true ∧ (Plain.splitLines data).2 ≠ []
  · rw [if_pos hc, if_pos hc]
    rfl
  · rw [if_neg hc, if_neg hc]

theorem memchr_eq_some {data : Text} {k : ℕ} (h : memchr data 10 = some k) :
    ∃ line rest, data = line ++ 10 :: rest ∧ 10 ∉ line ∧ line.length = k := by
  induction data generalizing k with
  | nil => cases h
  | cons c data ih =>
    rw [memchr, List.idxOf?_cons] at h
    by_cases hc : c = 10
    · rw [if_pos (by simpa using hc), Option.some.injEq] at h
      exact ⟨[], data, by rw [hc]; rfl, List.not_mem_nil, h⟩
    · rw [if_neg (by simpa using hc), Option.map_eq_some_iff] at h
      obtain ⟨j, hj, rfl⟩ := h
      obtain ⟨line, rest, rfl, hline, hlen⟩ := ih hj
      refine ⟨c :: line, rest, rfl, ?_, by rw [List.length_cons, hlen]⟩
      rw [List.mem_cons, not_or]
      exact ⟨Ne.symm hc, hline⟩

theorem memchr_eq_none {data : Text} (h : memchr data 10 = none) : 10 ∉ data :=
  List.idxOf?_eq_none_iff.mp h

/-! ### Reads -/

/-- The size of the buffer when a read is asked for. -/
def grow (size used : ℕ) : ℕ := if used ≥ size then size * 3 / 2 else size

/-- No read but the last brings neither a newline nor as much as it was asked for.  The buffer has
the room `size`, and an unfinished line of `used` bytes, when the `i`-th read is made. -/
def Unbroken (f : File) : ℕ → (size used i : ℕ) → (rest : Text) → Prop
  | 0, _, _, _, _ => True
  | n + 1, size, used, i, rest =>
    let data := rest.take (min (grow size used - used) (f.sizes i + 1))
    rest.drop data.length = [] ∨
      if 10 ∈ data then
        Unbroken f n (grow size used) (Plain.splitLines data).2.length (i + 1)
          (rest.drop data.length)
      else
        used + data.length = grow size used ∧
          Unbroken f n (grow size used) (used + data.length) (i + 1) (rest.drop data.length)

theorem unbroken_nil (f : File) (n size used i : ℕ) : Unbroken f n size used i [] := by
  cases n with
  | zero => trivial
  | succ n => exact Or.inl (by simp)

theorem Holds.setBuf (hs : Holds s ps a) (bufMem : ℕ → UInt8) {bufSize : ℕ} (h : 2 ≤ bufSize) :
    Holds { s with bufMem, bufSize } ps a :=
  ⟨hs.path, hs.texts, hs.fresh, hs.lastNum, hs.curNum, hs.le, hs.pos, hs.curLine, hs.marks,
    hs.searchString, h⟩

theorem After.ofBuf {s' : Globals} {a' : Plain} {bufMem : ℕ → UInt8} {bufSize : ℕ}
    (h : After { s with bufMem, bufSize } a s' a') : After s a s' a' := ⟨h.holds, h.saved, h.dirty⟩

/-- What stands for the reads to come when the loop goes round: the bytes `data` are in the buffer
at `ptr`. -/
structure Ready (f : File) (n size ptr i : ℕ) (data rest : Text) : Prop where
  safe : 10 ∈ data ∨ ptr ≠ 0 ∨ data = [] ∨ size ≤ data.length ∨ rest = []
  unbroken : Unbroken f n size (Plain.splitLines data).2.length i rest

variable {f : File}

theorem Ready.line {n size ptr i : ℕ} {line data rest : Text} (hline : 10 ∉ line)
    (h : Ready f n size ptr i (line ++ 10 :: data) rest) :
    Ready f n size (ptr + (line.length + 1)) i data rest := by
  refine ⟨Or.inr (Or.inl (by omega)), ?_⟩
  have := h.unbroken
  rwa [splitLines_line hline] at this

theorem Ready.read {n size ptr i : ℕ} {data rest : Text} (hnl : 10 ∉ data)
    (h : Ready f (n + 1) size ptr i data rest) :
    let new := rest.take (min (grow size data.length - data.length) (f.sizes i + 1))
    Ready f n (grow size data.length) 0 (i + 1) (data ++ new) (rest.drop new.length) := by
  intro new
  have hu := h.unbroken
  rw [splitLines_of_notMem hnl] at hu
  rcases hu with hnil | hu
  · exact ⟨Or.inr (Or.inr (Or.inr (Or.inr hnil))), by rw [hnil]; exact unbroken_nil _ _ _ _ _⟩
  · by_cases hnew : 10 ∈ new
    · rw [if_pos hnew] at hu
      refine ⟨Or.inl (List.mem_append_right _ hnew), ?_⟩
      rw [splitLines_append_snd hnew]
      exact hu
    · rw [if_neg hnew] at hu
      refine ⟨Or.inr (Or.inr (Or.inr (Or.inl ?_))), ?_⟩
      · rw [List.length_append, hu.1]
      · rw [splitLines_of_notMem (by simp [hnl, hnew]), List.length_append]
        exact hu.2

theorem makeRoom_eq (s : Globals) (ptr used : ℕ) : ∃ mem ptr',
    makeRoom s ptr used = ({ s with bufMem := mem, bufSize := grow s.bufSize used }, ptr') ∧
      slice mem 0 used = slice s.bufMem ptr used ∧
      ((ptr ≠ 0 ∨ s.bufSize ≤ used ∨ used = 0) → ptr' = used) := by
  have hmove := slice_store s.bufMem 0 (slice s.bufMem ptr used)
  rw [length_slice] at hmove
  rw [makeRoom]
  by_cases hptr : ptr ≠ 0
  · rw [if_pos hptr]
    by_cases hfull : used ≥ s.bufSize
    · rw [grow, if_pos hfull]
      exact ⟨_, used, if_pos hfull, hmove, fun _ => rfl⟩
    · rw [grow, if_neg hfull]
      exact ⟨_, used, if_neg hfull, hmove, fun _ => rfl⟩
  · rw [if_neg hptr]
    rw [not_not] at hptr
    subst hptr
    by_cases hfull : used ≥ s.bufSize
    · rw [grow, if_pos hfull]
      exact ⟨s.bufMem, used, if_pos hfull, rfl, fun _ => rfl⟩
    · rw [grow, if_neg hfull]
      refine ⟨s.bufMem, 0, if_neg hfull, rfl, ?_⟩
      intro h
      omega

theorem two_le_grow {size : ℕ} (h : 2 ≤ size) (used : ℕ) : 2 ≤ grow size used := by
  unfold grow
  split_ifs <;> omega

theorem used_lt_grow {size used : ℕ} (h : 2 ≤ size) (hle : used ≤ size) :
    used < grow size used := by
  unfold grow
  split_ifs <;> omega

theorem linesOf_last (ok : Bool) {data : Text} (h : 10 ∉ data) :
    linesOf ok data = if ok ∧ data ≠ [] then [data] else [] := by
  rw [linesOf, splitLines_of_notMem h]
  rfl

/-- The line that is next goes in behind the current line, unless nothing is read. -/
def SteadyLines (f : File) (m size ptr i : ℕ) (a : Plain) (num : ℤ) (data rest : Text) : Prop :=
  Steady a.curNum num ∨ Ready f m size ptr i data rest ∧ linesOf f.ok (data ++ rest) = []

theorem Plain.steady_insert (a : Plain) {num : ℤ} (h1 : 1 ≤ num) (h2 : num ≤ a.lines.length + 1)
    (data : Text) : Steady (a.insert num [data]).curNum (num + 1) ∧
      num + 1 ≤ (a.insert num [data]).lines.length + 1 := by
  rw [a.insert_of_range h1 h2 (List.cons_ne_nil _ _)]
  constructor
  · left
    dsimp only
    rw [List.length_singleton]
    omega
  · simp
    omega

theorem Holds.readLast (hs : Holds s ps a) {num : ℤ} {data : Text} (h1 : 1 ≤ num)
    (h2 : num ≤ a.lines.length + 1) (hnl : 10 ∉ data)
    (hsteady : Steady a.curNum num ∨ linesOf f.ok data = []) :
    ∃ s' r, (if f.ok then
          if data.length ≠ 0 then do
            let (s, ok) ← Ed.insertLine s num data
            return (s, if ok then 1 else -1)
          else some (s, 1)
        else some (s, 0)) = some (s', r) ∧ ((r : ℤ) = 0 ↔ f.ok = false) ∧
      After s a s' (a.insert num (linesOf f.ok data)) := by
  rw [linesOf_last _ hnl] at hsteady ⊢
  cases hok : f.ok with
  | false =>
    rw [if_neg (by simp), if_neg (by simp), a.insert_nil]
    exact ⟨s, 0, rfl, by simp, hs.after⟩
  | true =>
    rw [if_pos rfl]
    by_cases hdata : data = []
    · subst hdata
      rw [if_neg (by simp), if_neg (by simp), a.insert_nil]
      exact ⟨s, 1, rfl, by simp, hs.after⟩
    · have hc : f.ok = true ∧ data ≠ [] := ⟨hok, hdata⟩
      rw [if_pos hc] at hsteady
      rw [hok] at hc
      rw [if_pos (by simpa using hdata), if_pos hc]
      obtain ⟨lines, hins, hs'⟩ := hs.insertLine data h1 h2
        (hsteady.resolve_right (List.cons_ne_nil _ _))
      rw [hins]
      exact ⟨_, 1, rfl, by simp, ⟨⟨_, hs'⟩, rfl, Or.inl rfl⟩⟩

theorem slice_line {mem : ℕ → UInt8} {ptr used k : ℕ} (h : memchr (slice mem ptr used) 10 = some k) :
    ∃ line, 10 ∉ line ∧ line.length = k ∧ k + 1 ≤ used ∧ slice mem ptr (k + 1) = line ++ [10] ∧
      slice mem ptr used = line ++ 10 :: slice mem (ptr + (k + 1)) (used - (k + 1)) := by
  obtain ⟨line, data, hslice, hline, rfl⟩ := memchr_eq_some h
  have hused : used = line.length + 1 + data.length := by
    have := congrArg List.length hslice
    rw [length_slice, List.length_append, List.length_cons] at this
    omega
  obtain ⟨htake, hdrop⟩ := slice_split mem ptr (show line.length + 1 ≤ used by omega)
  rw [hslice, show line ++ 10 :: data = (line ++ [10]) ++ data by simp] at htake hdrop
  rw [List.take_left' (by simp)] at htake
  rw [List.drop_left' (by simp)] at hdrop
  exact ⟨line, hline, rfl, by omega, htake, by rw [hslice, hdrop]⟩

/-- What is read next, when nothing has been lost so far. -/
theorem Ready.more {m size ptr ptr' used i : ℕ} {mem : ℕ → UInt8} {rest : Text}
    (h : Ready f m size ptr i (slice mem ptr used) rest) (hno : 10 ∉ slice mem ptr used)
    (hrest : rest ≠ []) (hm : rest.length < m)
    (hptr : (ptr ≠ 0 ∨ size ≤ used ∨ used = 0) → ptr' = used) :
    let new := rest.take (min (grow size used - used) (f.sizes i + 1))
    Ready f (m - 1) (grow size used) 0 (i + 1) (slice mem ptr used ++ new) (rest.drop new.length) ∧
      ptr' = used := by
  obtain ⟨m, rfl⟩ : ∃ m', m = m' + 1 := ⟨m - 1, by omega⟩
  have hread := h.read hno
  rw [length_slice] at hread
  refine ⟨hread, hptr ?_⟩
  rcases h.safe with h | h | h | h | h
  · exact absurd h hno
  · exact Or.inl h
  · exact Or.inr (Or.inr (by rw [← length_slice mem ptr used, h]; rfl))
  · rw [length_slice] at h
    exact Or.inr (Or.inl h)
  · exact absurd h hrest

/-- **The loop inserts lines**, and when no read goes over an unfinished line, these are the lines
of what is in the buffer and of what is still to come. -/
theorem Holds.readLoop : ∀ (n : ℕ) {m : ℕ} {s : Globals} {ps : List ℕ} {a : Plain},
    Holds s ps a → ∀ {num : ℤ} {ptr used i : ℕ} {rest : Text},
    2 * rest.length + used < n → rest.length < m → used ≤ s.bufSize →
    1 ≤ num → num ≤ a.lines.length + 1 →
    SteadyLines f m s.bufSize ptr i a num (slice s.bufMem ptr used) rest →
    ∃ s' r new, readLoop f n s num ptr used i rest = some (s', r) ∧ (r = 0 ↔ f.ok = false) ∧
      After s a s' (a.insert num new) ∧
      (Ready f m s.bufSize ptr i (slice s.bufMem ptr used) rest →
        new = linesOf f.ok (slice s.bufMem ptr used ++ rest)) := by
  intro n
  induction n with
  | zero => intro m s ps a _ num ptr used i rest hn; exact absurd hn (Nat.not_lt_zero _)
  | succ n ih =>
    intro m s ps a hs num ptr used i rest hn hm hle h1 h2 hsteady
    rw [Ed.readLoop]
    cases hnl : memchr (slice s.bufMem ptr used) 10 with
    | some k =>
      -- a line is taken from the buffer
      obtain ⟨line, hline, rfl, hused, htake, hslice⟩ := slice_line hnl
      rw [hslice, SteadyLines, List.append_assoc, List.cons_append, linesOf_line _ hline] at hsteady
      obtain ⟨lines, hins, hs'⟩ := hs.insertLine (line ++ [10]) h1 h2
        (hsteady.resolve_right fun h => List.cons_ne_nil _ _ h.2)
      obtain ⟨hsteady', hnum⟩ := a.steady_insert h1 h2 (line ++ [10])
      obtain ⟨s', r, new, hloop, hr, hafter, hnew⟩ := ih hs' (by omega) hm
        (show used - (line.length + 1) ≤ s.bufSize by omega) (show 1 ≤ num + 1 by omega) hnum
        (Or.inl hsteady')
      rw [a.insert_cons h1 h2] at hafter
      refine ⟨s', r, (line ++ [10]) :: new, ?_, hr, After.trans ⟨⟨_, hs'⟩, rfl, Or.inl rfl⟩ hafter,
        ?_⟩
      · dsimp only
        rw [htake, hins]
        exact hloop
      · intro hready
        rw [hslice] at hready ⊢
        rw [hnew (hready.line hline), List.append_assoc, List.cons_append, linesOf_line _ hline]
        rfl
    | none =>
      have hno := memchr_eq_none hnl
      obtain ⟨mem, ptr', hroom, hmem, hptr⟩ := makeRoom_eq s ptr used
      have hsize := two_le_grow hs.bufSize used
      have hlt := used_lt_grow hs.bufSize hle
      rw [hroom]
      dsimp only
      by_cases hrest : rest = []
      · subst hrest
        rw [if_pos rfl, hmem]
        rw [SteadyLines, List.append_nil] at hsteady
        obtain ⟨s', r, heq, hr, hafter⟩ := (hs.setBuf mem hsize).readLast h1 h2 hno
          (hsteady.imp_right And.right)
        rw [length_slice] at heq
        exact ⟨s', r, _, heq, hr, hafter.ofBuf, fun _ => by rw [List.append_nil]⟩
      · rw [if_neg hrest]
        -- more is read, and goes behind what there is when that is safe
        have hpos : 0 < rest.length := List.length_pos_iff.mpr hrest
        have hrest' := List.prefix_iff_eq_append.mp
          (List.take_prefix (min (grow s.bufSize used - used) (f.sizes i + 1)) rest)
        have hlen : (rest.take (min (grow s.bufSize used - used) (f.sizes i + 1))).length =
            min (min (grow s.bufSize used - used) (f.sizes i + 1)) rest.length :=
          List.length_take
        have hnext := fun h : Ready f m s.bufSize ptr i (slice s.bufMem ptr used) rest =>
          h.more hno hrest hm hptr
        dsimp only at hnext
        generalize rest.take (min (grow s.bufSize used - used) (f.sizes i + 1)) = data
          at hnext hrest' hlen ⊢
        have hbuf (hp : ptr' = used) : slice (store mem ptr' data) 0 (used + data.length) =
            slice s.bufMem ptr used ++ data := by rw [hp, slice_store_append, hmem]
        have hsteady' : SteadyLines f (m - 1) (grow s.bufSize used) 0 (i + 1) a num
            (slice (store mem ptr' data) 0 (used + data.length)) (rest.drop data.length) := by
          refine hsteady.imp_right fun h => ?_
          obtain ⟨hready, hp⟩ := hnext h.1
          rw [hbuf hp]
          refine ⟨hready, ?_⟩
          rw [List.append_assoc, hrest']
          exact h.2
        obtain ⟨s', r, new, hloop, hr, hafter, hnew⟩ := ih
          (hs.setBuf (store mem ptr' data) hsize)
          (by rw [List.length_drop]; omega) (by rw [List.length_drop]; omega)
          (show used + data.length ≤ grow s.bufSize used by omega) h1 h2 hsteady'
        refine ⟨s', r, new, hloop, hr, hafter.ofBuf, ?_⟩
        intro h
        obtain ⟨hready, hp⟩ := hnext h
        dsimp only at hnew
        rw [hbuf hp, List.append_assoc, hrest'] at hnew
        exact hnew hready

/-- No read of a file that is read goes over an unfinished line. -/
def UnbrokenRead (bufSize : ℕ) (a : Plain) (f : File) (num : ℤ) : Prop :=
  f.opened → 1 ≤ num → num ≤ a.lines.length + 1 →
    Unbroken f (f.data.length + 1) bufSize 0 0 f.data

/-- The lines of a file that is read go in behind the current line, unless there are none. -/
def SteadyRead (bufSize : ℕ) (a : Plain) (f : File) (num : ℤ) : Prop :=
  f.opened → 1 ≤ num → num ≤ a.lines.length + 1 →
    Steady a.curNum num ∨
      Unbroken f (f.data.length + 1) bufSize 0 0 f.data ∧ Plain.fileLines f = []

/-- **Lines go in as one block**, and these are the lines of the file when no read goes over an
unfinished line. -/
theorem Holds.readLines (hs : Holds s ps a) {num : ℤ} (hsteady : SteadyRead s.bufSize a f num) :
    ∃ s' r a', readLines s f num = some (s', r) ∧ After s a s' a' ∧
      (r ≠ 0 → f.opened ∧ f.ok) ∧ (UnbrokenRead s.bufSize a f num → a' = a.read f num) := by
  rw [Ed.readLines, Plain.read]
  by_cases hnum : num < 1 ∨ num > s.lastNum + 1
  · rw [if_pos hnum]
    rw [hs.lastNum] at hnum
    rw [a.insert_bad hnum, ite_self]
    exact ⟨s, 0, a, rfl, hs.after, fun h => absurd rfl h, fun _ => rfl⟩
  · rw [if_neg hnum]
    rw [hs.lastNum] at hnum
    by_cases hopen : f.opened
    · rw [if_neg (not_not.mpr hopen), if_pos hopen]
      have h1 : 1 ≤ num := by omega
      have h2 : num ≤ a.lines.length + 1 := by omega
      have hready (hu : Unbroken f (f.data.length + 1) s.bufSize 0 0 f.data) :
          Ready f (f.data.length + 1) s.bufSize 0 0 (slice s.bufMem 0 0) f.data :=
        ⟨Or.inr (Or.inr (Or.inl rfl)), hu⟩
      obtain ⟨s', r, new, hloop, hr, hafter, hnew⟩ := hs.readLoop (2 * f.data.length + 1) (by omega)
        (Nat.lt_succ_self _) (Nat.zero_le _) h1 h2
        ((hsteady hopen h1 h2).imp_right fun h => ⟨hready h.1, h.2⟩)
      refine ⟨s', r, _, hloop, hafter, ?_, ?_⟩
      · intro hne
        rw [Ne, hr, Bool.not_eq_false] at hne
        exact ⟨hopen, hne⟩
      · intro hu
        rw [hnew (hready (hu hopen h1 h2))]
        rfl
    · rw [if_pos hopen, if_neg hopen]
      exact ⟨s, 0, a, rfl, hs.after, fun h => absurd rfl h, fun _ => rfl⟩

end Rustybox.Ed
