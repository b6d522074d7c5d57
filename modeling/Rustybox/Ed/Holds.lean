import Mathlib.Tactic.Common
import Rustybox.Ed.Commands

/-!
# The linked list holds the lines

`Holds s ps a`: the nodes `ps` are linked to a ring behind `&lines`, they have the lines of `a`,
and `curNum` and `curLine` say the same.  `findLine` walks from the nearest of three nodes it knows
(`findLine_eq`), so what it finds is right as long as the one it starts from is.
-/

namespace Rustybox.Ed

open Linked

/-- The addresses round the ring: line `k` is at index `k`, and `&lines` at both ends. -/
def ring (ps : List ℕ) : List ℕ := head :: (ps ++ [head])

/-- The linked list holds the lines. -/
structure Holds (s : Globals) (ps : List ℕ) (a : Plain) : Prop where
  path : Path s.lines (ring ps)
  texts : ps.map (data? s.lines) = a.lines.map some
  fresh : ∀ p ∈ ring ps, p < s.fresh
  lastNum : s.lastNum = a.lines.length
  curNum : s.curNum = a.curNum
  le : a.curNum ≤ a.lines.length
  pos : 0 ≤ a.curNum ∧ (a.lines ≠ [] → 0 < a.curNum)
  curLine : 0 < a.curNum → (ring ps)[a.curNum.toNat]? = some s.curLine
  marks : s.marks = a.marks
  searchString : s.searchString = a.searchString
  bufSize : 2 ≤ s.bufSize

variable {s : Globals} {ps : List ℕ} {a : Plain} {h : Heap Text} {l : List ℕ}

theorem length_ring (ps : List ℕ) : (ring ps).length = ps.length + 2 := by
  rw [ring, List.length_cons, List.length_append]
  rfl

theorem Holds.length (hs : Holds s ps a) : ps.length = a.lines.length := by
  have h := congrArg List.length hs.texts
  rwa [List.length_map, List.length_map] at h

/-! ### Walking -/

theorem link_of_getElem? (hp : Path h l) {i p q : ℕ} (h1 : l[i]? = some p)
    (h2 : l[i + 1]? = some q) : Link h p q := by
  obtain ⟨hi, rfl⟩ := List.getElem?_eq_some_iff.mp h1
  obtain ⟨hi', rfl⟩ := List.getElem?_eq_some_iff.mp h2
  exact hp.link hi'

theorem walkNext_eq (hp : Path h l) : ∀ (n i p : ℕ), l[i]? = some p → i + n < l.length →
    walkNext h n p = l[i + n]? := by
  intro n
  induction n with
  | zero => intro i p hi _; exact hi.symm
  | succ n ih =>
    intro i p hi hlt
    have hi1 : i + 1 < l.length := by omega
    have hq := List.getElem?_eq_getElem hi1
    rw [walkNext, (link_of_getElem? hp hi hq).1]
    have := ih (i + 1) _ hq (by omega)
    rwa [show i + (n + 1) = i + 1 + n by omega]

theorem walkPrev_eq (hp : Path h l) : ∀ (n i p : ℕ), l[i + n]? = some p →
    walkPrev h n p = l[i]? := by
  intro n
  induction n with
  | zero => intro i p hi; exact hi.symm
  | succ n ih =>
    intro i p hi
    obtain ⟨hlt, -⟩ := List.getElem?_eq_some_iff.mp hi
    have hq := List.getElem?_eq_getElem (show i + n < l.length by omega)
    rw [walkPrev, (link_of_getElem? hp hq hi).2]
    exact ih i _ hq

theorem walk_eq (hp : Path h l) {i j p : ℕ} (hi : l[i]? = some p) (hj : j < l.length) :
    ∃ r q, walkNext h (j - i) p = some r ∧ walkPrev h (i - j) r = some q ∧ l[j]? = some q := by
  obtain ⟨hlt, -⟩ := List.getElem?_eq_some_iff.mp hi
  have hq := List.getElem?_eq_getElem hj
  by_cases hij : i ≤ j
  · refine ⟨l[j], l[j], ?_, ?_, hq⟩
    · rw [walkNext_eq hp _ _ _ hi (by omega), show i + (j - i) = j by omega, hq]
    · rw [show i - j = 0 by omega]
      rfl
  · refine ⟨p, l[j], ?_, ?_, hq⟩
    · rw [show j - i = 0 by omega]
      rfl
    · rw [walkPrev_eq hp (i - j) j p (by rw [show j + (i - j) = i by omega]; exact hi), hq]

theorem ring_zero (ps : List ℕ) : (ring ps)[0]? = some head := rfl

theorem ring_last (ps : List ℕ) : (ring ps)[ps.length + 1]? = some head := by
  rw [ring, List.getElem?_cons_succ, List.getElem?_append_right (le_refl _), Nat.sub_self]
  rfl

theorem ring_line {i : ℕ} (hi : i < ps.length) : (ring ps)[i + 1]? = some ps[i] := by
  rw [ring, List.getElem?_cons_succ, List.getElem?_append_left hi, List.getElem?_eq_getElem hi]

theorem exists_ring (ps : List ℕ) {i : ℕ} (hi : i < ps.length + 2) :
    ∃ p, (ring ps)[i]? = some p :=
  ⟨_, List.getElem?_eq_getElem (by rw [length_ring]; exact hi)⟩

/-- `findLine` sets out from the first line where there is no current one. -/
def Globals.withCurrent (s : Globals) (first : ℕ) : Globals :=
  if s.curNum ≤ 0 then { s with curNum := 1, curLine := first } else s

/-- **`findLine` finds the line**, as long as the current line is right or it does not walk from
there. -/
theorem findLine_eq (hp : Path s.lines (ring ps)) (hlast : s.lastNum = ps.length) {num : ℤ}
    (h1 : 1 ≤ num) (h2 : num ≤ ps.length) (hle : s.curNum ≤ s.lastNum)
    (hcur : 0 < s.curNum → num < s.curNum / 2 ∨ (ring ps)[s.curNum.toNat]? = some s.curLine)
    {first : ℕ} (hfirst : (ring ps)[1]? = some first) :
    findLine s num = some (s.withCurrent first, (ring ps)[num.toNat]?) := by
  obtain ⟨last, hl⟩ := exists_ring ps (i := ps.length) (by omega)
  have hnext : next? s.lines head = some first := (link_of_getElem? hp (ring_zero ps) hfirst).1
  have hprev : prev? s.lines head = some last := (link_of_getElem? hp hl (ring_last ps)).2
  have hlen := length_ring ps
  generalize hs' : s.withCurrent first = s'
  have hlines : s'.lines = s.lines := by
    rw [← hs', Globals.withCurrent]
    exact apply_ite Globals.lines _ _ _ |>.trans (ite_self _)
  have hlast' : s'.lastNum = ps.length := by
    rw [← hlast, ← hs', Globals.withCurrent]
    exact apply_ite Globals.lastNum _ _ _ |>.trans (ite_self _)
  have hpos : 0 < s'.curNum ∧ s'.curNum ≤ ps.length ∧
      (num < s'.curNum / 2 ∨ (ring ps)[s'.curNum.toNat]? = some s'.curLine) := by
    rw [← hs', Globals.withCurrent]
    by_cases h0 : s.curNum ≤ 0
    · rw [if_pos h0]
      exact ⟨Int.zero_lt_one, by show (1 : ℤ) ≤ _; omega, Or.inr hfirst⟩
    · rw [if_neg h0]
      exact ⟨by omega, by omega, hcur (by omega)⟩
  unfold findLine
  rw [if_neg (by omega), hnext]
  simp only [Option.bind_eq_bind, Option.bind_some, Option.pure_def]
  rw [← Globals.withCurrent, hs', hlines, hprev]
  by_cases heq : num = s'.curNum
  · rw [if_pos heq]
    rcases hpos.2.2 with hlt | hline
    · omega
    · rw [heq, hline]
  · rw [if_neg heq]
    have hto {lnum : ℤ} {lp : ℕ} (h0 : 0 ≤ lnum) (hlp : (ring ps)[lnum.toNat]? = some lp) :
        ((walkNext s.lines (num - lnum).toNat lp).bind fun lp =>
          (walkPrev s.lines (lnum - num).toNat lp).bind fun lp => some (s', some lp)) =
          some (s', (ring ps)[num.toNat]?) := by
      obtain ⟨r, q, hr, hq, hnum⟩ := walk_eq hp hlp (j := num.toNat) (by omega)
      rw [show (num - lnum).toNat = num.toNat - lnum.toNat by omega,
        show (lnum - num).toNat = lnum.toNat - num.toNat by omega, hr, Option.bind_some, hq,
        Option.bind_some, hnum]
    simp only [Option.bind_some]
    by_cases hlow : num < s'.curNum / 2
    · rw [if_pos hlow]
      exact hto Int.one_nonneg hfirst
    · rw [if_neg hlow]
      by_cases hhigh : num > (s'.curNum + s'.lastNum) / 2
      · rw [if_pos hhigh]
        exact hto (by omega) (by rw [hlast', Int.toNat_natCast]; exact hl)
      · rw [if_neg hhigh]
        exact hto (by omega) (hpos.2.2.resolve_left hlow)

theorem Holds.withCurrent (hs : Holds s ps a) (hne : a.lines ≠ []) (first : ℕ) :
    s.withCurrent first = s := by
  have hpos := hs.pos.2 hne
  have hcur := hs.curNum
  rw [Globals.withCurrent, if_neg (by omega)]

theorem Holds.findLine_eq (hs : Holds s ps a) {num : ℤ} (h1 : 1 ≤ num)
    (h2 : num ≤ a.lines.length) : findLine s num = some (s, (ring ps)[num.toNat]?) := by
  have hlen := hs.length
  have hlast := hs.lastNum
  have hcur := hs.curNum
  have hle := hs.le
  have hne : a.lines ≠ [] := by
    intro h
    rw [h, List.length_nil] at h2
    omega
  obtain ⟨first, hfirst⟩ := exists_ring ps (i := 1) (by omega)
  have h := Ed.findLine_eq hs.path (by omega) h1 (by omega) (by omega)
    (fun h0 => Or.inr (by rw [hcur] at h0 ⊢; exact hs.curLine h0)) hfirst
  rwa [hs.withCurrent hne] at h

theorem Holds.findLine_none (hs : Holds s ps a) {num : ℤ}
    (h : num < 1 ∨ num > a.lines.length) : findLine s num = some (s, none) := by
  unfold findLine
  rw [if_pos (by rw [hs.lastNum]; exact h)]
  rfl

theorem Holds.badNums (hs : Holds s ps a) (num1 num2 : ℤ) :
    badNums s num1 num2 = a.bad num1 num2 := by
  rw [Ed.badNums, Plain.bad, hs.lastNum]
  rfl

theorem Holds.alloc (hs : Holds s ps a) : Holds { s with fresh := s.fresh + 1 } ps a :=
  ⟨hs.path, hs.texts, fun p hp => Nat.lt_succ_of_lt (hs.fresh p hp), hs.lastNum, hs.curNum, hs.le,
    hs.pos, hs.curLine, hs.marks, hs.searchString, hs.bufSize⟩

theorem Holds.setCurNum (hs : Holds s ps a) (num : ℤ) (h1 : 1 ≤ num)
    (h2 : num ≤ a.lines.length) : ∃ lp, setCurNum s num =
      some ({ s with curNum := num, curLine := lp }, true) ∧
      Holds { s with curNum := num, curLine := lp } ps { a with curNum := num } := by
  have hlen := hs.length
  obtain ⟨lp, hlp⟩ := exists_ring ps (i := num.toNat) (by omega)
  refine ⟨lp, ?_, ⟨hs.path, hs.texts, hs.fresh, hs.lastNum, rfl, h2, ⟨by show (0 : ℤ) ≤ num; omega,
    fun _ => show (0 : ℤ) < num by omega⟩, fun _ => hlp, hs.marks, hs.searchString, hs.bufSize⟩⟩
  unfold Ed.setCurNum
  rw [hs.findLine_eq h1 h2, hlp]
  rfl

/-! ### What an operation does -/

/-- The list is in order after the operation, and ed knows of the change if there is one. -/
structure After (s : Globals) (a : Plain) (s' : Globals) (a' : Plain) : Prop where
  holds : ∃ ps, Holds s' ps a'
  saved : s'.saved = s.saved
  dirty : s'.dirty = true ∨ s'.dirty = s.dirty ∧ a'.lines = a.lines

variable {s' s'' : Globals} {a' a'' : Plain}

theorem Holds.after (hs : Holds s ps a) : After s a s a := ⟨⟨ps, hs⟩, rfl, Or.inr ⟨rfl, rfl⟩⟩

theorem After.trans (h : After s a s' a') (h' : After s' a' s'' a'') : After s a s'' a'' := by
  refine ⟨h'.holds, h'.saved.trans h.saved, ?_⟩
  rcases h'.dirty with hd | ⟨hd, hl⟩
  · exact Or.inl hd
  · rcases h.dirty with hd' | ⟨hd', hl'⟩
    · exact Or.inl (hd.trans hd')
    · exact Or.inr ⟨hd.trans hd', hl.trans hl'⟩

/-! ### Inserting -/

/-- The line that is inserted comes after the current line, or so far before it that `findLine`
counts from the first line. -/
def Steady (curNum num : ℤ) : Prop := curNum < num ∨ num < curNum / 2

theorem ring_split (ps : List ℕ) (k : ℕ) :
    ring ps = (head :: ps.take k) ++ (ps.drop k ++ [head]) := by
  rw [ring, List.cons_append, ← List.append_assoc, List.take_append_drop]

theorem ring_insert (ps : List ℕ) (k p : ℕ) :
    ring (ps.take k ++ p :: ps.drop k) = (head :: ps.take k) ++ (p :: (ps.drop k ++ [head])) := by
  rw [ring, List.cons_append, List.append_assoc]
  rfl

theorem ring_insert_getElem? {k i : ℕ} (p : ℕ) (hk : k ≤ ps.length) (hi : i ≤ k) :
    (ring (ps.take k ++ p :: ps.drop k))[i]? = (ring ps)[i]? := by
  have hlen : i < (head :: ps.take k).length := by
    rw [List.length_cons, List.length_take]
    omega
  rw [ring_insert, ring_split ps k, List.getElem?_append_left hlen, List.getElem?_append_left hlen]

theorem ring_insert_self {k : ℕ} (p : ℕ) (hk : k ≤ ps.length) :
    (ring (ps.take k ++ p :: ps.drop k))[k + 1]? = some p := by
  have hlen : (head :: ps.take k).length = k + 1 := by
    rw [List.length_cons, List.length_take]
    omega
  rw [ring_insert, List.getElem?_append_right (by omega), hlen, Nat.sub_self]
  rfl

theorem exists_between {k : ℕ} (hk : k ≤ ps.length) : ∃ L x lp R,
    ring ps = L ++ x :: lp :: R ∧ (ring ps)[k + 1]? = some lp ∧
      ∀ p, ring (ps.take k ++ p :: ps.drop k) = L ++ x :: p :: lp :: R := by
  obtain ⟨L, x, hL⟩ : ∃ L x, head :: ps.take k = L ++ [x] :=
    ⟨_, _, (List.dropLast_append_getLast (List.cons_ne_nil _ _)).symm⟩
  obtain ⟨lp, R, hR⟩ : ∃ lp R, ps.drop k ++ [head] = lp :: R :=
    List.exists_cons_of_ne_nil (by simp)
  refine ⟨L, x, lp, R, ?_, ?_, fun p => ?_⟩
  · rw [ring_split ps k, hL, hR, List.append_assoc]
    rfl
  · have hlen : (head :: ps.take k).length = k + 1 := by
      rw [List.length_cons, List.length_take]
      omega
    rw [ring_split ps k, hR, List.getElem?_append_right (by omega), hlen, Nat.sub_self]
    rfl
  · rw [ring_insert, hL, hR, List.append_assoc]
    rfl

theorem Holds.insertPlace_eq (hs : Holds s ps a) {num : ℤ} (h1 : 1 ≤ num)
    (h2 : num ≤ a.lines.length + 1) {lp : ℕ} (hlp : (ring ps)[num.toNat]? = some lp) :
    insertPlace s num = some (s, some lp) := by
  have hlen := hs.length
  have hlast := hs.lastNum
  rw [insertPlace]
  by_cases hend : num > s.lastNum
  · have hlp' := ring_last ps
    rw [show ps.length + 1 = num.toNat by omega, hlp] at hlp'
    rw [if_pos hend, hlp']
  · rw [if_neg hend, hs.findLine_eq h1 (by omega), hlp]

theorem Plain.insert_one (a : Plain) {num : ℤ} (data : Text) (h1 : 1 ≤ num)
    (h2 : num ≤ a.lines.length + 1) : a.insert num [data] = { a with
      lines := a.lines.take (num - 1).toNat ++ [data] ++ a.lines.drop (num - 1).toNat
      curNum := num } := by
  rw [Plain.insert, if_neg (by rw [Plain.lastNum]; simp; omega)]
  simp

/-- The state behind `insertLine`. -/
def Globals.inserted (s : Globals) (lines : Heap Text) (num : ℤ) : Globals :=
  { s with
    lines, fresh := s.fresh + 1, lastNum := s.lastNum + 1, dirty := true,
    curNum := num, curLine := s.fresh }

/-- With a new node in the ring, the list holds the lines with the new one. -/
theorem Holds.inserted (hs : Holds s ps a) {num : ℤ} {data : Text} (h1 : 1 ≤ num)
    (h2 : num ≤ a.lines.length + 1) {lines : Heap Text}
    (hpath : Path lines (ring (ps.take (num - 1).toNat ++ s.fresh :: ps.drop (num - 1).toNat)))
    (hdata : ∀ x, data? lines x = if x = s.fresh then some data else data? s.lines x) :
    Holds (s.inserted lines num) (ps.take (num - 1).toNat ++ s.fresh :: ps.drop (num - 1).toNat)
      (a.insert num [data]) := by
  have hlen := hs.length
  have hlast := hs.lastNum
  have hk : (num - 1).toNat ≤ ps.length := by omega
  have hnum : num.toNat = (num - 1).toNat + 1 := by omega
  rw [a.insert_one data h1 h2]
  generalize (num - 1).toNat = k at hk hnum hpath ⊢
  have hline : (ring (ps.take k ++ s.fresh :: ps.drop k))[num.toNat]? = some s.fresh := by
    rw [hnum]
    exact ring_insert_self s.fresh hk
  refine ⟨hpath, ?_, ?_, ?_, rfl, ?_, ?_, fun _ => hline, hs.marks, hs.searchString, hs.bufSize⟩
  · have hne (x : ℕ) (hx : x ∈ ps) : data? lines x = data? s.lines x := by
      rw [hdata, if_neg]
      rintro rfl
      exact absurd (hs.fresh _ (by simp [ring, hx])) (lt_irrefl _)
    show List.map (data? lines) _ = _
    rw [List.map_append, List.map_cons, hdata, if_pos rfl,
      List.map_congr_left (fun x hx => hne x (List.mem_of_mem_take hx)),
      List.map_congr_left (fun x hx => hne x (List.mem_of_mem_drop hx)), List.map_take,
      List.map_drop, hs.texts, List.map_append, List.map_append, List.map_take, List.map_drop,
      List.append_assoc]
    rfl
  · intro p hp
    obtain ⟨L, x, lp, R, hring, -, hring'⟩ := exists_between hk
    rw [hring'] at hp
    have hp' : p = s.fresh ∨ p ∈ ring ps := by
      rw [hring]
      simp only [List.mem_append, List.mem_cons] at hp ⊢
      tauto
    rcases hp' with rfl | hp'
    · exact Nat.lt_succ_self _
    · exact Nat.lt_succ_of_lt (hs.fresh p hp')
  · show s.lastNum + 1 = _
    rw [hlast]
    simp
    omega
  · show num ≤ _
    simp
    omega
  · exact ⟨by show (0 : ℤ) ≤ num; omega, fun _ => by show (0 : ℤ) < num; omega⟩

/-- The current line is found in the ring with the new node, or `findLine` does not set out from
it. -/
theorem Holds.curLine_inserted (hs : Holds s ps a) {num : ℤ} {k : ℕ} (hk : k ≤ ps.length)
    (hnum : num.toNat = k + 1) (hsteady : Steady a.curNum num) (p : ℕ) (h0 : 0 < s.curNum) :
    num < s.curNum / 2 ∨
      (ring (ps.take k ++ p :: ps.drop k))[s.curNum.toNat]? = some s.curLine := by
  have hcur := hs.curNum
  rw [hcur] at h0 ⊢
  rcases hsteady with hlt | hlt
  · right
    rw [ring_insert_getElem? p hk (by omega)]
    exact hs.curLine h0
  · exact Or.inl hlt

/-- **A line is inserted**, and is the current line. -/
theorem Holds.insertLine (hs : Holds s ps a) {num : ℤ} (data : Text) (h1 : 1 ≤ num)
    (h2 : num ≤ a.lines.length + 1) (hsteady : Steady a.curNum num) :
    ∃ lines, insertLine s num data = some (s.inserted lines num, true) ∧
      Holds (s.inserted lines num) (ps.take (num - 1).toNat ++ s.fresh :: ps.drop (num - 1).toNat)
        (a.insert num [data]) := by
  have hlen := hs.length
  have hlast := hs.lastNum
  have hcur := hs.curNum
  have hle := hs.le
  have hk : (num - 1).toNat ≤ ps.length := by omega
  have hnum : num.toNat = (num - 1).toNat + 1 := by omega
  obtain ⟨L, x, lp, R, hring, hlp, hring'⟩ := exists_between hk
  rw [← hnum] at hlp
  have hfresh : s.fresh ∉ L ++ x :: lp :: R := by
    rw [← hring]
    exact fun h => absurd (hs.fresh _ h) (lt_irrefl _)
  obtain ⟨lines, hins, hpath, hdata⟩ := insertBefore_path data (hring ▸ hs.path) hfresh
  rw [← hring'] at hpath
  refine ⟨lines, ?_, hs.inserted h1 h2 hpath hdata⟩
  -- the last `findLine` starts from a node that has not moved
  have hlen' : (ps.take (num - 1).toNat ++ s.fresh :: ps.drop (num - 1).toNat).length =
      ps.length + 1 := by
    rw [List.length_append, List.length_cons, List.length_take, List.length_drop]
    omega
  obtain ⟨first, hfirst⟩ := exists_ring
    (ps.take (num - 1).toNat ++ s.fresh :: ps.drop (num - 1).toNat) (i := 1) (by omega)
  have hset := Ed.findLine_eq (s := { s with
    fresh := s.fresh + 1, lines, lastNum := s.lastNum + 1, dirty := true }) hpath
    (by show s.lastNum + 1 = _; omega) h1 (by omega) (by show s.curNum ≤ s.lastNum + 1; omega)
    (hs.curLine_inserted hk hnum hsteady s.fresh) hfirst
  rw [hnum, ring_insert_self s.fresh hk] at hset
  unfold Ed.insertLine Ed.setCurNum
  rw [if_neg (by omega)]
  simp only [Option.bind_eq_bind, Option.pure_def]
  rw [hs.alloc.insertPlace_eq h1 h2 hlp]
  dsimp only [Option.bind_some]
  rw [hins, Option.bind_some, hset]
  simp only [Option.bind_some, Globals.withCurrent, Globals.inserted]
  by_cases h0 : s.curNum ≤ 0
  · rw [if_pos h0]
  · rw [if_neg h0]

end Rustybox.Ed
