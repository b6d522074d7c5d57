import Rustybox.Ed.Holds

/-!
# Adding, deleting and moving

What the edits of the linked list do to the lines: each does what the same edit does to the plain
list, as long as the first line that is inserted is `Steady`.
-/

namespace Rustybox.Ed

open Linked

variable {s : Globals} {ps : List ℕ} {a : Plain} {h : Heap Text}

/-! ### Adding -/

theorem Plain.insert_nil (a : Plain) (num : ℤ) : a.insert num [] = a := by
  rw [Plain.insert, if_pos (Or.inr (Or.inr rfl))]

theorem Plain.insert_bad (a : Plain) {num : ℤ} (h : num < 1 ∨ num > a.lines.length + 1)
    (new : List Text) : a.insert num new = a := by
  rw [Plain.insert, if_pos]
  exact h.imp_right Or.inl

theorem Plain.insert_of_range (a : Plain) {num : ℤ} (h1 : 1 ≤ num) (h2 : num ≤ a.lines.length + 1)
    {new : List Text} (hne : new ≠ []) : a.insert num new = { a with
      lines := a.lines.take (num - 1).toNat ++ new ++ a.lines.drop (num - 1).toNat
      curNum := num - 1 + new.length } := by
  rw [Plain.insert, if_neg]
  rintro (h | h | h)
  · omega
  · rw [Plain.lastNum] at h
    omega
  · exact hne h

theorem Plain.insert_cons (a : Plain) {num : ℤ} (h1 : 1 ≤ num) (h2 : num ≤ a.lines.length + 1)
    (line : Text) (new : List Text) :
    (a.insert num [line]).insert (num + 1) new = a.insert num (line :: new) := by
  by_cases hnew : new = []
  · rw [hnew, Plain.insert_nil]
  · have hk : (num - 1).toNat ≤ a.lines.length := by omega
    have hlen : (a.lines.take (num - 1).toNat ++ [line]).length = (num + 1 - 1).toNat := by
      rw [List.length_append, List.length_take, List.length_singleton]
      omega
    rw [a.insert_of_range h1 h2 (List.cons_ne_nil _ _), a.insert_of_range h1 h2
      (List.cons_ne_nil _ _), Plain.insert_of_range _ (by omega) (by simp; omega) hnew]
    dsimp only
    rw [← hlen, List.take_left, List.drop_left]
    congr 1
    · simp
    · show num + 1 - 1 + (new.length : ℤ) = num - 1 + ((new.length : ℤ) + 1)
      omega

/-- What is typed is inserted at a line where this is safe. -/
def SteadyInsert (a : Plain) (num : ℤ) (new : List Text) : Prop :=
  new ≠ [] → 1 ≤ num → num ≤ a.lines.length + 1 → Steady a.curNum num

theorem Holds.insertLine_bad (hs : Holds s ps a) {num : ℤ}
    (h : num < 1 ∨ num > a.lines.length + 1) (data : Text) :
    Ed.insertLine s num data = some (s, false) := by
  unfold Ed.insertLine
  rw [if_pos (by rw [hs.lastNum]; exact h)]
  rfl

/-- **The lines that are typed go in as one block.** -/
theorem Holds.addLines (typed : List Reply) : ∀ {s : Globals} {ps : List ℕ} {a : Plain},
    Holds s ps a → ∀ {num : ℤ}, SteadyInsert a num (Plain.typedLines typed) →
    ∃ s', addLines s num typed = some s' ∧ After s a s' (a.insert num (Plain.typedLines typed)) := by
  induction typed with
  | nil =>
    intro s ps a hs num _
    rw [show Plain.typedLines [] = [] from rfl, Plain.insert_nil]
    exact ⟨s, rfl, hs.after⟩
  | cons r typed ih =>
    intro s ps a hs num hsteady
    cases r with
    | eof =>
      rw [show Plain.typedLines (.eof :: typed) = [] from rfl, Plain.insert_nil]
      exact ⟨s, rfl, hs.after⟩
    | interrupt =>
      rw [show Plain.typedLines (.interrupt :: typed) = [] from rfl, Plain.insert_nil]
      exact ⟨s, rfl, hs.after⟩
    | text buf =>
      rw [Plain.typedLines] at hsteady ⊢
      unfold Ed.addLines
      by_cases hdot : buf = [46, 10]
      · rw [if_pos hdot, if_pos hdot, Plain.insert_nil]
        exact ⟨s, rfl, hs.after⟩
      · rw [if_neg hdot] at hsteady
        rw [if_neg hdot, if_neg hdot]
        by_cases hnum : 1 ≤ num ∧ num ≤ a.lines.length + 1
        · obtain ⟨lines, hins, hs'⟩ := hs.insertLine buf hnum.1 hnum.2
            (hsteady (List.cons_ne_nil _ _) hnum.1 hnum.2)
          obtain ⟨s', hadd, hafter⟩ := ih hs' (show SteadyInsert _ (num + 1) _ from fun _ _ _ => by
            rw [a.insert_of_range hnum.1 hnum.2 (List.cons_ne_nil _ _)]
            left
            dsimp only
            rw [List.length_singleton]
            omega)
          rw [a.insert_cons hnum.1 hnum.2] at hafter
          exact ⟨s', by rw [hins]; exact hadd, After.trans ⟨⟨_, hs'⟩, rfl, Or.inl rfl⟩ hafter⟩
        · have hbad : num < 1 ∨ num > a.lines.length + 1 := by omega
          rw [a.insert_bad hbad, hs.insertLine_bad hbad]
          exact ⟨s, rfl, hs.after⟩

/-! ### Deleting -/

theorem Plain.not_bad (a : Plain) {num1 num2 : ℤ} : ¬a.bad num1 num2 = true ↔
    1 ≤ num1 ∧ num1 ≤ num2 ∧ num2 ≤ a.lines.length := by
  unfold Plain.bad Plain.lastNum
  rw [Bool.or_eq_true, Bool.or_eq_true, decide_eq_true_iff, decide_eq_true_iff, decide_eq_true_iff]
  omega

/-- **The loop of `deleteLines` takes out the nodes `mid`.** -/
theorem deleteLoop_path : ∀ (mid : List ℕ) {h : Heap Text} {L R : List ℕ} {x b lp : ℕ},
    Path h (L ++ x :: (mid ++ b :: R)) → (mid ++ [b]).head? = some lp →
    ∃ h', deleteLoop h mid.length lp = some h' ∧ Path h' (L ++ x :: b :: R) ∧
      ∀ y ∉ mid, data? h' y = data? h y := by
  intro mid
  induction mid with
  | nil => intro h L R x b lp hp _; exact ⟨h, rfl, hp, fun _ _ => rfl⟩
  | cons p mid ih =>
    intro h L R x b lp hp hlp
    obtain rfl : p = lp := Option.some.inj hlp
    obtain ⟨q, R', hq⟩ : ∃ q R', mid ++ b :: R = q :: R' :=
      List.exists_cons_of_ne_nil (by simp)
    have hhead : (mid ++ [b]).head? = some q := by
      cases mid with
      | nil => exact congrArg List.head? hq
      | cons y mid => exact congrArg List.head? hq
    rw [List.cons_append, hq] at hp
    obtain ⟨h₁, hrem, hpath, hdata⟩ := remove_path hp
    obtain ⟨h', hdel, hpath', hdata'⟩ := ih (hq ▸ hpath) hhead
    refine ⟨h', ?_, hpath', ?_⟩
    · rw [List.length_cons, deleteLoop, (hp.split_at).2.1.1]
      simp only [Option.bind_eq_bind, Option.bind_some, hrem, hdel]
    · intro y hy
      rw [List.mem_cons, not_or] at hy
      rw [hdata' y hy.2, hdata y hy.1]

theorem ring_delete (ps : List ℕ) {k m : ℕ} (hkm : k ≤ m) :
    ring ps = (head :: ps.take k) ++ ((ps.take m).drop k ++ (ps.drop m ++ [head])) := by
  have h : ps.take k ++ (ps.take m).drop k = ps.take m := by
    conv_rhs => rw [← List.take_append_drop k (ps.take m), List.take_take, Nat.min_eq_left hkm]
  rw [ring, List.cons_append, ← List.append_assoc, h, ← List.append_assoc, List.take_append_drop]

theorem ring_deleted (ps : List ℕ) (k m : ℕ) :
    ring (ps.take k ++ ps.drop m) = (head :: ps.take k) ++ (ps.drop m ++ [head]) := by
  rw [ring, List.append_assoc, List.cons_append]

theorem ring_deleted_before {k m i : ℕ} (hkm : k ≤ m) (hm : m ≤ ps.length) (hi : i ≤ k) :
    (ring (ps.take k ++ ps.drop m))[i]? = (ring ps)[i]? := by
  have hlen : i < (head :: ps.take k).length := by
    rw [List.length_cons, List.length_take]
    omega
  rw [ring_deleted, ring_delete ps hkm, List.getElem?_append_left hlen,
    List.getElem?_append_left hlen]

theorem ring_deleted_behind {k m i : ℕ} (hkm : k ≤ m) (hm : m ≤ ps.length) (hi : m < i) :
    (ring (ps.take k ++ ps.drop m))[i - (m - k)]? = (ring ps)[i]? := by
  have hlen : (head :: ps.take k).length = k + 1 := by
    rw [List.length_cons, List.length_take]
    omega
  have hmid : ((ps.take m).drop k).length = m - k := by
    rw [List.length_drop, List.length_take]
    omega
  have hl : (ring (ps.take k ++ ps.drop m))[i - (m - k)]? =
      (ps.drop m ++ [head])[i - (m - k) - (k + 1)]? := by
    rw [ring_deleted, List.getElem?_append_right (by omega), hlen]
  have hr : (ring ps)[i]? = (ps.drop m ++ [head])[i - (k + 1) - (m - k)]? := by
    rw [ring_delete ps hkm, List.getElem?_append_right (by omega), hlen,
      List.getElem?_append_right (by omega), hmid]
  rw [hl, hr, show i - (m - k) - (k + 1) = i - (k + 1) - (m - k) by omega]

theorem head?_drop (ps : List ℕ) {k m : ℕ} (hkm : k ≤ m) (hm : m ≤ ps.length) :
    ((ps.take m).drop k ++ [(ps.drop m ++ [head]).headD head]).head? = (ring ps)[k + 1]? := by
  have hlen : (head :: ps.take k).length = k + 1 := by
    rw [List.length_cons, List.length_take]
    omega
  obtain ⟨b, R, hR⟩ : ∃ b R, ps.drop m ++ [head] = b :: R := List.exists_cons_of_ne_nil (by simp)
  rw [ring_delete ps hkm, List.getElem?_append_right (by omega), hlen, Nat.sub_self, hR,
    ← List.head?_eq_getElem?]
  cases (ps.take m).drop k with
  | nil => rfl
  | cons p mid => rfl

theorem Holds.leaveRange (hs : Holds s ps a) {num1 num2 : ℤ} (h1 : 1 ≤ num1) (h12 : num1 ≤ num2)
    (h2 : num2 ≤ a.lines.length) : ∃ curNum curLine,
      leaveRange s num1 num2 = some { s with curNum, curLine } ∧ 0 ≤ curNum ∧
      curNum ≤ a.lines.length ∧ (curNum < num1 ∨ num2 < curNum) ∧
      (0 < curNum → (ring ps)[curNum.toNat]? = some curLine) ∧
      a.curNumWithout num1 num2 = (if curNum > num2 then curNum - (num2 - num1 + 1) else curNum) ∧
      (curNum = 0 → num1 = 1 ∧ num2 = a.lines.length) := by
  have hlast := hs.lastNum
  have hcur := hs.curNum
  have hne : a.lines ≠ [] := by
    intro h
    rw [h, List.length_nil] at h2
    omega
  have hpos := hs.pos.2 hne
  have hle := hs.le
  have hlen := hs.length
  have hmove (num : ℤ) (h1 : 1 ≤ num) (h2 : num ≤ a.lines.length) : ∃ curLine,
      (Ed.setCurNum s num).map Prod.fst = some { s with curNum := num, curLine } ∧
        (ring ps)[num.toNat]? = some curLine := by
    obtain ⟨lp, hset, hs'⟩ := hs.setCurNum num h1 h2
    exact ⟨lp, by rw [hset]; rfl, hs'.curLine (show (0 : ℤ) < num by omega)⟩
  unfold Ed.leaveRange
  by_cases hin : s.curNum ≥ num1 ∧ s.curNum ≤ num2
  · rw [if_pos hin]
    by_cases hlt : num2 < s.lastNum
    · obtain ⟨lp, hset, hring⟩ := hmove (num2 + 1) (by omega) (by omega)
      rw [if_pos hlt, hset]
      refine ⟨_, _, rfl, by omega, by omega, by omega, fun _ => hring, ?_, by omega⟩
      unfold Plain.curNumWithout Plain.lastNum
      split_ifs <;> omega
    · rw [if_neg hlt]
      by_cases hone : num1 > 1
      · obtain ⟨lp, hset, hring⟩ := hmove (num1 - 1) (by omega) (by omega)
        rw [if_pos hone, hset]
        refine ⟨_, _, rfl, by omega, by omega, by omega, fun _ => hring, ?_, by omega⟩
        unfold Plain.curNumWithout Plain.lastNum
        split_ifs <;> omega
      · rw [if_neg hone]
        refine ⟨0, s.curLine, rfl, Int.le_refl 0, by omega, by omega, fun h => absurd h (Int.lt_irrefl 0),
          ?_, by omega⟩
        unfold Plain.curNumWithout Plain.lastNum
        split_ifs <;> omega
  · rw [if_neg hin]
    refine ⟨s.curNum, s.curLine, rfl, by omega, by omega, by omega,
      fun h => by rw [hcur] at h ⊢; exact hs.curLine h, ?_, by omega⟩
    unfold Plain.curNumWithout
    split_ifs <;> omega

theorem Holds.nodup (hs : Holds s ps a) : ps.Nodup := by
  have h := hs.path.nodup
  rw [ring, List.dropLast_cons_of_ne_nil (by simp), List.dropLast_concat] at h
  exact (List.nodup_cons.mp h).2

theorem Holds.deleteLoop (hs : Holds s ps a) {k m lp : ℕ} (hkm : k ≤ m) (hm : m ≤ ps.length)
    (hlp : (ring ps)[k + 1]? = some lp) : ∃ lines, deleteLoop s.lines (m - k) lp = some lines ∧
      Path lines (ring (ps.take k ++ ps.drop m)) ∧
      (ps.take k ++ ps.drop m).map (data? lines) =
        (a.lines.take k ++ a.lines.drop m).map some := by
  obtain ⟨L, x, hL⟩ : ∃ L x, head :: ps.take k = L ++ [x] :=
    ⟨_, _, (List.dropLast_append_getLast (List.cons_ne_nil _ _)).symm⟩
  obtain ⟨b, R, hR⟩ : ∃ b R, ps.drop m ++ [head] = b :: R := List.exists_cons_of_ne_nil (by simp)
  have hpath := hs.path
  rw [ring_delete ps hkm, hL, hR, List.append_assoc, List.singleton_append] at hpath
  have hfirst := head?_drop ps hkm hm
  rw [hR, List.headD_cons, hlp] at hfirst
  obtain ⟨lines, hdel, hpath', hdata⟩ := deleteLoop_path _ hpath hfirst
  have hmid : ((ps.take m).drop k).length = m - k := by
    rw [List.length_drop, List.length_take]
    omega
  have hring' : ring (ps.take k ++ ps.drop m) = L ++ x :: b :: R := by
    rw [ring_deleted, hL, hR, List.append_assoc]
    rfl
  refine ⟨lines, hmid ▸ hdel, hring' ▸ hpath', ?_⟩
  have hnodup : (ps.take k ++ ((ps.take m).drop k ++ ps.drop m)).Nodup := by
    have h : ps.take k ++ (ps.take m).drop k = ps.take m := by
      conv_rhs => rw [← List.take_append_drop k (ps.take m), List.take_take, Nat.min_eq_left hkm]
    rw [← List.append_assoc, h, List.take_append_drop]
    exact hs.nodup
  obtain ⟨-, hnodup', hdisj⟩ := List.nodup_append.mp hnodup
  obtain ⟨-, -, hdisj'⟩ := List.nodup_append.mp hnodup'
  have hbefore (y : ℕ) (hy : y ∈ ps.take k) : data? lines y = data? s.lines y :=
    hdata y fun h => hdisj y hy y (List.mem_append_left _ h) rfl
  have hbehind (y : ℕ) (hy : y ∈ ps.drop m) : data? lines y = data? s.lines y :=
    hdata y fun h => hdisj' y h y hy rfl
  rw [List.map_append, List.map_congr_left hbefore, List.map_congr_left hbehind, List.map_take,
    List.map_drop, hs.texts, List.map_append, List.map_take, List.map_drop]

/-- **The lines of a range are deleted.** -/
theorem Holds.deleteLines (hs : Holds s ps a) (num1 num2 : ℤ) :
    ∃ s', deleteLines s num1 num2 = some s' ∧ After s a s' (a.delete num1 num2) := by
  unfold Ed.deleteLines Plain.delete
  rw [hs.badNums]
  by_cases hbad : a.bad num1 num2 = true
  · rw [if_pos hbad, if_pos hbad]
    exact ⟨s, rfl, hs.after⟩
  · rw [if_neg hbad, if_neg hbad]
    obtain ⟨h1, h12, h2⟩ := (Plain.not_bad a).mp hbad
    have hlen := hs.length
    have hlast := hs.lastNum
    obtain ⟨lp, hlp⟩ := exists_ring ps (i := num1.toNat) (by omega)
    obtain ⟨cur, curLine, hleave, h0, hle, hout, hline, hwithout, hzero⟩ :=
      hs.leaveRange h1 h12 h2
    rw [hs.findLine_eq h1 (by omega), hlp]
    simp only [Option.bind_eq_bind, Option.bind_some, Option.pure_def, hleave]
    have hshift : (if cur > num2 then
        { s with curNum := cur - (num2 - num1 + 1), curLine } else { s with curNum := cur, curLine }) =
        { s with curNum := a.curNumWithout num1 num2, curLine } := by
      rw [hwithout]
      by_cases hgt : cur > num2
      · rw [if_pos hgt, if_pos hgt]
      · rw [if_neg hgt, if_neg hgt]
    rw [hshift]
    obtain ⟨k, hk⟩ : ∃ k : ℕ, num1 = k + 1 := ⟨(num1 - 1).toNat, by omega⟩
    obtain ⟨m, hm⟩ : ∃ m : ℕ, num2 = m := ⟨num2.toNat, by omega⟩
    rw [show (num1 - 1).toNat = k by omega, show num2.toNat = m by omega,
      show (num2 - num1 + 1).toNat = m - k by omega]
    have hkm : k ≤ m := by omega
    have hmps : m ≤ ps.length := by omega
    rw [show num1.toNat = k + 1 by omega] at hlp
    obtain ⟨lines, hdel, hpath, htexts⟩ := hs.deleteLoop hkm hmps hlp
    refine ⟨{ s with
      curNum := a.curNumWithout num1 num2, curLine, lines
      lastNum := s.lastNum - (num2 - num1 + 1), dirty := true }, by rw [hdel]; rfl,
      ⟨_, hpath, htexts, ?_, ?_, rfl, ?_, ?_, ?_, hs.marks, hs.searchString, hs.bufSize⟩, rfl,
      Or.inl rfl⟩
    · intro p hp
      refine hs.fresh p ?_
      rw [ring_deleted] at hp
      rw [ring_delete ps hkm]
      simp only [List.mem_append] at hp ⊢
      tauto
    · show s.lastNum - (num2 - num1 + 1) = _
      rw [List.length_append, List.length_take, List.length_drop]
      omega
    · show a.curNumWithout num1 num2 ≤ _
      rw [hwithout, List.length_append, List.length_take, List.length_drop]
      split_ifs <;> omega
    · show 0 ≤ a.curNumWithout num1 num2 ∧ (_ → 0 < a.curNumWithout num1 num2)
      rw [hwithout]
      refine ⟨by split_ifs <;> omega, fun hne => ?_⟩
      have hpos : 0 < cur := by
        by_contra hcon
        obtain ⟨hone, hall⟩ := hzero (by omega)
        refine hne (List.eq_nil_of_length_eq_zero ?_)
        rw [List.length_append, List.length_take, List.length_drop]
        omega
      split_ifs <;> omega
    · show 0 < a.curNumWithout num1 num2 → (ring _)[(a.curNumWithout num1 num2).toNat]? = some curLine
      rw [hwithout]
      by_cases hgt : cur > num2
      · rw [if_pos hgt, show (cur - (num2 - num1 + 1)).toNat = cur.toNat - (m - k) by omega,
          ring_deleted_behind hkm hmps (by omega)]
        exact fun _ => hline (by omega)
      · rw [if_neg hgt]
        intro h0
        rw [ring_deleted_before hkm hmps (by omega)]
        exact hline h0

/-! ### Lines and their neighbours -/

theorem Holds.data (hs : Holds s ps a) {i lp : ℕ} (hi : i < a.lines.length)
    (hlp : (ring ps)[i + 1]? = some lp) : data? s.lines lp = some a.lines[i] := by
  have hlen := hs.length
  have hi' : i < ps.length := by omega
  rw [ring_line hi', Option.some.injEq] at hlp
  have h := congrArg (fun l : List (Option Text) => l[i]?) hs.texts
  simp only [List.getElem?_map, List.getElem?_eq_getElem hi', List.getElem?_eq_getElem hi,
    Option.map_some, Option.some.injEq] at h
  rw [← hlp, h]

theorem Holds.next (hs : Holds s ps a) {i lp : ℕ} (hi : i ≤ a.lines.length)
    (hlp : (ring ps)[i]? = some lp) :
    ∃ nlp, next? s.lines lp = some nlp ∧ (ring ps)[i + 1]? = some nlp := by
  have hlen := hs.length
  obtain ⟨nlp, hn⟩ := exists_ring ps (i := i + 1) (by omega)
  exact ⟨nlp, (link_of_getElem? hs.path hlp hn).1, hn⟩

/-! ### Printing -/

theorem Holds.printLoop : ∀ (n : ℕ) {s : Globals} {a : Plain}, Holds s ps a →
    ∀ {i lp : ℕ}, i + n ≤ a.lines.length → (ring ps)[i + 1]? = some lp →
    ∃ curNum curLine, printLoop n s (i + 1) lp = some { s with curNum, curLine } ∧
      Holds { s with curNum, curLine } ps { a with curNum } ∧
      curNum = if n = 0 then a.curNum else i + n := by
  intro n
  induction n with
  | zero =>
    intro s a hs i lp _ _
    have hcur : ({ a with curNum := s.curNum } : Plain) = a := by rw [hs.curNum]
    exact ⟨s.curNum, s.curLine, rfl, hcur.symm ▸ hs, hs.curNum⟩
  | succ n ih =>
    intro s a hs i lp hi hlp
    obtain ⟨nlp, hnext, hnlp⟩ := hs.next (by omega) hlp
    obtain ⟨lp', hset, hs'⟩ := hs.setCurNum (i + 1) (by omega) (by omega)
    obtain ⟨cur, curLine, hprint, hs'', hcur⟩ := ih hs' (i := i + 1) (by
      show i + 1 + n ≤ a.lines.length
      omega) hnlp
    refine ⟨cur, curLine, ?_, hs'', ?_⟩
    · rw [Ed.printLoop, hs.data (by omega) hlp]
      simp only [Option.bind_eq_bind, Option.bind_some, hset, hnext]
      rw [show ((i + 1 : ℕ) : ℤ) = i + 1 from rfl] at hprint
      exact hprint
    · rw [hcur]
      by_cases hn : n = 0
      · rw [if_pos hn, if_neg (Nat.succ_ne_zero n), hn]
        show (i : ℤ) + 1 = _
        omega
      · rw [if_neg hn, if_neg (Nat.succ_ne_zero n)]
        push_cast
        omega

theorem Holds.printLines (hs : Holds s ps a) (num1 num2 : ℤ) : ∃ curNum curLine,
    printLines s num1 num2 = some { s with curNum, curLine } ∧
      Holds { s with curNum, curLine } ps (a.print num1 num2) := by
  unfold Ed.printLines Plain.print
  rw [hs.badNums]
  by_cases hbad : a.bad num1 num2 = true
  · rw [if_pos hbad, if_pos hbad]
    exact ⟨s.curNum, s.curLine, rfl, hs⟩
  · obtain ⟨h1, h12, h2⟩ := (Plain.not_bad a).mp hbad
    rw [if_neg hbad, if_neg hbad]
    have hlen := hs.length
    obtain ⟨i, hi⟩ : ∃ i : ℕ, num1 = i + 1 := ⟨(num1 - 1).toNat, by omega⟩
    obtain ⟨lp, hlp⟩ := exists_ring ps (i := i + 1) (by omega)
    obtain ⟨cur, curLine, hprint, hs', hcur⟩ :=
      Holds.printLoop (num2 - num1 + 1).toNat hs (i := i) (by omega) hlp
    rw [if_neg (by omega), show (i : ℤ) + ((num2 - num1 + 1).toNat : ℕ) = num2 by omega] at hcur
    subst hcur
    refine ⟨cur, curLine, ?_, hs'⟩
    rw [hs.findLine_eq h1 (by omega), show num1.toNat = i + 1 by omega, hlp, hi]
    rw [hi] at hprint
    exact hprint

theorem Holds.after_cur {curNum : ℤ} {curLine : ℕ} {a' : Plain}
    (hs : Holds { s with curNum, curLine } ps a') (hl : a'.lines = a.lines) :
    After s a { s with curNum, curLine } a' := ⟨⟨ps, hs⟩, rfl, Or.inr ⟨rfl, hl⟩⟩

theorem Plain.print_lines (a : Plain) (num1 num2 : ℤ) : (a.print num1 num2).lines = a.lines := by
  unfold Plain.print
  by_cases hbad : a.bad num1 num2 = true
  · rw [if_pos hbad]
  · rw [if_neg hbad]

/-! ### Searching -/

theorem Holds.searchLoop (hs : Holds s ps a) (str : Text) : ∀ (n i lp : ℕ),
    i + n = a.lines.length → (ring ps)[i + 1]? = some lp →
    searchLoop s.lines str n (i + 1) lp =
      some (Plain.searchFrom str (i + 1) (a.lines.drop i)) := by
  intro n
  induction n with
  | zero =>
    intro i lp hi _
    rw [List.drop_eq_nil_of_le (by omega)]
    rfl
  | succ n ih =>
    intro i lp hi hlp
    obtain ⟨nlp, hnext, hnlp⟩ := hs.next (by omega) hlp
    have hlt : i < a.lines.length := by omega
    rw [Ed.searchLoop, hs.data hlt hlp, List.drop_eq_getElem_cons hlt, Plain.searchFrom]
    simp only [Option.bind_eq_bind, Option.bind_some, hnext, Option.pure_def]
    by_cases hfound : (findString a.lines[i] str 0).isSome
    · rw [if_pos hfound, if_pos hfound]
    · rw [if_neg hfound, if_neg hfound]
      have := ih (i + 1) nlp (by omega) hnlp
      rwa [show ((i + 1 : ℕ) : ℤ) = i + 1 from rfl] at this

theorem Holds.setSearch (hs : Holds s ps a) (searchString : Text) :
    Holds { s with searchString } ps { a with searchString } :=
  ⟨hs.path, hs.texts, hs.fresh, hs.lastNum, hs.curNum, hs.le, hs.pos, hs.curLine, hs.marks, rfl,
    hs.bufSize⟩

/-- **A search finds the same line.** -/
theorem Holds.searchLines (hs : Holds s ps a) (str : Text) : ∃ s',
    searchLines s str a.curNum a.lastNum = some (s', (a.search str).2) ∧
      After s a s' (a.search str).1 := by
  unfold Ed.searchLines Plain.search
  rw [hs.badNums, hs.searchString]
  by_cases hbad : a.bad a.curNum a.lastNum = true
  · rw [if_pos hbad, if_pos hbad]
    exact ⟨s, rfl, hs.after⟩
  · rw [if_neg hbad, if_neg hbad]
    by_cases hnone : str = [] ∧ a.searchString = []
    · rw [if_pos hnone, if_pos hnone]
      exact ⟨s, rfl, hs.after⟩
    · rw [if_neg hnone, if_neg hnone]
      obtain ⟨h1, h12, h2⟩ := (Plain.not_bad a).mp hbad
      dsimp only
      generalize (if str = [] then a.searchString else str) = str'
      have hlen := hs.length
      have hle := hs.le
      have hs' := hs.setSearch str'
      obtain ⟨i, hi⟩ : ∃ i : ℕ, a.curNum = i + 1 := ⟨(a.curNum - 1).toNat, by omega⟩
      obtain ⟨lp, hlp⟩ := exists_ring ps (i := i + 1) (by omega)
      have hloop := hs'.searchLoop str' (a.lastNum - a.curNum + 1).toNat i lp (by
        show i + (a.lastNum - a.curNum + 1).toNat = a.lines.length
        rw [Plain.lastNum]
        omega) hlp
      have hfind := hs'.findLine_eq (show 1 ≤ a.curNum from h1) hle
      rw [show a.curNum.toNat = i + 1 by omega, hlp] at hfind
      refine ⟨_, ?_, ⟨⟨ps, hs'⟩, rfl, Or.inr ⟨rfl, rfl⟩⟩⟩
      rw [hfind]
      simp only [Option.bind_eq_bind, Option.bind_some]
      rw [show (a.curNum - 1).toNat = i by omega, hi]
      rw [hi] at hloop
      rw [hloop]
      rfl

end Rustybox.Ed
