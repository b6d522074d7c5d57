import Rustybox.Ed.Edits

/-!
# Addresses, and what is saved

Two views agree where the numbers are the same and a search keeps them so.  Then addresses are read
in the same way: on the linked list as on the list of lines.

The text in the buffer, and what `writeLines` makes of it.  The buffer is clean when it is not
marked as changed without reason.
-/

namespace Rustybox.Ed

open Linked

section

variable {σ τ : Type}

/-- What addresses speak of is the same in states that are related by `R`. -/
structure View.Agree (v : View σ) (w : View τ) (R : σ → τ → Prop) : Prop where
  curNum : ∀ {s t}, R s t → v.curNum s = w.curNum t
  lastNum : ∀ {s t}, R s t → v.lastNum s = w.lastNum t
  mark : ∀ {s t}, R s t → ∀ i, v.mark s i = w.mark t i
  search : ∀ {s t}, R s t → ∀ str, ∃ s' t' num,
    v.search s str = some (s', num) ∧ w.search t str = some (t', num) ∧ R s' t'

variable {v : View σ} {w : View τ} {R : σ → τ → Prop}

theorem View.Agree.value (hv : View.Agree v w R) {s : σ} {t : τ} (h : R s t) (address : Address) :
    ∃ s' t' num, v.value s address = some (s', num) ∧ w.value t address = some (t', num) ∧
      R s' t' := by
  cases address with
  | dot => exact ⟨s, t, some (v.curNum s), rfl, by rw [hv.curNum h]; rfl, h⟩
  | dollar => exact ⟨s, t, some (v.lastNum s), rfl, by rw [hv.lastNum h]; rfl, h⟩
  | mark i => exact ⟨s, t, some (v.mark s i), rfl, by rw [hv.mark h]; rfl, h⟩
  | search str =>
    obtain ⟨s', t', num, hs, ht, h'⟩ := hv.search h str
    refine ⟨s', t', if num = 0 then none else some num, ?_, ?_, h'⟩
    · rw [View.value, hs]
      rfl
    · rw [View.value, ht]
      rfl
  | number num => exact ⟨s, t, some num, rfl, rfl, h⟩

theorem View.Agree.getNumLoop (hv : View.Agree v w R) : ∀ (n : ℕ) {s : σ} {t : τ}, R s t →
    ∀ (haveNum minus : Bool) (value : ℤ) (cp : Text), ∃ s' t' r,
      Ed.getNumLoop v n s haveNum minus value cp = some (s', r) ∧
      Ed.getNumLoop w n t haveNum minus value cp = some (t', r) ∧ R s' t' := by
  intro n
  induction n with
  | zero => intro s t h haveNum minus value cp; exact ⟨s, t, _, rfl, rfl, h⟩
  | succ n ih =>
    intro s t h haveNum minus value cp
    rw [Ed.getNumLoop, Ed.getNumLoop]
    cases getAtom (skipWhitespace cp) with
    | bad => exact ⟨s, t, _, rfl, rfl, h⟩
    | absent => exact ⟨s, t, _, rfl, rfl, h⟩
    | address address cp =>
      obtain ⟨s', t', num, hs, ht, h'⟩ := hv.value h address
      simp only [hs, ht, Option.bind_eq_bind, Option.bind_some]
      cases num with
      | none => exact ⟨s', t', _, rfl, rfl, h'⟩
      | some num =>
        dsimp only
        split
        · exact ih h' _ _ _ _
        · exact ih h' _ _ _ _
        · exact ⟨s', t', _, rfl, rfl, h'⟩

theorem View.Agree.getNum (hv : View.Agree v w R) {s : σ} {t : τ} (h : R s t) (cp : Text) :
    ∃ s' t' r, Ed.getNum v s cp = some (s', r) ∧ Ed.getNum w t cp = some (t', r) ∧ R s' t' :=
  hv.getNumLoop _ h false false 0 cp

/-- **The addresses of a command line are read in the same way.** -/
theorem View.Agree.parseAddresses (hv : View.Agree v w R) {s : σ} {t : τ} (h : R s t)
    (buf : Text) : ∃ s' t' p, Ed.parseAddresses v s buf = some (s', p) ∧
      Ed.parseAddresses w t buf = some (t', p) ∧ R s' t' := by
  obtain ⟨s₁, t₁, r, hs, ht, h₁⟩ := hv.getNum h (skipWhitespace buf)
  rw [Ed.parseAddresses, Ed.parseAddresses]
  simp only [hs, ht, Option.bind_eq_bind, Option.bind_some]
  rcases r with _ | ⟨have1, num1, cp⟩
  · exact ⟨s₁, t₁, none, rfl, rfl, h₁⟩
  · dsimp only
    split
    · -- a second address after the comma
      rename_i cp _
      obtain ⟨s₂, t₂, r, hs₂, ht₂, h₂⟩ := hv.getNum h₁ cp
      simp only [hs₂, ht₂, Option.bind_some]
      rcases r with _ | ⟨have2, num2, cp⟩
      · exact ⟨s₂, t₂, none, rfl, rfl, h₂⟩
      · refine ⟨s₂, t₂, _, rfl, ?_, h₂⟩
        rw [hv.lastNum h₂]
        rfl
    · refine ⟨s₁, t₁, _, rfl, ?_, h₁⟩
      rw [hv.curNum h₁]
      rfl

end

/-! ### The two views -/

section

variable {s : Globals} {ps : List ℕ} {a : Plain}

theorem agree_after (s : Globals) (a : Plain) :
    View.Agree Globals.view Plain.view (After s a) where
  curNum h := by
    obtain ⟨⟨ps, hs⟩, -, -⟩ := h
    exact hs.curNum
  lastNum h := by
    obtain ⟨⟨ps, hs⟩, -, -⟩ := h
    exact hs.lastNum
  mark h i := by
    obtain ⟨⟨ps, hs⟩, -, -⟩ := h
    exact congrFun hs.marks i
  search {s' a'} h str := by
    obtain ⟨ps, hs⟩ := h.holds
    obtain ⟨s'', hsearch, hafter⟩ := hs.searchLines str
    refine ⟨s'', (a'.search str).1, (a'.search str).2, ?_, rfl, h.trans hafter⟩
    show searchLines s' str s'.curNum s'.lastNum = _
    rw [hs.curNum, hs.lastNum]
    exact hsearch

/-- **The addresses of a command line are the same on the linked list.** -/
theorem Holds.parseAddresses (hs : Holds s ps a) (buf : Text) : ∃ s' a' p,
    Ed.parseAddresses Globals.view s buf = some (s', p) ∧
      Ed.parseAddresses Plain.view a buf = some (a', p) ∧ After s a s' a' :=
  (agree_after s a).parseAddresses hs.after buf


end

/-! ## What is saved -/

variable {s : Globals} {ps : List ℕ} {a : Plain} {t : Target}

/-! ### The text in the buffer -/

/-- The data of `n` nodes from `lp` on. -/
def textsFrom (h : Heap Text) : ℕ → ℕ → List Text
  | 0, _ => []
  | n + 1, lp =>
    match h lp with
    | none => []
    | some node => node.data :: textsFrom h n node.next

def Globals.plain (s : Globals) : Plain where
  lines := textsFrom s.lines s.lastNum.toNat ((next? s.lines head).getD 0)
  curNum := s.curNum
  marks := s.marks
  searchString := s.searchString

theorem Holds.textsFrom_eq (hs : Holds s ps a) : ∀ (n : ℕ) {i lp : ℕ},
    (ring ps)[i + 1]? = some lp → i + n ≤ a.lines.length →
    textsFrom s.lines n lp = (a.lines.drop i).take n := by
  intro n
  induction n with
  | zero => intro i lp _ _; rfl
  | succ n ih =>
    intro i lp hlp hi
    have hlt : i < a.lines.length := by omega
    obtain ⟨node, hnode, hdata⟩ := Option.map_eq_some_iff.mp (hs.data hlt hlp)
    obtain ⟨nlp, hnext, hnlp⟩ := hs.next (show i + 1 ≤ a.lines.length by omega) hlp
    have hn : node.next = nlp := by
      rw [next?, hnode, Option.map_some, Option.some.injEq] at hnext
      exact hnext
    rw [textsFrom, hnode, List.drop_eq_getElem_cons hlt, List.take_succ_cons, ← hdata,
      ← ih hnlp (by omega), ← hn]

/-- **The list in the globals is the one that they hold.** -/
theorem Holds.plain_eq (hs : Holds s ps a) : s.plain = a := by
  obtain ⟨lp, hnext, hlp⟩ := hs.next (Nat.zero_le _) (ring_zero ps)
  have htexts := hs.textsFrom_eq a.lines.length hlp (by omega)
  rw [List.drop_zero, List.take_length] at htexts
  rw [Globals.plain, hnext, Option.getD_some, hs.lastNum, Int.toNat_natCast, htexts, hs.curNum,
    hs.marks, hs.searchString]

/-! ### Writing -/

/-- All goes well when `n` lines are written. -/
structure Target.Succeeds (t : Target) (n : ℕ) : Prop where
  created : t.created
  written : ∀ i < n, t.written i
  closed : t.closed

theorem Holds.writeLoop (hs : Holds s ps a) (t : Target) : ∀ (n : ℕ) {i lp : ℕ} (j : ℕ) (out : Text),
    (ring ps)[i + 1]? = some lp → i + n ≤ a.lines.length →
    ∃ out' ok, writeLoop s.lines t n j lp out = some (out', ok) ∧
      ((∀ k < n, t.written (j + k)) → ok = true) ∧
      (ok = true → out' = out ++ ((a.lines.drop i).take n).flatten) := by
  intro n
  induction n with
  | zero =>
    intro i lp j out _ _
    exact ⟨out, true, rfl, fun _ => rfl, fun _ => (List.append_nil out).symm⟩
  | succ n ih =>
    intro i lp j out hlp hi
    have hlt : i < a.lines.length := by omega
    rw [Ed.writeLoop, hs.data hlt hlp]
    simp only [Option.bind_eq_bind, Option.bind_some]
    by_cases hw : t.written j
    · obtain ⟨nlp, hnext, hnlp⟩ := hs.next (show i + 1 ≤ a.lines.length by omega) hlp
      rw [if_neg (not_not.mpr hw), hnext]
      obtain ⟨out', ok, hloop, hok, hout⟩ := ih (j + 1) (out ++ a.lines[i]) hnlp
        (by omega)
      refine ⟨out', ok, hloop, ?_, ?_⟩
      · intro h
        refine hok fun k hk => ?_
        have := h (k + 1) (by omega)
        rwa [show j + (k + 1) = j + 1 + k by omega] at this
      · intro h
        rw [hout h, List.drop_eq_getElem_cons hlt, List.take_succ_cons, List.flatten_cons,
          List.append_assoc]
    · rw [if_pos hw]
      refine ⟨out, false, rfl, ?_, fun h => Bool.noConfusion h⟩
      intro h
      exact absurd (h 0 (Nat.succ_pos n)) hw

theorem Holds.setSaved (hs : Holds s ps a) (saved : Text) : Holds { s with saved } ps a :=
  ⟨hs.path, hs.texts, hs.fresh, hs.lastNum, hs.curNum, hs.le, hs.pos, hs.curLine, hs.marks,
    hs.searchString, hs.bufSize⟩

/-- **What is written completely is the text in the buffer.** -/
theorem Holds.writeLines (hs : Holds s ps a) (t : Target) (num1 num2 : ℤ) :
    ∃ saved ok, writeLines s t num1 num2 = some ({ s with saved }, ok) ∧
      (saved = s.saved ∨ saved = a.lines.flatten) ∧
      (num1 = 1 → num2 = a.lines.length → a.lines ≠ [] → t.Succeeds a.lines.length →
        saved = a.lines.flatten) := by
  rw [Ed.writeLines, hs.badNums]
  by_cases hbad : a.bad num1 num2 = true ∨ ¬t.created = true
  · rw [if_pos hbad]
    refine ⟨s.saved, false, rfl, Or.inl rfl, ?_⟩
    intro h1 h2 hne ht
    have hpos : 0 < a.lines.length := List.length_pos_iff.mpr hne
    rcases hbad with hbad | hbad
    · refine absurd hbad ((Plain.not_bad a).mpr ⟨?_, ?_, ?_⟩) <;> omega
    · exact absurd ht.created hbad
  · rw [if_neg hbad]
    rw [not_or, not_not] at hbad
    obtain ⟨h1, h12, h2⟩ := (Plain.not_bad a).mp hbad.1
    have hlen := hs.length
    obtain ⟨i, hi⟩ : ∃ i : ℕ, num1 = i + 1 := ⟨(num1 - 1).toNat, by omega⟩
    obtain ⟨lp, hlp⟩ := exists_ring ps (i := i + 1) (by omega)
    rw [hs.findLine_eq h1 (Int.le_trans h12 h2), show num1.toNat = i + 1 by omega, hlp]
    simp only [Option.bind_eq_bind, Option.bind_some]
    obtain ⟨out, ok, hloop, hok, hout⟩ := hs.writeLoop t (num2 - num1 + 1).toNat 0 [] hlp (by omega)
    rw [hloop]
    simp only [Option.bind_some]
    by_cases hfail : ¬ok = true ∨ ¬t.closed = true
    · rw [if_pos hfail]
      refine ⟨s.saved, false, rfl, Or.inl rfl, ?_⟩
      intro hn1 hn2 _ ht
      rcases hfail with hfail | hfail
      · refine absurd (hok fun k hk => ?_) hfail
        rw [Nat.zero_add]
        exact ht.written k (by omega)
      · exact absurd ht.closed hfail
    · rw [if_neg hfail]
      rw [not_or, not_not, not_not] at hfail
      have hall : num1 = 1 ∧ num2 = s.lastNum → out = a.lines.flatten := by
        rintro ⟨hn1, hn2⟩
        rw [hs.lastNum] at hn2
        rw [hout hfail.1, List.nil_append, show i = 0 by omega, List.drop_zero,
          List.take_of_length_le (by omega)]
      by_cases hrange : num1 = 1 ∧ num2 = s.lastNum
      · rw [if_pos hrange, hall hrange]
        exact ⟨a.lines.flatten, true, rfl, Or.inr rfl, fun _ _ _ _ => rfl⟩
      · rw [if_neg hrange]
        refine ⟨s.saved, true, rfl, Or.inl rfl, ?_⟩
        intro hn1 hn2 _ _
        exact absurd ⟨hn1, hn2.trans hs.lastNum.symm⟩ hrange

end Rustybox.Ed
