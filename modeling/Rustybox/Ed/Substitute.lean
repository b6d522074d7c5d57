import Rustybox.Ed.Edits

/-!
# Substituting on the linked list

`subCommand` looks in every line from `offset` on, and without `g` the offset of one line is kept
for the next.  `Aligned` says that the next line has no other first occurrence for that.
-/

namespace Rustybox.Ed

open Linked

variable {s : Globals} {ps : List ℕ} {a : Plain}

/-! ### A line changes -/

theorem texts_set {h h' : Heap Text} {ps : List ℕ} {lines : List Text} {i p : ℕ} {d : Text}
    (hnd : ps.Nodup) (hi : i < ps.length) (ht : ps.map (data? h) = lines.map some)
    (hp : data? h' p = some d) (hne : ∀ x, x ≠ ps[i] → x ∈ ps → data? h' x = data? h x) :
    (ps.set i p).map (data? h') = (lines.set i d).map some := by
  rw [List.map_set, List.map_set, ← ht, hp]
  refine List.ext_getElem? fun j => ?_
  rw [List.getElem?_set, List.getElem?_set, List.length_map, List.length_map]
  by_cases hj : i = j
  · rw [if_pos hj, if_pos hj]
  · rw [if_neg hj, if_neg hj, List.getElem?_map, List.getElem?_map]
    by_cases hlt : j < ps.length
    · rw [List.getElem?_eq_getElem hlt, Option.map_some, Option.map_some]
      refine congrArg some (hne _ ?_ (List.getElem_mem hlt))
      intro he
      exact hj ((hnd.getElem_inj_iff).mp he).symm
    · rw [List.getElem?_eq_none (by omega)]
      rfl

theorem ring_set (ps : List ℕ) {i : ℕ} (hi : i < ps.length) (p : ℕ) :
    ring (ps.set i p) = (ring ps).set (i + 1) p := by
  rw [ring, ring, List.set_cons_succ, List.set_append_left _ _ hi]

theorem ring_at {i : ℕ} (hi : i < ps.length) : ∃ L x b R,
    ring ps = L ++ x :: ps[i] :: b :: R ∧ L.length = i := by
  obtain ⟨L, x, hL⟩ : ∃ L x, head :: ps.take i = L ++ [x] :=
    ⟨_, _, (List.dropLast_append_getLast (List.cons_ne_nil _ _)).symm⟩
  obtain ⟨b, R, hR⟩ : ∃ b R, ps.drop (i + 1) ++ [head] = b :: R :=
    List.exists_cons_of_ne_nil (by simp)
  refine ⟨L, x, b, R, ?_, ?_⟩
  · rw [ring_split ps i, hL, List.drop_eq_getElem_cons hi, List.cons_append, hR, List.append_assoc]
    rfl
  · have := congrArg List.length hL
    rw [List.length_cons, List.length_take, List.length_append, List.length_singleton] at this
    omega

theorem Holds.replaceNode (hs : Holds s ps a) {i : ℕ} (hi : i < ps.length) (data : Text) :
    ∃ lines, replace s.lines s.fresh data ps[i] = some lines ∧
      Holds { s with
        lines, fresh := s.fresh + 1,
        curLine := if s.curLine = ps[i] then s.fresh else s.curLine }
        (ps.set i s.fresh) { a with lines := a.lines.set i data } := by
  have hlen := hs.length
  have hle := hs.le
  obtain ⟨L, x, b, R, hring, hL⟩ := ring_at hi
  have hpath := hs.path
  have hfresh : s.fresh ∉ ring ps := fun h => Nat.lt_irrefl _ (hs.fresh _ h)
  have hring' : ring (ps.set i s.fresh) = L ++ x :: s.fresh :: b :: R := by
    rw [ring_set ps hi, hring, List.set_append_right _ _ (by omega), hL,
      show i + 1 - i = 1 by omega]
    rfl
  rw [hring] at hpath
  obtain ⟨lines, hrep, hpath', hdata⟩ := replace_path data hpath (hring ▸ hfresh)
  rw [← hring'] at hpath'
  refine ⟨lines, hrep, ⟨hpath', ?_, ?_, ?_, hs.curNum, ?_, ⟨hs.pos.1, ?_⟩, ?_, hs.marks,
    hs.searchString, hs.bufSize⟩⟩
  · refine texts_set hs.nodup hi hs.texts ?_ ?_
    · rw [hdata, if_pos rfl]
      intro he
      exact hfresh (by rw [hring, he]; simp)
    · intro y hy hmem
      rw [hdata y hy, if_neg]
      rintro rfl
      exact hfresh (by simp [ring, hmem])
  · intro p hp
    rw [ring_set ps hi] at hp
    rcases List.mem_or_eq_of_mem_set hp with h | rfl
    · exact Nat.lt_succ_of_lt (hs.fresh p h)
    · exact Nat.lt_succ_self _
  · rw [List.length_set]
    exact hs.lastNum
  · rw [List.length_set]
    exact hle
  · intro _
    exact hs.pos.2 (List.ne_nil_of_length_pos (by omega))
  · intro h0
    dsimp only at h0 ⊢
    have hcur := hs.curLine h0
    rw [ring_set ps hi, List.getElem?_set, length_ring]
    by_cases hc : i + 1 = a.curNum.toNat
    · rw [← hc, ring_line hi, Option.some.injEq] at hcur
      rw [if_pos hc, if_pos (by omega), if_pos hcur.symm]
    · rw [if_neg hc, hcur, if_neg]
      intro he
      obtain ⟨j, hj⟩ : ∃ j, a.curNum.toNat = j + 1 := ⟨a.curNum.toNat - 1, by omega⟩
      have hj' : j < ps.length := by omega
      rw [hj, ring_line hj', Option.some.injEq, he] at hcur
      have := (hs.nodup.getElem_inj_iff).mp hcur
      omega

theorem Holds.setData (hs : Holds s ps a) {i : ℕ} (hi : i < ps.length) (data : Text) :
    ∃ node, s.lines ps[i] = some node ∧
      Holds { s with lines := Function.update s.lines ps[i] (some { node with data }) } ps
        { a with lines := a.lines.set i data } := by
  have hlen := hs.length
  obtain ⟨node, hnode, -⟩ := Option.map_eq_some_iff.mp
    (hs.data (show i < a.lines.length by omega) (ring_line hi))
  refine ⟨node, hnode, ⟨?_, ?_, hs.fresh, ?_, hs.curNum, ?_, ⟨hs.pos.1, ?_⟩, hs.curLine, hs.marks,
    hs.searchString, hs.bufSize⟩⟩
  · refine hs.path.setData fun y => ?_
    by_cases hy : y = ps[i]
    · subst hy
      simp [next?, prev?, hnode]
    · simp [next?, prev?, hy]
  · have hp : data? (Function.update s.lines ps[i] (some { node with data })) ps[i] = some data := by
      simp [data?]
    have := texts_set hs.nodup hi hs.texts hp (by
        intro y hy _
        simp [data?, hy])
    rwa [List.set_getElem_self] at this
  · rw [List.length_set]
    exact hs.lastNum
  · rw [List.length_set]
    exact hs.le
  · intro _
    exact hs.pos.2 (List.ne_nil_of_length_pos (by omega))

/-- **The line has other data**, in its node or in a new one. -/
theorem Holds.changeLine (hs : Holds s ps a) {i lp : ℕ} (hi : i < a.lines.length)
    (hlp : (ring ps)[i + 1]? = some lp) (data : Text) (grows : Bool) : ∃ s' ps' lp',
    changeLine s lp data grows = some (s', lp') ∧
      Holds s' ps' { a with lines := a.lines.set i data } ∧
      (ring ps')[i + 1]? = some lp' ∧ s'.saved = s.saved ∧ s'.dirty = s.dirty := by
  have hlen := hs.length
  have hi' : i < ps.length := by omega
  rw [ring_line hi', Option.some.injEq] at hlp
  subst hlp
  rw [Ed.changeLine]
  cases grows with
  | true =>
    obtain ⟨lines, hrep, hs'⟩ := hs.replaceNode hi' data
    refine ⟨_, _, s.fresh, ?_, hs', ?_, rfl, rfl⟩
    · rw [if_pos rfl]
      dsimp only
      rw [hrep]
      rfl
    · rw [ring_set ps hi', List.getElem?_set_self (by rw [length_ring]; omega)]
  | false =>
    obtain ⟨node, hnode, hs'⟩ := hs.setData hi' data
    refine ⟨_, ps, ps[i], ?_, hs', ring_line hi', rfl, rfl⟩
    rw [if_neg (by simp), hnode]
    rfl

/-! ### Occurrences -/

theorem findStringFrom_le {data str : Text} (hstr : str ≠ []) : ∀ (n : ℕ) {cp p : ℕ},
    findStringFrom data str n cp = some p → cp ≤ p ∧ p + str.length ≤ data.length := by
  intro n
  induction n with
  | zero => intro cp p h; cases h
  | succ n ih =>
    intro cp p h
    rw [findStringFrom] at h
    by_cases hc : cp + str.length ≤ data.length
    · rw [if_pos hc] at h
      generalize memchr ((data.drop cp).take (data.length - str.length - cp + 1))
        (str.getD 0 0) = r at h
      cases r with
      | none => cases h
      | some k =>
        dsimp only at h
        by_cases heq : (data.drop (cp + k)).take str.length = str
        · rw [if_pos heq, Option.some.injEq] at h
          have hlen := congrArg List.length heq
          rw [List.length_take, List.length_drop] at hlen
          have hpos : 0 < str.length := List.length_pos_iff.mpr hstr
          omega
        · rw [if_neg heq] at h
          have := ih h
          omega
    · rw [if_neg hc] at h
      cases h

theorem length_spliceAt {data : Text} (newStr : Text) {p oldLen : ℕ} (h : p + oldLen ≤ data.length) :
    (spliceAt data newStr p oldLen).length + oldLen = data.length + newStr.length := by
  rw [spliceAt, List.length_append, List.length_append, List.length_take, List.length_drop]
  omega

/-! ### Lines -/

/-- The offset that is left behind by a line that is searched from `offset` on. -/
def offsetAfter (sub : Substitution) (data : Text) (offset : ℕ) : ℕ :=
  if sub.globalFlag then 0
  else (findString data sub.oldStr offset).elim 0 (· + sub.newStr.length)

theorem Holds.setDirty (hs : Holds s ps a) (dirty : Bool) : Holds { s with dirty } ps a :=
  ⟨hs.path, hs.texts, hs.fresh, hs.lastNum, hs.curNum, hs.le, hs.pos, hs.curLine, hs.marks,
    hs.searchString, hs.bufSize⟩

theorem Holds.subLine {sub : Substitution} (hold : sub.oldStr ≠ []) : ∀ (n : ℕ) {s : Globals}
    {ps : List ℕ} {a : Plain}, Holds s ps a → ∀ {i lp : ℕ} (offset : ℕ) {data : Text} (needPrint : Bool),
    (ring ps)[i + 1]? = some lp → a.lines[i]? = some data → n ≠ 0 → data.length < n + offset →
    ∃ s' ps' lp', subLine sub n s lp offset needPrint = some (s', lp', offsetAfter sub data offset,
        if (findString data sub.oldStr offset).isSome then sub.printFlag else needPrint) ∧
      Holds s' ps' { a with lines := a.lines.set i (Plain.replaceFrom sub n data offset) } ∧
      (ring ps')[i + 1]? = some lp' ∧
      After s a s' { a with lines := a.lines.set i (Plain.replaceFrom sub n data offset) } := by
  intro n
  induction n with
  | zero => intro s ps a _ i lp offset data needPrint _ _ h; exact absurd rfl h
  | succ n ih =>
    intro s ps a hs i lp offset data needPrint hlp hdata _ hn
    obtain ⟨hi, hget⟩ := List.getElem?_eq_some_iff.mp hdata
    rw [Ed.subLine, hs.data hi hlp, hget, Plain.replaceFrom, offsetAfter]
    simp only [Option.bind_eq_bind, Option.bind_some]
    cases hfind : findString data sub.oldStr offset with
    | none =>
      dsimp only
      rw [← hget, List.set_getElem_self]
      exact ⟨s, ps, lp, by simp, hs, hlp, hs.after⟩
    | some p =>
      obtain ⟨hp1, hp2⟩ := findStringFrom_le hold _ hfind
      have hpos : 0 < sub.oldStr.length := List.length_pos_iff.mpr hold
      have hlen := length_spliceAt sub.newStr hp2
      dsimp only
      generalize hnew : spliceAt data sub.newStr p sub.oldStr.length = new at hlen ⊢
      obtain ⟨s', ps', lp', hchange, hs', hlp', hsaved, hdirty⟩ :=
        (hs.setDirty true).changeLine hi hlp new (sub.newStr.length > sub.oldStr.length)
      have hafter : After s a s' { a with lines := a.lines.set i new } :=
        ⟨⟨ps', hs'⟩, hsaved, Or.inl hdirty⟩
      rw [hchange]
      simp only [Option.bind_some]
      by_cases hg : sub.globalFlag
      · rw [if_pos hg, if_pos hg, if_pos hg]
        have hnew' : (a.lines.set i new)[i]? = some new := by
          rw [List.getElem?_set_self hi]
        obtain ⟨s'', ps'', lp'', hsub, hs'', hlp'', hafter'⟩ := ih hs' (p + sub.newStr.length) sub.printFlag
          hlp' hnew' (show n ≠ 0 by omega)
          (show new.length < n + (p + sub.newStr.length) by omega)
        rw [offsetAfter, if_pos hg, ite_self] at hsub
        dsimp only at hs'' hafter'
        rw [List.set_set] at hs'' hafter'
        exact ⟨s'', ps'', lp'', hsub, hs'', hlp'', hafter.trans hafter'⟩
      · rw [if_neg hg, if_neg hg, if_neg hg]
        exact ⟨s', ps', lp', rfl, hs', hlp', hafter⟩

/-- The lines that the code makes: each is searched from where the one before it left off. -/
def subLines (sub : Substitution) : ℕ → List Text → List Text
  | _, [] => []
  | offset, data :: lines =>
    Plain.replaceFrom sub (data.length + 1) data offset ::
      subLines sub (offsetAfter sub data offset) lines

/-- The current line after that. -/
def subCurNum (sub : Substitution) : ℤ → ℤ → ℕ → List Text → ℤ
  | cur, _, _, [] => cur
  | cur, num, offset, data :: lines =>
    subCurNum sub
      (if sub.printFlag ∧ (findString data sub.oldStr offset).isSome then num else cur) (num + 1)
      (offsetAfter sub data offset) lines

theorem Holds.printIf (hs : Holds s ps a) (needPrint : Bool) (num : ℤ) (h1 : 1 ≤ num)
    (h2 : num ≤ a.lines.length) : ∃ s', printIf needPrint s num = some s' ∧
      Holds s' ps { a with curNum := if needPrint then num else a.curNum } ∧
      s'.saved = s.saved ∧ s'.dirty = s.dirty := by
  rw [Ed.printIf]
  cases needPrint with
  | false => exact ⟨s, rfl, hs, rfl, rfl⟩
  | true =>
    obtain ⟨curNum, curLine, hprint, hs'⟩ := hs.printLines num num
    rw [Plain.print, if_neg ((Plain.not_bad a).mpr ⟨h1, Int.le_refl num, h2⟩)] at hs'
    exact ⟨_, hprint, hs', rfl, rfl⟩

theorem take_succ_set {α : Type} {l : List α} {i : ℕ} (hi : i < l.length) (d : α) :
    (l.set i d).take (i + 1) = l.take i ++ [d] := by
  rw [List.take_add_one, List.take_set_of_le (Nat.le_refl i), List.getElem?_set_self hi]
  rfl

/-- **The lines change, one after the other.** -/
theorem Holds.subLoop {sub : Substitution} (hold : sub.oldStr ≠ []) : ∀ (n : ℕ) {s : Globals}
    {ps : List ℕ} {a : Plain}, Holds s ps a → ∀ {i lp : ℕ} (offset : ℕ),
    (ring ps)[i + 1]? = some lp → i + n ≤ a.lines.length →
    ∃ s', subLoop sub n s (i + 1) lp offset = some s' ∧ After s a s' { a with
      lines := a.lines.take i ++ subLines sub offset ((a.lines.drop i).take n) ++
        a.lines.drop (i + n)
      curNum := subCurNum sub a.curNum (i + 1) offset ((a.lines.drop i).take n) } := by
  intro n
  induction n with
  | zero =>
    intro s ps a hs i lp offset _ _
    refine ⟨s, rfl, ?_⟩
    simp only [List.take_zero, subLines, List.append_nil, Nat.add_zero, List.take_append_drop]
    exact hs.after
  | succ n ih =>
    intro s ps a hs i lp offset hlp hin
    have hi : i < a.lines.length := by omega
    rw [List.drop_eq_getElem_cons hi, List.take_succ_cons, subLines, subCurNum]
    generalize hget : a.lines[i] = data
    have hdata : a.lines[i]? = some data := by rw [List.getElem?_eq_getElem hi, hget]
    obtain ⟨s₁, ps₁, lp₁, hline, hs₁, hlp₁, hafter₁⟩ := hs.subLine hold (data.length + 1)
      offset false hlp hdata (Nat.succ_ne_zero _) (by omega)
    generalize Plain.replaceFrom sub (data.length + 1) data offset = new at hs₁ hafter₁ ⊢
    have hlen : (a.lines.set i new).length = a.lines.length := List.length_set
    obtain ⟨s₂, hprint, hs₂, hsaved, hdirty⟩ := hs₁.printIf
      (if (findString data sub.oldStr offset).isSome then sub.printFlag else false)
      (i + 1) (by omega) (by dsimp only; omega)
    have hafter₂ := hafter₁.trans ⟨⟨ps₁, hs₂⟩, hsaved, Or.inr ⟨hdirty, rfl⟩⟩
    obtain ⟨nlp, hnext, hnlp⟩ := hs₂.next (by dsimp only; omega) hlp₁
    obtain ⟨s', hloop, hafter⟩ := ih hs₂ (i := i + 1) (offsetAfter sub data offset) hnlp
      (by dsimp only; omega)
    refine ⟨s', ?_, ?_⟩
    · rw [Ed.subLoop, hs.data hi hlp, hget]
      simp only [Option.bind_eq_bind, Option.bind_some]
      rw [hline]
      simp only [Option.bind_some]
      rw [hprint]
      simp only [Option.bind_some]
      rw [hnext]
      exact hloop
    · have hafter' := hafter₂.trans hafter
      have hcur : (if (if (findString data sub.oldStr offset).isSome then sub.printFlag else false)
          then (i : ℤ) + 1 else a.curNum) =
          if sub.printFlag ∧ (findString data sub.oldStr offset).isSome then (i : ℤ) + 1
            else a.curNum := by
        cases (findString data sub.oldStr offset).isSome <;> simp
      dsimp only at hafter'
      rw [List.drop_set_of_lt (Nat.lt_succ_self i), List.drop_set_of_lt (by omega),
        take_succ_set hi, hcur, List.append_assoc, List.append_assoc] at hafter'
      rw [List.append_assoc, show i + (n + 1) = i + 1 + n by omega]
      exact hafter'

/-! ### Lines for themselves -/

/-- No line has another first occurrence for the offset that is left behind by the line before
it. -/
def Aligned (sub : Substitution) : ℕ → List Text → Prop
  | _, [] => True
  | offset, data :: lines =>
    findString data sub.oldStr offset = findString data sub.oldStr 0 ∧
      Aligned sub (offsetAfter sub data 0) lines

theorem replaceFrom_aligned {sub : Substitution} {data : Text} {offset : ℕ} (n : ℕ)
    (h : findString data sub.oldStr offset = findString data sub.oldStr 0) :
    Plain.replaceFrom sub n data offset = Plain.replaceFrom sub n data 0 := by
  cases n with
  | zero => rfl
  | succ n => rw [Plain.replaceFrom, Plain.replaceFrom, h]

theorem Aligned.subLines_eq {sub : Substitution} {lines : List Text} : ∀ {offset : ℕ},
    Aligned sub offset lines → subLines sub offset lines = lines.map (Plain.replaceLine sub) := by
  induction lines with
  | nil => intro _ _; rfl
  | cons data lines ih =>
    intro offset h
    obtain ⟨hfind, h⟩ := h
    rw [subLines, replaceFrom_aligned _ hfind, offsetAfter, hfind, ← offsetAfter, ih h]
    rfl

theorem Aligned.subCurNum_eq {sub : Substitution} {lines : List Text} : ∀ {cur num : ℤ}
    {offset : ℕ}, Aligned sub offset lines →
    subCurNum sub cur num offset lines = Plain.curNumAfter sub cur num lines := by
  induction lines with
  | nil => intro _ _ _ _; rfl
  | cons data lines ih =>
    intro cur num offset h
    obtain ⟨hfind, h⟩ := h
    rw [subCurNum, Plain.curNumAfter, hfind, offsetAfter, hfind, ← offsetAfter, ih h]

/-! ### The command -/

/-- The lines of a substitution that is carried out are aligned. -/
def AlignedLines (a : Plain) (cmd : Text) (num1 num2 : ℤ) : Prop :=
  ¬a.bad num1 num2 → ∀ sub, parseSubstitution cmd = some sub → (a.fillIn sub).oldStr ≠ [] →
    Aligned (a.fillIn sub) 0 (a.range num1 num2)

theorem Plain.fillIn_eq_nil (a : Plain) (sub : Substitution) :
    (a.fillIn sub).oldStr = [] ↔ sub.oldStr = [] ∧ a.searchString = [] := by
  rw [Plain.fillIn]
  by_cases hold : sub.oldStr = []
  · rw [if_pos hold]
    exact ⟨fun h => ⟨hold, h⟩, And.right⟩
  · rw [if_neg hold]
    exact ⟨fun h => absurd h hold, fun h => absurd h.1 hold⟩

/-- **A substitution changes lines**, and each for itself where they are aligned. -/
theorem Holds.subCommand (hs : Holds s ps a) (cmd : Text) (num1 num2 : ℤ) :
    ∃ s' a', subCommand s cmd num1 num2 = some s' ∧ After s a s' a' ∧
      (AlignedLines a cmd num1 num2 → a' = a.substitute cmd num1 num2) := by
  rw [Ed.subCommand, Plain.substitute, AlignedLines, hs.badNums, hs.searchString]
  by_cases hbad : a.bad num1 num2 = true
  · rw [if_pos hbad, if_pos hbad]
    exact ⟨s, a, rfl, hs.after, fun _ => rfl⟩
  · rw [if_neg hbad, if_neg hbad]
    obtain ⟨h1, h12, h2⟩ := (Plain.not_bad a).mp hbad
    cases hparse : parseSubstitution cmd with
    | none => exact ⟨s, a, rfl, hs.after, fun _ => rfl⟩
    | some sub =>
      dsimp only
      by_cases hnone : sub.oldStr = [] ∧ a.searchString = []
      · rw [if_pos hnone, if_pos ((a.fillIn_eq_nil sub).mpr hnone)]
        exact ⟨s, a, rfl, hs.after, fun _ => rfl⟩
      · have hfill := mt (a.fillIn_eq_nil sub).mp hnone
        rw [if_neg hnone, if_neg hfill]
        have hal : (¬a.bad num1 num2 = true → ∀ sub', some sub = some sub' →
            (a.fillIn sub').oldStr ≠ [] → Aligned (a.fillIn sub') 0 (a.range num1 num2)) →
            Aligned (a.fillIn sub) 0 (a.range num1 num2) := fun h => h hbad sub rfl hfill
        rw [show (if sub.oldStr = [] then a.searchString else sub.oldStr) = (a.fillIn sub).oldStr
          from rfl]
        have hlen := hs.length
        have hs' := hs.setSearch (a.fillIn sub).oldStr
        obtain ⟨i, hi⟩ : ∃ i : ℕ, num1 = i + 1 := ⟨(num1 - 1).toNat, by omega⟩
        obtain ⟨lp, hlp⟩ := exists_ring ps (i := i + 1) (by omega)
        have hrange : a.range num1 num2 = (a.lines.drop i).take (num2 - num1 + 1).toNat := by
          rw [Plain.range, List.drop_take]
          congr 2 <;> omega
        rw [hrange] at hal ⊢
        obtain ⟨s', hloop, hafter⟩ := hs'.subLoop hfill (num2 - num1 + 1).toNat 0 hlp
          (by show i + _ ≤ a.lines.length; omega)
        refine ⟨s', _, ?_, After.trans ⟨⟨ps, hs'⟩, rfl, Or.inr ⟨rfl, rfl⟩⟩ hafter, ?_⟩
        · rw [hs'.findLine_eq h1 (Int.le_trans h12 h2), show num1.toNat = i + 1 by omega, hlp, hi]
          rw [hi] at hloop
          exact hloop
        · intro h
          have hal := hal h
          dsimp only
          rw [hal.subLines_eq, hal.subCurNum_eq, ← hi, show i = (num1 - 1).toNat by omega,
            show (num1 - 1).toNat + (num2 - num1 + 1).toNat = num2.toNat by omega]

end Rustybox.Ed
