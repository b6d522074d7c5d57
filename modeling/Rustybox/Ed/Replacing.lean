import Rustybox.Ed.Session

/-!
# What a substitution is for

All occurrences of a string in a line, from left to right, or the first of them; and `subCommand`
as the one loop that it is in the source, which ends.
-/

namespace Rustybox.Ed

open Linked

/-! ### Occurrences -/

/-- The line with the first occurrence replaced, or with all occurrences that do not overlap, found
from left to right. -/
def replaced (all : Bool) (oldStr newStr : Text) : Text → Text
  | [] => []
  | c :: data =>
    if oldStr.isPrefixOf (c :: data) then
      newStr ++ if all then replaced all oldStr newStr (data.drop (oldStr.length - 1))
        else data.drop (oldStr.length - 1)
    else c :: replaced all oldStr newStr data
termination_by data => data.length
decreasing_by all_goals (simp only [List.length_cons, List.length_drop]; omega)

section

variable {data str oldStr newStr : Text} {n cp offset p : ℕ}

theorem memchr_spec {l : Text} {c : UInt8} : match memchr l c with
    | some k => ∀ j : ℕ, j < k → l[j]? ≠ some c
    | none => ∀ j : ℕ, l[j]? ≠ some c := by
  rw [memchr]
  cases hfind : l.idxOf? c with
  | none =>
    have hnone := List.idxOf?_eq_none_iff.mp hfind
    exact fun j hj => hnone (List.mem_of_getElem? hj)
  | some k =>
    intro j hj he
    obtain ⟨hk, -, hbefore⟩ := List.idxOf?_eq_some_iff.mp hfind
    rw [List.getElem?_eq_getElem (by omega), Option.some.injEq] at he
    exact hbefore j hj he

/-- An occurrence begins with the first byte of the string, and ends inside the line. -/
theorem occurrence_head (hstr : str ≠ []) {q : ℕ} (hq : str <+: data.drop q) :
    q + str.length ≤ data.length ∧ data[q]? = some (str.getD 0 0) := by
  have hlen := hq.length_le
  have hpos := List.length_pos_iff.mpr hstr
  rw [List.length_drop] at hlen
  refine ⟨by omega, ?_⟩
  obtain ⟨rest, hrest⟩ := hq
  obtain ⟨c, str, rfl⟩ := List.exists_cons_of_ne_nil hstr
  have hget : (data.drop q)[0]? = some c := by rw [← hrest]; rfl
  rwa [List.getElem?_drop] at hget

theorem occurrence_window (hstr : str ≠ []) {q : ℕ} (hq : str <+: data.drop q) (hcq : cp ≤ q) :
    ((data.drop cp).take (data.length - str.length - cp + 1))[q - cp]? = some (str.getD 0 0) := by
  obtain ⟨hle, hget⟩ := occurrence_head hstr hq
  rw [List.getElem?_take_of_lt (by omega), List.getElem?_drop, show cp + (q - cp) = q by omega,
    hget]

/-- What `findString` finds is the first occurrence. -/
theorem findStringFrom_spec (hstr : str ≠ []) : ∀ (n : ℕ) {cp : ℕ}, data.length < n + cp →
    match findStringFrom data str n cp with
    | some p => cp ≤ p ∧ str <+: data.drop p ∧ ∀ q, cp ≤ q → q < p → ¬ str <+: data.drop q
    | none => ∀ q, cp ≤ q → ¬ str <+: data.drop q := by
  intro n
  induction n with
  | zero =>
    intro cp hn q hcq hq
    have := (occurrence_head hstr hq).1
    omega
  | succ n ih =>
    intro cp hn
    rw [findStringFrom]
    by_cases hc : cp + str.length ≤ data.length
    · rw [if_pos hc]
      have hspec := memchr_spec (l := (data.drop cp).take (data.length - str.length - cp + 1))
        (c := str.getD 0 0)
      generalize hwin : (data.drop cp).take (data.length - str.length - cp + 1) = l at hspec ⊢
      have hwindow : ∀ q, cp ≤ q → str <+: data.drop q → l[q - cp]? = some (str.getD 0 0) :=
        fun q hcq hq => hwin ▸ occurrence_window hstr hq hcq
      cases hfind : memchr l (str.getD 0 0) with
      | none =>
        rw [hfind] at hspec
        exact fun q hcq hq => hspec _ (hwindow q hcq hq)
      | some k =>
        rw [hfind] at hspec
        have hbefore : ∀ q, cp ≤ q → q < cp + k → ¬ str <+: data.drop q :=
          fun q hcq hlt hq => hspec _ (by omega) (hwindow q hcq hq)
        dsimp only
        by_cases heq : (data.drop (cp + k)).take str.length = str
        · rw [if_pos heq]
          exact ⟨Nat.le_add_right _ _, List.prefix_iff_eq_take.mpr heq.symm, hbefore⟩
        · rw [if_neg heq]
          have hhere : ¬ str <+: data.drop (cp + k) :=
            fun h => heq (List.prefix_iff_eq_take.mp h).symm
          have hskip : ∀ q, cp ≤ q → q < cp + k + 1 → ¬ str <+: data.drop q := by
            intro q hcq hlt
            rcases Nat.lt_succ_iff_lt_or_eq.mp hlt with hlt | rfl
            · exact hbefore q hcq hlt
            · exact hhere
          have hrest := @ih (cp + k + 1) (by omega)
          cases hrec : findStringFrom data str n (cp + k + 1) with
          | none =>
            rw [hrec] at hrest
            intro q hcq
            by_cases hlt : q < cp + k + 1
            · exact hskip q hcq hlt
            · exact hrest q (by omega)
          | some p =>
            rw [hrec] at hrest
            obtain ⟨hle, hp, hmin⟩ := hrest
            refine ⟨by omega, hp, fun q hcq hlt => ?_⟩
            by_cases hlt' : q < cp + k + 1
            · exact hskip q hcq hlt'
            · exact hmin q (by omega) hlt
    · rw [if_neg hc]
      intro q hcq hq
      have := (occurrence_head hstr hq).1
      omega

theorem not_isPrefixOf (h : ∀ q, ¬ oldStr <+: data.drop q) : oldStr.isPrefixOf data = false := by
  rw [Bool.eq_false_iff, ne_eq, List.isPrefixOf_iff_prefix]
  exact h 0

theorem replaced_of_not (all : Bool) (h : ∀ q, ¬ oldStr <+: data.drop q) :
    replaced all oldStr newStr data = data := by
  induction data with
  | nil => rw [replaced]
  | cons c data ih =>
    rw [replaced, not_isPrefixOf h, if_neg Bool.false_ne_true, ih fun q => h (q + 1)]

theorem replaced_of_first (all : Bool) (hold : oldStr ≠ []) (hp : oldStr <+: data.drop p)
    (hmin : ∀ q, q < p → ¬ oldStr <+: data.drop q) : replaced all oldStr newStr data =
      data.take p ++ newStr ++
        if all then replaced all oldStr newStr (data.drop (p + oldStr.length))
        else data.drop (p + oldStr.length) := by
  have hpos := List.length_pos_iff.mpr hold
  induction p generalizing data with
  | zero =>
    cases data with
    | nil => exact absurd (List.prefix_nil.mp hp) hold
    | cons c data =>
      have hyes : oldStr.isPrefixOf (c :: data) := List.isPrefixOf_iff_prefix.mpr hp
      obtain ⟨k, hk⟩ : ∃ k, oldStr.length = k + 1 := ⟨oldStr.length - 1, by omega⟩
      rw [replaced, if_pos hyes, List.take_zero, List.nil_append, Nat.zero_add, hk,
        List.drop_succ_cons, Nat.add_sub_cancel]
  | succ p ih =>
    cases data with
    | nil => exact absurd (List.prefix_nil.mp hp) hold
    | cons c data =>
      have hno : oldStr.isPrefixOf (c :: data) = false := by
        rw [Bool.eq_false_iff, ne_eq, List.isPrefixOf_iff_prefix]
        exact hmin 0 (Nat.succ_pos _)
      rw [replaced, hno, if_neg Bool.false_ne_true,
        ih hp fun q hq => hmin (q + 1) (Nat.succ_lt_succ hq), List.take_succ_cons,
        Nat.add_right_comm, List.drop_succ_cons]
      rfl

theorem findString_spec {d : Text} (hold : oldStr ≠ []) (offset : ℕ) :
    match findString d oldStr offset with
    | some p => offset ≤ p ∧ oldStr <+: d.drop p ∧
        ∀ q, offset ≤ q → q < p → ¬ oldStr <+: d.drop q
    | none => ∀ q, offset ≤ q → ¬ oldStr <+: d.drop q :=
  findStringFrom_spec hold _ (by omega)

/-- **All occurrences from `offset` on** are replaced in as many rounds as there are bytes, at
most. -/
theorem replaceFrom_all {sub : Substitution} (hold : sub.oldStr ≠ [])
    (hall : sub.globalFlag = true) : ∀ (n : ℕ) {data : Text} {offset : ℕ},
    data.length < n + offset → offset ≤ data.length →
    Plain.replaceFrom sub n data offset =
      data.take offset ++ replaced true sub.oldStr sub.newStr (data.drop offset) := by
  intro n
  induction n with
  | zero =>
    intro data offset hn hoff
    omega
  | succ n ih =>
    intro data offset hn hoff
    have hspec := findString_spec (d := data) hold offset
    rw [Plain.replaceFrom]
    cases hfind : findString data sub.oldStr offset with
    | none =>
      rw [hfind] at hspec
      have hnot : ∀ q, ¬ sub.oldStr <+: (data.drop offset).drop q := by
        intro q
        rw [List.drop_drop]
        exact hspec _ (Nat.le_add_right _ _)
      rw [replaced_of_not true hnot, List.take_append_drop]
    | some p =>
      rw [hfind] at hspec
      obtain ⟨hle, hp, hmin⟩ := hspec
      have hpos := List.length_pos_iff.mpr hold
      have hend := (occurrence_head hold hp).1
      have hlen := length_spliceAt sub.newStr hend
      have hfront : (data.take p ++ sub.newStr).length = p + sub.newStr.length := by
        rw [List.length_append, List.length_take, Nat.min_eq_left (by omega)]
      -- the part of the line behind the new string is searched
      have hp' : sub.oldStr <+: (data.drop offset).drop (p - offset) := by
        rwa [List.drop_drop, show offset + (p - offset) = p by omega]
      have hmin' : ∀ q, q < p - offset → ¬ sub.oldStr <+: (data.drop offset).drop q := by
        intro q hq
        rw [List.drop_drop]
        exact hmin _ (Nat.le_add_right _ _) (by omega)
      have htake : data.take offset ++ (data.drop offset).take (p - offset) = data.take p := by
        rw [← List.drop_take, show data.take offset = (data.take p).take offset by
          rw [List.take_take, Nat.min_eq_left hle], List.take_append_drop]
      dsimp only
      rw [if_pos hall, ih (by omega) (by omega), spliceAt, List.take_left' hfront,
        List.drop_left' hfront, replaced_of_first true hold hp' hmin', if_pos rfl, List.drop_drop,
        show offset + (p - offset + sub.oldStr.length) = p + sub.oldStr.length by omega,
        ← List.append_assoc, ← List.append_assoc, htake]

theorem replaceFrom_first {sub : Substitution} (hold : sub.oldStr ≠ [])
    (hfirst : sub.globalFlag = false) (data : Text) : Plain.replaceLine sub data =
      replaced false sub.oldStr sub.newStr data := by
  have hspec := findString_spec (d := data) hold 0
  rw [Plain.replaceLine, Plain.replaceFrom, hfirst]
  cases hfind : findString data sub.oldStr 0 with
  | none =>
    rw [hfind] at hspec
    exact (replaced_of_not false fun q => hspec q (Nat.zero_le _)).symm
  | some p =>
    rw [hfind] at hspec
    obtain ⟨-, hp, hmin⟩ := hspec
    rw [replaced_of_first false hold hp fun q => hmin q (Nat.zero_le _)]
    rfl

end

/-! ### The loop of the source -/

/-- The `while` loop of `subCommand`, with the number of rounds that it is given. -/
def subWhile (sub : Substitution) (num2 : ℤ) : ℕ → Globals → ℤ → ℕ → ℕ → Bool → Option Globals
  | 0, _, _, _, _, _ => none
  | n + 1, s, num1, lp, offset, needPrint =>
    if num1 ≤ num2 then do
      let data ← data? s.lines lp
      match findString data sub.oldStr offset with
      | none =>
        let s ← printIf needPrint s num1
        subWhile sub num2 n s (num1 + 1) (← next? s.lines lp) 0 false
      | some offset =>
        let (s, lp) ← changeLine { s with dirty := true } lp
          (spliceAt data sub.newStr offset sub.oldStr.length)
          (sub.newStr.length > sub.oldStr.length)
        let offset := offset + sub.newStr.length
        if sub.globalFlag then subWhile sub num2 n s num1 lp offset sub.printFlag
        else
          let s ← printIf sub.printFlag s num1
          -- the offset is kept for the next line
          subWhile sub num2 n s (num1 + 1) (← next? s.lines lp) offset false
    else some s

variable {s : Globals} {ps : List ℕ} {a : Plain}

section

variable {sub : Substitution} {num1 num2 : ℤ} {lp offset : ℕ} {data : Text}

theorem subWhile_none (needPrint : Bool) (hnum : num1 ≤ num2) (hdata : data? s.lines lp = some data)
    (hfind : findString data sub.oldStr offset = none) (m : ℕ) :
    subWhile sub num2 (m + 1) s num1 lp offset needPrint =
      (printIf needPrint s num1).bind fun s => (next? s.lines lp).bind fun nlp =>
        subWhile sub num2 m s (num1 + 1) nlp 0 false := by
  rw [subWhile, if_pos hnum, hdata]
  simp only [Option.bind_eq_bind, Option.bind_some, hfind]

theorem subWhile_some (needPrint : Bool) (hnum : num1 ≤ num2)
    (hdata : data? s.lines lp = some data) {p : ℕ}
    (hfind : findString data sub.oldStr offset = some p) {s₁ : Globals} {lp₁ : ℕ}
    (hchange : changeLine { s with dirty := true } lp
      (spliceAt data sub.newStr p sub.oldStr.length)
      (sub.newStr.length > sub.oldStr.length) = some (s₁, lp₁)) (m : ℕ) :
    subWhile sub num2 (m + 1) s num1 lp offset needPrint =
      if sub.globalFlag then
        subWhile sub num2 m s₁ num1 lp₁ (p + sub.newStr.length) sub.printFlag
      else (printIf sub.printFlag s₁ num1).bind fun s => (next? s.lines lp₁).bind fun nlp =>
        subWhile sub num2 m s (num1 + 1) nlp (p + sub.newStr.length) false := by
  rw [subWhile, if_pos hnum, hdata]
  simp only [Option.bind_eq_bind, Option.bind_some, hfind, hchange]

end

theorem Holds.subWhile_line {sub : Substitution} (hold : sub.oldStr ≠ []) {num1 num2 : ℤ}
    (hnum : num1 ≤ num2) : ∀ (n : ℕ) {s : Globals} {ps : List ℕ} {a : Plain}, Holds s ps a →
    ∀ {i lp : ℕ} (offset : ℕ) {data : Text} (needPrint : Bool), (ring ps)[i + 1]? = some lp →
    a.lines[i]? = some data → n ≠ 0 → data.length < n + offset →
    ∀ {s' s'' : Globals} {lp' nlp offset' : ℕ} {needPrint' : Bool},
    Ed.subLine sub n s lp offset needPrint = some (s', lp', offset', needPrint') →
    Ed.printIf needPrint' s' num1 = some s'' → next? s''.lines lp' = some nlp →
    ∃ k, ∀ m, subWhile sub num2 (k + m) s num1 lp offset needPrint =
      subWhile sub num2 m s'' (num1 + 1) nlp offset' false := by
  intro n
  induction n with
  | zero => intro s ps a _ i lp offset data needPrint _ _ h; exact absurd rfl h
  | succ n ih =>
    intro s ps a hs i lp offset data needPrint hlp hdata _ hn s' s'' lp' nlp offset' needPrint'
      hline hprint hnext
    obtain ⟨hi, hget⟩ := List.getElem?_eq_some_iff.mp hdata
    rw [Ed.subLine, hs.data hi hlp, hget] at hline
    simp only [Option.bind_eq_bind, Option.bind_some] at hline
    have hnode := hs.data hi hlp
    rw [hget] at hnode
    cases hfind : findString data sub.oldStr offset with
    | none =>
      rw [hfind] at hline
      obtain ⟨rfl, rfl, rfl, rfl⟩ : s = s' ∧ lp = lp' ∧ 0 = offset' ∧ needPrint = needPrint' := by
        simpa using hline
      refine ⟨1, fun m => ?_⟩
      rw [Nat.add_comm, subWhile_none needPrint hnum hnode hfind, hprint, Option.bind_some, hnext,
        Option.bind_some]
    | some p =>
      rw [hfind] at hline
      obtain ⟨hp1, hp2⟩ := findStringFrom_le hold _ hfind
      have hpos : 0 < sub.oldStr.length := List.length_pos_iff.mpr hold
      have hlen := length_spliceAt sub.newStr hp2
      dsimp only at hline
      obtain ⟨s₁, ps₁, lp₁, hchange, hs₁, hlp₁, -, -⟩ := (hs.setDirty true).changeLine hi hlp
        (spliceAt data sub.newStr p sub.oldStr.length) (sub.newStr.length > sub.oldStr.length)
      have hround := subWhile_some needPrint hnum hnode hfind hchange
      generalize spliceAt data sub.newStr p sub.oldStr.length = new at *
      rw [hchange] at hline
      simp only [Option.bind_some] at hline
      by_cases hg : sub.globalFlag
      · rw [if_pos hg] at hline
        have hnew' : (a.lines.set i new)[i]? = some new := by
          rw [List.getElem?_set_self hi]
        have hsmall : new.length < n + (p + sub.newStr.length) := by omega
        obtain ⟨k, hk⟩ := ih hs₁ (p + sub.newStr.length) sub.printFlag hlp₁ hnew' (by omega) hsmall
          hline hprint hnext
        refine ⟨k + 1, fun m => ?_⟩
        rw [Nat.add_right_comm, hround, if_pos hg, hk]
      · rw [if_neg hg] at hline
        obtain ⟨rfl, rfl, rfl, rfl⟩ : s₁ = s' ∧ lp₁ = lp' ∧ p + sub.newStr.length = offset' ∧
            sub.printFlag = needPrint' := by
          simpa using hline
        refine ⟨1, fun m => ?_⟩
        rw [Nat.add_comm, hround, if_neg hg, hprint, Option.bind_some, hnext, Option.bind_some]

/-- **The loop ends** when the lines are done, with what `subLoop` says. -/
theorem Holds.subWhile_lines {sub : Substitution} (hold : sub.oldStr ≠ []) {num2 : ℤ} : ∀ (n : ℕ)
    {s : Globals} {ps : List ℕ} {a : Plain}, Holds s ps a → ∀ {i lp : ℕ} (offset : ℕ),
    (ring ps)[i + 1]? = some lp → i + n ≤ a.lines.length → num2 = i + n → ∀ {s' : Globals},
    Ed.subLoop sub n s (i + 1) lp offset = some s' →
    ∃ k, ∀ m, subWhile sub num2 (k + (m + 1)) s (i + 1) lp offset false = some s' := by
  intro n
  induction n with
  | zero =>
    intro s ps a _ i lp offset _ _ hnum2 s' hloop
    refine ⟨0, fun m => ?_⟩
    rw [Nat.zero_add, subWhile, if_neg (by omega)]
    exact hloop
  | succ n ih =>
    intro s ps a hs i lp offset hlp hin hnum2 s' hloop
    have hi : i < a.lines.length := by omega
    generalize hget : a.lines[i] = data
    have hdata : a.lines[i]? = some data := by rw [List.getElem?_eq_getElem hi, hget]
    obtain ⟨s₁, ps₁, lp₁, hline, hs₁, hlp₁, -⟩ := hs.subLine hold (data.length + 1)
      offset false hlp hdata (Nat.succ_ne_zero _) (by omega)
    generalize Plain.replaceFrom sub (data.length + 1) data offset = new at hs₁
    have hlen : (a.lines.set i new).length = a.lines.length := List.length_set
    obtain ⟨s₂, hprint, hs₂, -, -⟩ := hs₁.printIf
      (if (findString data sub.oldStr offset).isSome then sub.printFlag else false)
      (i + 1) (by omega) (by dsimp only; omega)
    obtain ⟨nlp, hnext, hnlp⟩ := hs₂.next (by dsimp only; omega) hlp₁
    rw [Ed.subLoop, hs.data hi hlp, hget] at hloop
    simp only [Option.bind_eq_bind, Option.bind_some] at hloop
    rw [hline] at hloop
    simp only [Option.bind_some] at hloop
    rw [hprint] at hloop
    simp only [Option.bind_some] at hloop
    rw [hnext] at hloop
    obtain ⟨k₁, hk₁⟩ := hs.subWhile_line hold (show (i : ℤ) + 1 ≤ num2 by omega)
      (data.length + 1) offset false hlp hdata (Nat.succ_ne_zero _) (by omega) hline hprint hnext
    obtain ⟨k₂, hk₂⟩ := ih hs₂ (i := i + 1) (offsetAfter sub data offset) hnlp
      (by dsimp only; omega) (by push_cast; omega) hloop
    refine ⟨k₁ + k₂, fun m => ?_⟩
    rw [Nat.add_assoc, hk₁]
    exact hk₂ m

/-- `subCommand` with the loop of the source, which is given a number of rounds. -/
def subCommandIn (rounds : ℕ) (s : Globals) (cmd : Text) (num1 num2 : ℤ) : Option Globals := do
  if badNums s num1 num2 then
    return s
  match parseSubstitution cmd with
  | none => return s
  | some sub =>
    if sub.oldStr = [] ∧ s.searchString = [] then
      return s
    let oldStr := if sub.oldStr = [] then s.searchString else sub.oldStr
    let s := { s with searchString := oldStr }
    let (s, lp) ← findLine s num1
    match lp with
    | none => return s
    | some lp => subWhile { sub with oldStr } num2 rounds s num1 lp 0 false

/-! ### The command -/

/-- The command without its first letter, with flags or without. -/
def substituteText (delim : UInt8) (oldStr newStr : Text) (flags : Option Text) : Text :=
  delim :: (oldStr ++ delim :: (newStr ++ flags.elim [] (delim :: ·)))

theorem cutAt_append {delim : UInt8} {front : Text} (h : delim ∉ front) (back : Text) :
    cutAt delim (front ++ delim :: back) = some (front, back) := by
  have hfind : memchr (front ++ delim :: back) delim = some front.length := by
    refine List.idxOf?_eq_some_iff.mpr ⟨by simp, by simp, fun j hj he => h ?_⟩
    rw [List.getElem_append_left hj] at he
    exact he ▸ List.getElem_mem hj
  rw [cutAt, hfind, Option.map_some, List.take_left' rfl, ← List.drop_drop, List.drop_left' rfl]
  rfl

theorem cutAt_of_notMem {delim : UInt8} {cp : Text} (h : delim ∉ cp) : cutAt delim cp = none := by
  rw [cutAt, memchr, List.idxOf?_eq_none_iff.mpr h, Option.map_none]

theorem parseSubstitution_eq {delim : UInt8} {oldStr newStr : Text} {flags : Option Text}
    (hdelim : isblank delim = false) (hold : delim ∉ oldStr) (hnew : delim ∉ newStr)
    (hflags : ∀ c ∈ flags.getD [], c = 103 ∨ c = 112) :
    parseSubstitution (substituteText delim oldStr newStr flags) =
      some ⟨oldStr, newStr, (flags.getD []).contains 103, (flags.getD []).contains 112⟩ := by
  have hall : ((flags.getD []).all fun c => c = 103 || c = 112) = true := by
    rw [List.all_eq_true]
    intro c hc
    simpa using hflags c hc
  have hcut : (cutAt delim (newStr ++ flags.elim [] (delim :: ·))).getD
      (newStr ++ flags.elim [] (delim :: ·), []) = (newStr, flags.getD []) := by
    cases flags with
    | none =>
      rw [Option.elim_none, List.append_nil, cutAt_of_notMem hnew]
      rfl
    | some flags =>
      rw [Option.elim_some, cutAt_append hnew]
      rfl
  rw [substituteText, parseSubstitution, if_neg (by simp [hdelim]), cutAt_append hold]
  dsimp only
  rw [hcut]
  dsimp only
  rw [if_pos hall]

/-- The line comes out right although it is searched from `offset` on: nothing is to be replaced, or
what is replaced makes the same text as the first occurrence. -/
def RightFrom (sub : Substitution) (offset : ℕ) (data : Text) : Prop :=
  match findString data sub.oldStr 0, findString data sub.oldStr offset with
  | none, _ => True
  | some p, some q => spliceAt data sub.newStr q sub.oldStr.length =
      spliceAt data sub.newStr p sub.oldStr.length
  | some p, none => spliceAt data sub.newStr p sub.oldStr.length = data

/-- The lines come out right, each searched from the offset that the one before leaves behind. -/
def Carried (sub : Substitution) : ℕ → List Text → Prop
  | _, [] => True
  | offset, data :: lines =>
    RightFrom sub offset data ∧ Carried sub (offsetAfter sub data offset) lines

theorem rightFrom_iff {sub : Substitution} (hold : sub.oldStr ≠ [])
    (hfirst : sub.globalFlag = false) (offset : ℕ) (data : Text) :
    Plain.replaceFrom sub (data.length + 1) data offset =
      replaced false sub.oldStr sub.newStr data ↔ RightFrom sub offset data := by
  have hspec := findString_spec (d := data) hold 0
  have hspec' := findString_spec (d := data) hold offset
  rw [← replaceFrom_first hold hfirst, Plain.replaceLine, Plain.replaceFrom, Plain.replaceFrom,
    RightFrom, hfirst]
  cases hfind : findString data sub.oldStr 0 with
  | none =>
    rw [hfind] at hspec
    cases hfind' : findString data sub.oldStr offset with
    | none => exact iff_of_true rfl trivial
    | some q =>
      rw [hfind'] at hspec'
      exact absurd hspec'.2.1 (hspec q (Nat.zero_le _))
  | some p =>
    cases hfind' : findString data sub.oldStr offset with
    | none => exact eq_comm
    | some q => exact Iff.rfl

theorem subLines_first {sub : Substitution} (hold : sub.oldStr ≠ [])
    (hfirst : sub.globalFlag = false) (lines : List Text) (offset : ℕ) :
    subLines sub offset lines = lines.map (replaced false sub.oldStr sub.newStr) ↔
      Carried sub offset lines := by
  induction lines generalizing offset with
  | nil => exact iff_of_true rfl trivial
  | cons data lines ih =>
    rw [subLines, List.map_cons, List.cons.injEq, rightFrom_iff hold hfirst, ih, Carried]

theorem subLines_all {sub : Substitution} (hold : sub.oldStr ≠ []) (hall : sub.globalFlag = true)
    (lines : List Text) :
    subLines sub 0 lines = lines.map (replaced true sub.oldStr sub.newStr) := by
  induction lines with
  | nil => rfl
  | cons data lines ih =>
    rw [subLines, List.map_cons, offsetAfter, if_pos hall, ih,
      replaceFrom_all hold hall _ (by omega) (Nat.zero_le _)]
    rfl

theorem length_subLines (sub : Substitution) (lines : List Text) (offset : ℕ) :
    (subLines sub offset lines).length = lines.length := by
  induction lines generalizing offset with
  | nil => rfl
  | cons data lines ih => rw [subLines, List.length_cons, List.length_cons, ih]

theorem Holds.subCommandIn_eq (hs : Holds s ps a) {num1 num2 : ℤ} (h1 : 1 ≤ num1)
    (h12 : num1 ≤ num2) (h2 : num2 ≤ a.lines.length) {cmd : Text} {sub : Substitution}
    (hparse : parseSubstitution cmd = some sub) (hold : sub.oldStr ≠ []) {lp : ℕ}
    (hlp : (ring ps)[num1.toNat]? = some lp) (rounds : ℕ) :
    subCommandIn rounds s cmd num1 num2 =
      subWhile sub num2 rounds { s with searchString := sub.oldStr } num1 lp 0 false := by
  have hbad : ¬ a.bad num1 num2 = true := (Plain.not_bad a).mpr ⟨h1, h12, h2⟩
  rw [subCommandIn, hs.badNums, if_neg hbad, hparse]
  dsimp only
  rw [if_neg fun h => hold h.1, if_neg hold, (hs.setSearch sub.oldStr).findLine_eq h1 (by
    show num1 ≤ a.lines.length
    omega), hlp]
  rfl

/-- **The substitute command** ends.  It keeps the lines outside of the range, and the lines of the
range come out with all occurrences replaced, or the first, if and only if there is a `g` or each
line comes out right from the offset that it is searched from. -/
theorem Holds.subCommand_iff (hs : Holds s ps a) {num1 num2 : ℤ} (h1 : 1 ≤ num1)
    (h12 : num1 ≤ num2) (h2 : num2 ≤ a.lines.length) {delim : UInt8} {oldStr newStr : Text}
    {flags : Option Text} (hdelim : isblank delim = false) (hold : delim ∉ oldStr)
    (hnew : delim ∉ newStr) (hflags : ∀ c ∈ flags.getD [], c = 103 ∨ c = 112)
    (hne : oldStr ≠ []) : ∃ sub s' ps' a',
      sub = ⟨oldStr, newStr, (flags.getD []).contains 103, (flags.getD []).contains 112⟩ ∧
      (∃ k, ∀ m, subCommandIn (k + m) s (substituteText delim oldStr newStr flags) num1 num2 =
        some s') ∧
      Holds s' ps' a' ∧ a'.lines.length = a.lines.length ∧
      a'.lines.take (num1 - 1).toNat = a.lines.take (num1 - 1).toNat ∧
      a'.lines.drop num2.toNat = a.lines.drop num2.toNat ∧
      (a'.range num1 num2 =
          (a.range num1 num2).map (replaced sub.globalFlag oldStr newStr) ↔
        sub.globalFlag = true ∨ Carried sub 0 (a.range num1 num2)) := by
  have hparse := parseSubstitution_eq hdelim hold hnew hflags
  generalize hsub : (⟨oldStr, newStr, (flags.getD []).contains 103,
    (flags.getD []).contains 112⟩ : Substitution) = sub at hparse
  have holdStr : sub.oldStr = oldStr := by rw [← hsub]
  have hnewStr : sub.newStr = newStr := by rw [← hsub]
  rw [← holdStr] at hne
  have hlen := hs.length
  obtain ⟨i, rfl⟩ : ∃ i : ℕ, num1 = i + 1 := ⟨(num1 - 1).toNat, by omega⟩
  obtain ⟨n, rfl⟩ : ∃ n : ℕ, num2 = i + n := ⟨(num2 - i).toNat, by omega⟩
  obtain ⟨lp, hlp⟩ := exists_ring ps (i := i + 1) (by omega)
  have hs' := hs.setSearch sub.oldStr
  obtain ⟨s', hloop, hafter⟩ := hs'.subLoop hne n 0 hlp (by show i + n ≤ a.lines.length; omega)
  obtain ⟨ps', hholds⟩ := hafter.holds
  dsimp only at hholds
  obtain ⟨k, hk⟩ := hs'.subWhile_lines hne n 0 hlp (by show i + n ≤ a.lines.length; omega) rfl
    hloop
  have hfrom : ((i : ℤ) + 1 - 1).toNat = i := by omega
  have hto : ((i : ℤ) + n).toNat = i + n := by omega
  have hrange : a.range (i + 1) (i + n) = (a.lines.drop i).take n := by
    rw [Plain.range, hfrom, hto, List.drop_take, Nat.add_sub_cancel_left]
  have hmid : (subLines sub 0 ((a.lines.drop i).take n)).length = n := by
    rw [length_subLines, List.length_take, List.length_drop]
    omega
  have hfront : (a.lines.take i ++ subLines sub 0 ((a.lines.drop i).take n)).length = i + n := by
    rw [List.length_append, hmid, List.length_take]
    omega
  have hi : (a.lines.take i).length = i := by
    rw [List.length_take]
    omega
  refine ⟨sub, s', ps', _, rfl, ⟨k + 1, fun m => ?_⟩, hholds, ?_, ?_, ?_, ?_⟩
  · rw [hs.subCommandIn_eq h1 h12 h2 hparse hne hlp, Nat.add_assoc, Nat.add_comm 1]
    exact hk m
  · dsimp only
    rw [List.length_append, hfront, List.length_drop]
    omega
  · dsimp only
    rw [hfrom, List.append_assoc, List.take_left' hi]
  · dsimp only
    rw [hto, List.drop_left' hfront]
  · rw [Plain.range, hfrom, hto]
    dsimp only
    rw [List.take_left' hfront, List.drop_left' hi, hrange, ← holdStr, ← hnewStr]
    cases hg : sub.globalFlag with
    | true => exact iff_of_true (subLines_all hne hg _) (Or.inl rfl)
    | false =>
      rw [subLines_first hne hg]
      exact (or_iff_right Bool.false_ne_true).symm

/-- All of `aa` is replaced, and the text that goes in is not searched. -/
theorem subCommand_iff_all : ∃ s s' ps' a',
    addLines (start fun _ => 0) 1 [.text [97, 97, 10]] = some s ∧
      (∃ k, ∀ m, subCommandIn (k + m) s (substituteText 47 [97] [97, 98] (some [103])) 1 1 =
        some s') ∧
      Holds s' ps' a' ∧ a'.range 1 1 = [[97, 98, 97, 98, 10]] := by
  obtain ⟨s, hadd, ⟨ps, hs⟩, -⟩ := (holds_start fun _ => 0).addLines [.text [97, 97, 10]]
    (show SteadyInsert Plain.empty 1 _ from fun _ _ _ => Or.inl Int.one_pos)
  obtain ⟨sub, s', ps', a', hsub, hend, hs', -, -, -, hrange⟩ := @Holds.subCommand_iff s ps _ hs 1 1
    (by decide) (by decide) (by decide) 47 [97] [97, 98] (some [103]) (by decide) (by decide)
    (by decide) (by decide +kernel) (by decide)
  have hg : sub.globalFlag = true := by
    rw [hsub]
    rfl
  refine ⟨s, s', ps', a', hadd, hend, hs', (hrange.mpr (Or.inl hg)).trans ?_⟩
  rw [hg]
  decide +kernel

/-- **The second line is searched from the offset of the first**: its only `A` is not replaced. -/
theorem sub_missed :
    ((addLines (start fun _ => 0) 1 [.text [120, 120, 65, 10], .text [65, 10]]).bind fun s =>
        subCommandIn 3 s (substituteText 47 [65] [113] none) 1 2).map (fun s => s.plain.lines) =
      some [[120, 120, 113, 10], [65, 10]] ∧
    [[120, 120, 65, 10], [65, 10]].map (replaced false [65] [113]) =
      [[120, 120, 113, 10], [113, 10]] := by
  decide +kernel

end Rustybox.Ed
