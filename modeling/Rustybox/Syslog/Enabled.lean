import Rustybox.Lib.Overwriting
import Rustybox.Lib.Shifts
import Rustybox.Syslog.Messages
import Mathlib.Data.Set.Basic

/-!
# The levels that selectors enable

The selectors of a field are read as sets of levels and applied from left to right.  The map that
`parse_syslogdcfg` makes is this one wherever no `!*` makes a difference.
-/

namespace Rustybox.Syslog

open Rust

/-! ### What the selectors say -/

/-- Levels: `*`, `none`, or one level with those above it or alone. -/
inductive Spec
  | all
  | none
  | level (l : ℕ) (single : Bool)

structure Selector where
  facilities : ℕ → Bool
  negated : Bool
  spec : Spec

def Spec.Levels : Spec → Set ℕ
  | all => Set.univ
  | none => ∅
  | level l true => {l}
  | level l false => {k | k ≤ l}

/-- The documented effect on the enabled levels of the facilities. -/
def Selector.apply (sel : Selector) (enabled : Set (ℕ × ℕ)) : Set (ℕ × ℕ) :=
  {p | if sel.facilities p.1 then
      match sel.spec with
      | .none => False
      | spec =>
        if sel.negated then p ∈ enabled ∧ p.2 ∉ spec.Levels else p ∈ enabled ∨ p.2 ∈ spec.Levels
    else p ∈ enabled}

/-- The selectors from left to right, nothing being enabled before them. -/
def enabled (sels : List Selector) : Set (ℕ × ℕ) := sels.foldl (fun m sel => sel.apply m) ∅

/-- `!` and `=`, and the priority behind them. -/
def readSpec (t : Str) : Option (Bool × Spec) :=
  let (negated, t) := if t.head? = some bang then (true, t.tail) else (false, t)
  let (single, t) := if t.head? = some equals then (true, t.tail) else (false, t)
  if t.head? = some star then some (negated, .all)
  else
    (findByName t prioritynames).map fun l =>
      (negated, if l = INTERNAL_NOPRI then .none else .level l single)

/-- Names of facilities; `mark` is none. -/
def readFacilities (s : Str) : Option (ℕ → Bool) :=
  if s.head? = some star then some fun _ => true
  else
    ((strsep s comma).mapM (findByName · facilitynames)).map fun codes f =>
      codes.any fun code => code ≠ INTERNAL_MARK && code >>> 3 = f

def readSelector (s : Str) : Option Selector :=
  if dot ∉ s then none
  else
    match readSpec (s.dropWhile (· ≠ dot)).tail, readFacilities (s.takeWhile (· ≠ dot)) with
    | some (negated, spec), some facilities => some ⟨facilities, negated, spec⟩
    | _, _ => none

def readSelectors (tok : Str) : Option (List Selector) := (strsep tok semicolon).mapM readSelector

/-- The selector enables the level of the facility. -/
def Selector.Adds (sel : Selector) (f l : ℕ) : Prop :=
  sel.facilities f = true ∧ sel.negated = false ∧ l ∈ sel.spec.Levels

/-- The selector is a `!*` for the facility. -/
def Selector.NotAny (sel : Selector) (f : ℕ) : Prop :=
  sel.facilities f = true ∧ sel.negated = true ∧ sel.spec = .all

/-- The selector enables or disables the level of the facility, and is no `!*`. -/
def Selector.Switches (sel : Selector) (f l : ℕ) : Prop :=
  sel.facilities f = true ∧ (sel.spec = .none ∨ l ∈ sel.spec.Levels) ∧ ¬ sel.NotAny f

/-- For each `!*` after a selector that enables a level of its facility there is another selector,
between the two or behind, that switches this level. -/
def Harmless (sels : List Selector) : Prop :=
  ∀ (f : Fin 24) (l : Fin 8) (a b c : List Selector) (s t : Selector),
    sels = a ++ s :: (b ++ t :: c) → s.Adds f l → t.NotAny f → ∃ u ∈ b ++ c, u.Switches f l

/-! ### Levels -/

theorem findByName_mem {name : Str} {cSet : List Code} {v : ℕ} (h : findByName name cSet = some v) :
    ∃ c ∈ cSet, c.cVal = v := by
  obtain ⟨c, hfind, rfl⟩ := Option.map_eq_some_iff.mp h
  exact ⟨c, List.mem_of_find?_eq_some hfind, rfl⟩

theorem priority_lt {name : Str} {v : ℕ} (h : findByName name prioritynames = some v)
    (hv : v ≠ INTERNAL_NOPRI) : v < 8 := by
  obtain ⟨c, hc, rfl⟩ := findByName_mem h
  have hall : ∀ c ∈ prioritynames, c.cVal = INTERNAL_NOPRI ∨ c.cVal < 8 := by decide
  exact (hall c hc).resolve_left hv

theorem getLsbD_priorityLoop (single : Bool) (v l : Fin 8) :
    (priorityLoop single 8 (1#8 <<< v.val) 0).getLsbD l =
      decide (if single then l.val = v.val else l.val ≤ v.val) := by
  revert single v l
  decide

/-- What a priority does to the level of a listed facility; `!*` leaves it. -/
def Spec.act (negated : Bool) (l : ℕ) : Spec → Option Bool
  | none => some false
  | all => if negated then Option.none else some true
  | level v single => if (if single then l = v else l ≤ v) then some !negated else Option.none

theorem or_decide (bit : Bool) (p : Prop) [Decidable p] :
    (bit || decide p) = (if p then some true else none).getD bit := by
  by_cases hp : p
  · simp [hp]
  · simp [hp]

theorem and_not_decide (bit : Bool) (p : Prop) [Decidable p] :
    (bit && !decide p) = (if p then some false else none).getD bit := by
  by_cases hp : p
  · simp [hp]
  · simp [hp]

/-- The masks of the code do to a bit what the priority says. -/
theorem parsePriority_spec (t : Str) :
    (readSpec t = none ∧ parsePriority t = none) ∨
      ∃ negated spec negatedPrio primap, readSpec t = some (negated, spec) ∧
        parsePriority t = some (negatedPrio, primap) ∧ ∀ (l : Fin 8) (bit : Bool),
          (if negatedPrio then bit && primap.getLsbD l else bit || primap.getLsbD l) =
            (spec.act negated l).getD bit := by
  rw [readSpec, parsePriority]
  generalize (if t.head? = some bang then (true, t.tail) else (false, t)) = negated
  obtain ⟨negated, t⟩ := negated
  dsimp only
  generalize (if t.head? = some equals then (true, t.tail) else (false, t)) = single
  obtain ⟨single, t⟩ := single
  dsimp only
  by_cases hstar : t.head? = some Rust.star
  · rw [if_pos hstar, if_pos hstar]
    refine Or.inr ⟨negated, .all, negated, 0xff, rfl, rfl, ?_⟩
    revert negated
    decide
  · rw [if_neg hstar, if_neg hstar]
    cases hname : findByName t prioritynames with
    | none => exact Or.inl ⟨rfl, rfl⟩
    | some v =>
      right
      dsimp only [Option.map_some]
      by_cases hnone : v = INTERNAL_NOPRI
      · rw [if_pos hnone, if_pos hnone]
        refine ⟨negated, .none, true, 0, rfl, rfl, fun l bit => ?_⟩
        simp [Spec.act]
      · rw [if_neg hnone, if_neg hnone]
        have hv := priority_lt hname hnone
        refine ⟨_, _, _, _, rfl, rfl, fun l bit => ?_⟩
        have hloop := getLsbD_priorityLoop single ⟨v, hv⟩ l
        rw [Spec.act]
        cases negated with
        | false =>
          simp only [Bool.false_eq_true, if_false, hloop]
          exact or_decide bit _
        | true =>
          simp only [if_true, BitVec.getLsbD_not, hloop, l.isLt, decide_true, Bool.true_and]
          exact and_not_decide bit _

/-! ### Facilities -/

theorem facility_lt {name : Str} {code : ℕ} (h : findByName name facilitynames = some code)
    (hcode : code ≠ INTERNAL_MARK) : (code &&& 0x3f8) >>> 3 = code >>> 3 ∧ code >>> 3 < 24 := by
  obtain ⟨c, hc, rfl⟩ := findByName_mem h
  have hall : ∀ c ∈ facilitynames, c.cVal = INTERNAL_MARK ∨
      ((c.cVal &&& 0x3f8) >>> 3 = c.cVal >>> 3 ∧ c.cVal >>> 3 < 24) := by decide
  exact (hall c hc).resolve_left hcode

theorem facilityLoop_spec (ts : List Str) (facmap : BitVec 32) :
    (ts.mapM (findByName · facilitynames) = none ∧ facilityLoop ts facmap = none) ∨
      ∃ codes facmap', ts.mapM (findByName · facilitynames) = some codes ∧
        facilityLoop ts facmap = some facmap' ∧ ∀ i < 24, facmap'.getLsbD i =
          (facmap.getLsbD i || codes.any fun code => code ≠ INTERNAL_MARK && code >>> 3 = i) := by
  induction ts generalizing facmap with
  | nil =>
    refine Or.inr ⟨[], facmap, rfl, rfl, fun i _ => ?_⟩
    rw [List.any_nil, Bool.or_false]
  | cons t ts ih =>
    rw [facilityLoop, List.mapM_cons]
    cases hname : findByName t facilitynames with
    | none => exact Or.inl ⟨rfl, rfl⟩
    | some code =>
      dsimp only
      rcases ih
        (if code ≠ INTERNAL_MARK then facmap ||| 1#32 <<< ((code &&& 0x3f8) >>> 3) else facmap)
        with ⟨hmap, hloop⟩ | ⟨codes, facmap', hmap, hloop, hbits⟩
      · rw [hmap, hloop]
        exact Or.inl ⟨rfl, rfl⟩
      · rw [hmap, hloop]
        refine Or.inr ⟨code :: codes, facmap', rfl, rfl, fun i hi => ?_⟩
        rw [hbits i hi, List.any_cons]
        by_cases hcode : code = INTERNAL_MARK
        · simp [hcode]
        · obtain ⟨hmask, -⟩ := facility_lt hname hcode
          rw [if_pos hcode, hmask, BitVec.getLsbD_or, Shifts.getLsbD_bit _ (by omega),
            Bool.or_assoc]
          simp [hcode]

theorem parseFacility_spec (s : Str) :
    (readFacilities s = none ∧ parseFacility s = none) ∨
      ∃ facilities facmap, readFacilities s = some facilities ∧ parseFacility s = some facmap ∧
        ∀ i < 24, facmap.getLsbD i = facilities i := by
  rw [readFacilities, parseFacility]
  by_cases hstar : s.head? = some Rust.star
  · rw [if_pos hstar, if_pos hstar]
    refine Or.inr ⟨_, _, rfl, rfl, ?_⟩
    decide
  · rw [if_neg hstar, if_neg hstar]
    rcases facilityLoop_spec (strsep s comma) 0 with
      ⟨hmap, hloop⟩ | ⟨codes, facmap, hmap, hloop, hbits⟩
    · rw [hmap, hloop]
      exact Or.inl ⟨rfl, rfl⟩
    · rw [hmap, hloop]
      refine Or.inr ⟨_, facmap, rfl, rfl, fun i hi => ?_⟩
      rw [hbits i hi, show BitVec.getLsbD (0 : BitVec 32) i = false from BitVec.getLsbD_zero,
        Bool.false_or]

/-! ### Selectors -/

/-- What a selector does to a level of a facility in the code. -/
def Selector.act (f l : ℕ) (sel : Selector) : Option Bool :=
  if sel.facilities f then sel.spec.act sel.negated l else none

theorem parseSelector_spec (s : Str) (priomap : Priomap) :
    (readSelector s = none ∧ parseSelector s priomap = none) ∨
      ∃ sel priomap', readSelector s = some sel ∧ parseSelector s priomap = some priomap' ∧
        ∀ (f : Fin 24) (l : Fin 8), (priomap' f).getLsbD l =
          (sel.act f l).getD ((priomap f).getLsbD l) := by
  rw [readSelector, parseSelector]
  by_cases hdot : dot ∉ s
  · rw [if_pos hdot, if_pos hdot]
    exact Or.inl ⟨rfl, rfl⟩
  · rw [if_neg hdot, if_neg hdot]
    rcases parsePriority_spec (s.dropWhile (· ≠ dot)).tail with
      ⟨hread, hparse⟩ | ⟨negated, spec, negatedPrio, primap, hread, hparse, hlevels⟩
    · rw [hread, hparse]
      exact Or.inl ⟨rfl, rfl⟩
    · rw [hread, hparse]
      rcases parseFacility_spec (s.takeWhile (· ≠ dot)) with
        ⟨hread, hparse⟩ | ⟨facilities, facmap, hread, hparse, hfacilities⟩
      · rw [hread, hparse]
        exact Or.inl ⟨rfl, rfl⟩
      · rw [hread, hparse]
        refine Or.inr ⟨_, _, rfl, rfl, fun f l => ?_⟩
        have hlisted := hfacilities f f.isLt
        have hf : f.val < 32 := by omega
        cases hbit : facilities f.val with
        | false =>
          rw [hbit] at hlisted
          rw [if_pos ((Shifts.and_bit_eq_zero facmap hf).mpr hlisted)]
          simp [Selector.act, hbit]
        | true =>
          have hne : ¬ facmap &&& 1#32 <<< f.val = 0 := by
            rw [Shifts.and_bit_eq_zero facmap hf, hlisted, hbit]
            decide
          simp only [if_neg hne, Selector.act, hbit, if_true, ← hlevels l]
          cases negatedPrio with
          | false => simp
          | true => simp

theorem selectorLoop_spec (ss : List Str) (priomap : Priomap) :
    (ss.mapM readSelector = none ∧ selectorLoop ss priomap = none) ∨
      ∃ sels priomap', ss.mapM readSelector = some sels ∧ selectorLoop ss priomap = some priomap' ∧
        ∀ (f : Fin 24) (l : Fin 8), (priomap' f).getLsbD l =
          sels.foldl (fun bit sel => (sel.act f l).getD bit) ((priomap f).getLsbD l) := by
  induction ss generalizing priomap with
  | nil => exact Or.inr ⟨[], priomap, rfl, rfl, fun _ _ => rfl⟩
  | cons s ss ih =>
    rw [selectorLoop, List.mapM_cons]
    rcases parseSelector_spec s priomap with
      ⟨hread, hparse⟩ | ⟨sel, priomap', hread, hparse, hbits⟩
    · rw [hread, hparse]
      exact Or.inl ⟨rfl, rfl⟩
    · rw [hread, hparse]
      rcases ih priomap' with ⟨hread, hloop⟩ | ⟨sels, priomap'', hread, hloop, hbits'⟩
      · refine Or.inl ⟨?_, hloop⟩
        rw [hread]
        rfl
      · refine Or.inr ⟨sel :: sels, priomap'', ?_, hloop, fun f l => ?_⟩
        · rw [hread]
          rfl
        · rw [hbits', hbits, List.foldl_cons]

/-! ### The documented effect -/

/-- Is it a `!*` that lists the facility? -/
def Selector.notAny (f : ℕ) (sel : Selector) : Bool :=
  sel.facilities f && sel.negated && match sel.spec with | .all => true | _ => false

theorem notAny_iff (f : ℕ) (sel : Selector) : sel.notAny f = true ↔ sel.NotAny f := by
  obtain ⟨facilities, negated, spec⟩ := sel
  cases spec <;> simp [Selector.notAny, Selector.NotAny]

theorem act_of_notAny (f l : ℕ) (sel : Selector) (h : sel.notAny f = true) :
    sel.act f l = none := by
  obtain ⟨hlisted, hnegated, hall⟩ := (notAny_iff f sel).mp h
  rw [Selector.act, if_pos hlisted, hall, hnegated]
  rfl

theorem mem_levels (v : ℕ) (single : Bool) (l : ℕ) :
    l ∈ (Spec.level v single).Levels ↔ if single then l = v else l ≤ v := by
  cases single with
  | false => exact Iff.rfl
  | true => exact Iff.rfl

theorem act_eq_true_iff (f l : ℕ) (sel : Selector) : sel.act f l = some true ↔ sel.Adds f l := by
  obtain ⟨facilities, negated, spec⟩ := sel
  cases hf : facilities f with
  | false => simp [Selector.act, Selector.Adds, hf]
  | true =>
    cases spec with
    | all => cases negated <;> simp [Selector.act, Selector.Adds, hf, Spec.act, Spec.Levels]
    | none => simp [Selector.act, Selector.Adds, hf, Spec.act, Spec.Levels]
    | level v single =>
      cases negated <;> simp [Selector.act, Selector.Adds, hf, Spec.act, mem_levels]

theorem act_ne_none_iff (f l : ℕ) (sel : Selector) : sel.act f l ≠ none ↔ sel.Switches f l := by
  obtain ⟨facilities, negated, spec⟩ := sel
  cases hf : facilities f with
  | false => simp [Selector.act, Selector.Switches, hf]
  | true =>
    cases spec with
    | all =>
      cases negated <;>
        simp [Selector.act, Selector.Switches, Selector.NotAny, hf, Spec.act, Spec.Levels]
    | none => simp [Selector.act, Selector.Switches, Selector.NotAny, hf, Spec.act]
    | level v single =>
      simp [Selector.act, Selector.Switches, Selector.NotAny, hf, Spec.act, mem_levels]

/-- The documented effect of a selector on one level of one facility. -/
theorem mem_apply (f l : ℕ) (sel : Selector) (m : Set (ℕ × ℕ)) (bit : Bool)
    (hbit : (f, l) ∈ m ↔ bit = true) :
    (f, l) ∈ sel.apply m ↔
      (Overwriting.switchedOff (Selector.act f l) (Selector.notAny f) sel).getD bit = true := by
  obtain ⟨facilities, negated, spec⟩ := sel
  cases hf : facilities f with
  | false =>
    simp [Selector.apply, Overwriting.switchedOff, Selector.act, Selector.notAny, hf, hbit]
  | true =>
    cases spec with
    | all =>
      cases negated <;>
        simp [Selector.apply, Overwriting.switchedOff, Selector.act, Selector.notAny, hf, Spec.act,
          Spec.Levels]
    | none =>
      simp [Selector.apply, Overwriting.switchedOff, Selector.act, Selector.notAny, hf, Spec.act]
    | level v single =>
      have hlevel := mem_levels v single l
      by_cases hmem : (if single then l = v else l ≤ v)
      · cases negated <;>
          simp [Selector.apply, Overwriting.switchedOff, Selector.act, Selector.notAny, hf,
            Spec.act, hlevel, hmem, hbit]
      · cases negated <;>
          simp [Selector.apply, Overwriting.switchedOff, Selector.act, Selector.notAny, hf,
            Spec.act, hlevel, hmem, hbit]

theorem mem_foldl_apply (f l : ℕ) (sels : List Selector) (m : Set (ℕ × ℕ)) (bit : Bool)
    (hbit : (f, l) ∈ m ↔ bit = true) :
    (f, l) ∈ sels.foldl (fun m sel => sel.apply m) m ↔
      sels.foldl (fun bit sel => (Overwriting.switchedOff (Selector.act f l)
        (Selector.notAny f) sel).getD bit) bit = true := by
  induction sels generalizing m bit with
  | nil => exact hbit
  | cons sel sels ih => exact ih (sel.apply m) _ (mem_apply f l sel m bit hbit)

theorem mem_enabled (f l : ℕ) (sels : List Selector) :
    (f, l) ∈ enabled sels ↔
      Overwriting.after (Overwriting.switchedOff (Selector.act f l) (Selector.notAny f)) sels =
        true := by
  refine mem_foldl_apply f l sels ∅ false ?_
  simp

/-- What is not accepted cannot be read as selectors; what is accepted has the documented map if and
only if each `!*` is harmless. -/
theorem parseSelectors_eq_iff (tok : Str) :
    (readSelectors tok = none ∧ parseSelectors tok = none) ∨
      ∃ sels priomap, readSelectors tok = some sels ∧ parseSelectors tok = some priomap ∧
        ((∀ (f : Fin 24) (l : Fin 8),
            (priomap f).getLsbD l = true ↔ (f.val, l.val) ∈ enabled sels) ↔ Harmless sels) := by
  rcases selectorLoop_spec (strsep tok semicolon) fun _ => 0 with
    hnone | ⟨sels, priomap, hread, hloop, hbits⟩
  · exact Or.inl hnone
  · refine Or.inr ⟨sels, priomap, hread, hloop, ?_⟩
    have hafter : ∀ (f : Fin 24) (l : Fin 8),
        (priomap f).getLsbD l = Overwriting.after (Selector.act f l) sels := by
      intro f l
      rw [hbits f l, show BitVec.getLsbD (0 : BitVec 8) l = false from BitVec.getLsbD_zero]
      rfl
    have hbit : ∀ (f : Fin 24) (l : Fin 8),
        ((priomap f).getLsbD l = true ↔ (f.val, l.val) ∈ enabled sels) ↔
          ∀ a s b t c, sels = a ++ s :: (b ++ t :: c) → s.Adds f l → t.NotAny f →
            ∃ u ∈ b ++ c, u.Switches f l := by
      intro f l
      rw [mem_enabled, hafter, ← Bool.eq_iff_iff,
        Overwriting.after_eq_iff (fun sel h => act_of_notAny f l sel h) sels]
      simp only [act_eq_true_iff, act_ne_none_iff, notAny_iff]
    simp only [hbit]
    constructor
    · intro h f l a b c s t
      exact h f l a s b t c
    · intro h f l a s b t c
      exact h f l a b c s t

/-- After `kern.*;kern.!*` all levels of kern are enabled. -/
theorem parseSelectors_notAny :
    ∃ sels priomap, readSelectors (bytes "kern.*;kern.!*") = some sels ∧
      parseSelectors (bytes "kern.*;kern.!*") = some priomap ∧
      ¬ ∀ (f : Fin 24) (l : Fin 8),
        (priomap f).getLsbD l = true ↔ (f.val, l.val) ∈ enabled sels := by
  refine ⟨_, _, rfl, rfl, fun h => ?_⟩
  have hmem := (h 0 0).mp (by decide)
  -- the second selector disables them
  obtain ⟨-, hnot⟩ : _ ∧ (0 : ℕ) ∉ Set.univ := hmem
  exact hnot trivial

end Rustybox.Syslog
