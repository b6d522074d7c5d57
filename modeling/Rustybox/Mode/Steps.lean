import Rustybox.Mode.Grammar

/-!
# What an action is meant to do

`specStep` is an action as `chmod` describes it: permissions are read from the mode as it is
before the action.  The code clears what `=` clears before it reads them, so that a class
copied to itself, and an `X` that rests on bits which are cleared, give nothing.

`codeStep_eq_iff`: the two differ exactly for these actions (`Unharmed` excludes them).
-/

namespace Rustybox.Mode

open Rustybox.Rust

/-! ### Chmod -/

/-- Where the bits of a class are. -/
def Class.shift : Class → ℕ
  | .u => 6
  | .g => 3
  | .o => 0

/-- The permissions of a class, given to every class. -/
def copied (mode : ModeT) (c : Class) : ModeT := (mode >>> c.shift &&& 7) * 0o111

/-- The permissions that an action names. -/
def namedBits (mode : ModeT) : Perms → ModeT
  | .list l => listBits mode l
  | .copy c => copied mode c

/-- The bits that a clause may change: those of its wholist, or all but those of the umask. -/
def limit (umask : ModeT) (who : List Who) : ModeT := if who = [] then ~~~umask else whoBits who

def cleared (who : List Who) : ModeT := if who = [] then 0o7777 else whoBits who

def effect (op : Op) (who : List Who) (bits mode : ModeT) : ModeT :=
  match op with
  | .plus => mode ||| bits
  | .minus => mode &&& ~~~bits
  | .equal => (mode &&& ~~~cleared who) ||| bits

/-- One action of `chmod`. -/
def specStep (umask mode : ModeT) (step : List Who × Action) : ModeT :=
  effect step.2.op step.1 (namedBits mode step.2.perms &&& limit umask step.1) mode

/-- Is the clause about this class? -/
def Covers (who : List Who) (c : Class) : Prop := who = [] ∨ Who.all ∈ who ∨ Who.one c ∈ who

/-- Does the action take nothing from what it clears itself? -/
def Unharmed (umask mode : ModeT) (step : List Who × Action) : Prop :=
  step.2.op = .equal →
    match step.2.perms with
    | .copy c => ¬ Covers step.1 c ∨ copied mode c &&& limit umask step.1 = 0
    | .list l =>
      .X ∉ l ∨ .x ∈ l ∨ mode &&& 0o40111 = 0 ∨ mode &&& ~~~cleared step.1 &&& 0o40111 ≠ 0 ∨
        0o111 &&& limit umask step.1 = 0

/-! ### Wholists -/

theorem zero_or_mode (a : ModeT) : 0 ||| a = a := BitVec.zero_or

theorem foldl_or (l : List ModeT) (a : ModeT) :
    l.foldl (· ||| ·) a = a ||| l.foldl (· ||| ·) 0 := by
  induction l generalizing a with
  | nil => exact (BitVec.or_zero).symm
  | cons b l ih => rw [List.foldl_cons, ih, List.foldl_cons, ih (0 ||| b), zero_or_mode,
      BitVec.or_assoc]

theorem whoBits_cons (w : Who) (who : List Who) : whoBits (w :: who) = w.mask ||| whoBits who := by
  rw [whoBits, List.map_cons, List.foldl_cons, foldl_or, zero_or_mode, whoBits]

theorem whoBits_eq_zero (who : List Who) : whoBits who = 0 ↔ who = [] := by
  cases who with
  | nil => exact ⟨fun _ => rfl, fun _ => rfl⟩
  | cons w who =>
    refine ⟨fun h => ?_, fun h => by cases h⟩
    rw [whoBits_cons] at h
    have hw : w.mask = 0 := (BitVec.or_eq_zero_iff.mp h).1
    cases w with
    | all => exact absurd hw (by decide)
    | one c => cases c <;> exact absurd hw (by decide)

/-- The bits of a class are all in a wholist or all not. -/
theorem class_and_whoBits (c : Class) (who : List Who) :
    c.mask &&& 0o777 &&& whoBits who =
      if Who.all ∈ who ∨ Who.one c ∈ who then c.mask &&& 0o777 else 0 := by
  induction who with
  | nil => cases c <;> decide
  | cons w who ih =>
    have hw : c.mask &&& 0o777 &&& w.mask =
        if w = .all ∨ w = .one c then c.mask &&& 0o777 else 0 := by
      cases w with
      | all => cases c <;> decide
      | one k => cases c <;> cases k <;> decide
    have hor : c.mask &&& 0o777 ||| c.mask &&& 0o777 = c.mask &&& 0o777 := BitVec.or_self
    have hmem : (Who.all ∈ w :: who ∨ Who.one c ∈ w :: who) ↔
        ((w = .all ∨ w = .one c) ∨ (Who.all ∈ who ∨ Who.one c ∈ who)) := by
      simp only [List.mem_cons, eq_comm]
      tauto
    rw [whoBits_cons, BitVec.and_or_distrib_left, hw, ih]
    simp only [hmem]
    by_cases h1 : w = .all ∨ w = .one c
    · by_cases h2 : Who.all ∈ who ∨ Who.one c ∈ who
      · rw [if_pos h1, if_pos h2, if_pos (Or.inl h1)]
        exact hor
      · rw [if_pos h1, if_neg h2, if_pos (Or.inl h1)]
        exact BitVec.or_zero
    · rw [if_neg h1, zero_or_mode]
      simp only [h1, false_or]

/-! ### Copies -/

theorem permCopy_congr {mask mode mode' : ModeT}
    (h : mask &&& 0o777 &&& mode = mask &&& 0o777 &&& mode') :
    permCopy mask mode = permCopy mask mode' := by
  rw [permCopy, h, permCopy]

theorem class_bits (mode : ModeT) (c : Class) :
    c.mask &&& 0o777 &&& mode = (mode >>> c.shift &&& 7) <<< c.shift := by
  have hmask : BitVec.allOnes 32 <<< c.shift &&& (7 : ModeT) <<< c.shift = c.mask &&& 0o777 := by
    cases c <;> decide
  have hshift : (mode >>> c.shift &&& 7) <<< c.shift = mode &&& (c.mask &&& 0o777) := by
    rw [BitVec.shiftLeft_and_distrib, BitVec.shiftLeft_ushiftRight, BitVec.and_assoc, hmask]
  rw [hshift, BitVec.and_comm]

/-- **What the code copies** is what the class has. -/
theorem permCopy_eq (mode : ModeT) (c : Class) : permCopy c.mask mode = copied mode c := by
  have hlt : (mode >>> c.shift &&& 7).toNat < 8 := by
    rw [BitVec.toNat_and]
    exact Nat.lt_of_le_of_lt Nat.and_le_right (by decide)
  have hsmall (k : Fin 8) :
      ((permMask.take 3).map Prod.snd).foldl
        (fun permlist mask => if permlist &&& mask ≠ 0 then permlist ||| mask else permlist)
        (BitVec.ofNat 32 k <<< c.shift) = BitVec.ofNat 32 k * 0o111 := by
    revert k
    cases c <;> decide
  have hk := hsmall ⟨_, hlt⟩
  rw [BitVec.ofNat_toNat, BitVec.setWidth_eq] at hk
  rw [permCopy, class_bits, hk, copied]

/-! ### Lists of permissions -/

/-- The permissions of a list that do not depend on the mode. -/
def plainBits (l : List Perm) : ModeT :=
  ((l.filter (· ≠ .X)).map Perm.mask).foldl (· ||| ·) 0

theorem listBits_cons (mode : ModeT) (p : Perm) (l : List Perm) :
    listBits mode (p :: l) = permBits mode p ||| listBits mode l := by
  rw [listBits, List.map_cons, List.foldl_cons, foldl_or, zero_or_mode, listBits]

theorem plainBits_cons (p : Perm) (l : List Perm) :
    plainBits (p :: l) = (if p = .X then 0 else p.mask) ||| plainBits l := by
  by_cases h : p = .X
  · rw [if_pos h, zero_or_mode, plainBits, List.filter_cons_of_neg (by simpa using h), plainBits]
  · rw [if_neg h, plainBits, List.filter_cons_of_pos (by simpa using h), List.map_cons,
      List.foldl_cons, foldl_or, zero_or_mode, plainBits]

/-- The bits of a list: `X` counts where it is granted. -/
theorem listBits_eq (mode : ModeT) (l : List Perm) :
    listBits mode l =
      plainBits l ||| (if .X ∈ l ∧ mode &&& 0o40111 ≠ 0 then 0o111 else 0) := by
  induction l with
  | nil => exact (BitVec.or_zero).symm
  | cons p l ih =>
    rw [listBits_cons, ih, plainBits_cons]
    by_cases hp : p = .X
    · subst hp
      have hgrant : permBits mode .X = if mode &&& 0o40111 ≠ 0 then 0o111 else 0 := by
        simp only [permBits, ne_eq, not_true_eq_false, false_or]
        rfl
      rw [hgrant, if_pos rfl, zero_or_mode]
      simp only [List.mem_cons, true_or, true_and]
      by_cases hc : mode &&& 0o40111 ≠ 0
      · rw [if_pos hc]
        by_cases hX : Perm.X ∈ l
        · rw [if_pos ⟨hX, hc⟩, BitVec.or_comm, BitVec.or_assoc, BitVec.or_self]
        · rw [if_neg fun h => hX h.1, BitVec.or_comm]
          exact congrArg (· ||| (0o111 : ModeT)) BitVec.or_zero
      · rw [if_neg hc, if_neg fun h => hc h.2, zero_or_mode]
    · have hbits : permBits mode p = p.mask := if_pos (Or.inl hp)
      have hmem : Perm.X ∈ p :: l ↔ Perm.X ∈ l := by
        rw [List.mem_cons]
        exact or_iff_right fun h => hp h.symm
      rw [hbits, if_neg hp, BitVec.or_assoc]
      simp only [hmem]

theorem plainBits_and_x (l : List Perm) :
    plainBits l &&& 0o111 = if .x ∈ l then 0o111 else 0 := by
  induction l with
  | nil => decide
  | cons p l ih =>
    rw [plainBits_cons, BitVec.and_or_distrib_right, ih]
    by_cases hx : Perm.x ∈ l
    · rw [if_pos hx, if_pos (List.mem_cons_of_mem p hx)]
      cases p <;> decide
    · rw [if_neg hx]
      by_cases hp : p = .x
      · subst hp
        rw [if_pos (List.mem_cons_self ..)]
        decide
      · have hmem : Perm.x ∉ p :: l := by
          rw [List.mem_cons]
          rintro (h | h)
          · exact hp h.symm
          · exact hx h
        rw [if_neg hmem]
        cases p <;> first | decide | exact absurd rfl hp

/-- What can be named lies in the file mode bits. -/
theorem listBits_outside (mode : ModeT) (l : List Perm) :
    listBits mode l &&& ~~~0o7777 = 0 := by
  induction l with
  | nil => exact BitVec.zero_and
  | cons p l ih =>
    have hp : permBits mode p &&& ~~~0o7777 = 0 := by
      rw [permBits]
      split
      · cases p <;> decide
      · decide
    rw [listBits_cons, BitVec.and_or_distrib_right, hp, ih, zero_or_mode]

theorem copied_outside (mode : ModeT) (c : Class) : copied mode c &&& ~~~0o777 = 0 := by
  have hlt : (mode >>> c.shift &&& 7).toNat < 8 := by
    rw [BitVec.toNat_and]
    exact Nat.lt_of_le_of_lt Nat.and_le_right (by decide)
  have hsmall (k : Fin 8) : BitVec.ofNat 32 k * (0o111 : ModeT) &&& ~~~0o777 = 0 := by
    revert k
    decide
  have hk := hsmall ⟨_, hlt⟩
  rwa [BitVec.ofNat_toNat, BitVec.setWidth_eq] at hk

theorem namedBits_outside (mode : ModeT) (p : Perms) : namedBits mode p &&& ~~~0o7777 = 0 := by
  cases p with
  | list l => exact listBits_outside mode l
  | copy c =>
    have hmask : (~~~0o7777 : ModeT) = ~~~0o777 &&& ~~~0o7777 := by decide
    rw [hmask, ← BitVec.and_assoc]
    show copied mode c &&& ~~~0o777 &&& ~~~0o7777 = 0
    rw [copied_outside]
    exact BitVec.zero_and

/-! ### The code, operator by operator -/

theorem codeBits_eq (mode : ModeT) (p : Perms) : codeBits mode p = namedBits mode p := by
  cases p with
  | list l => rfl
  | copy c => exact permCopy_eq mode c

theorem clear_eq (op : Op) (who : List Who) (mode : ModeT) :
    clear op.char (whoBits who) mode =
      if op = .equal then mode &&& ~~~cleared who else mode := by
  have hop : op.char = equalSign ↔ op = .equal := by cases op <;> decide
  have hwho : (if whoBits who ≠ 0 then ~~~whoBits who else ~~~0o7777) = ~~~cleared who := by
    by_cases h : who = []
    · rw [cleared, if_pos h, if_neg (not_not.mpr ((whoBits_eq_zero who).mpr h))]
    · rw [cleared, if_neg h, if_pos (mt (whoBits_eq_zero who).mp h)]
  simp only [clear, hop, hwho]

theorem apply_eq (op : Op) (who : List Who) (umask permlist mode : ModeT) :
    apply op.char (whoBits who) umask permlist mode =
      if op = .minus then mode &&& ~~~(permlist &&& limit umask who)
      else mode ||| (permlist &&& limit umask who) := by
  have hop : op.char = minusSign ↔ op = .minus := by cases op <;> decide
  have hwho : (if whoBits who = 0 then ~~~umask else whoBits who) = limit umask who := by
    simp only [limit, whoBits_eq_zero]
  by_cases hp : permlist = 0
  · have hand : (0 : ModeT) &&& limit umask who = 0 := BitVec.zero_and
    have hor : mode ||| 0 = mode := BitVec.or_zero
    have hall : mode &&& ~~~0 = mode := BitVec.and_allOnes
    rw [apply, if_neg (not_not.mpr hp), hp, hand, hor, hall, ite_self]
  · rw [apply, if_pos hp]
    simp only [hop, hwho]

/-- **One action of the code**: what is cleared is cleared before the permissions are read. -/
theorem codeStep_eq (umask mode : ModeT) (who : List Who) (a : Action) :
    codeStep umask mode (who, a) =
      effect a.op who
        (namedBits (if a.op = .equal then mode &&& ~~~cleared who else mode) a.perms &&&
          limit umask who) mode := by
  show apply a.op.char (whoBits who) umask (codeBits (clear a.op.char (whoBits who) mode) a.perms)
    (clear a.op.char (whoBits who) mode) = _
  rw [apply_eq, clear_eq, codeBits_eq]
  rcases a with ⟨op, p⟩
  cases op <;> rfl

/-! ### Where they differ -/

theorem and_eq_self_of_outside {b k : ModeT} (h : b &&& ~~~k = 0) : b &&& k = b := by
  ext i hi
  have hbit := congrArg (fun m : ModeT => m[i]) h
  simp only [BitVec.getElem_and, BitVec.getElem_not, BitVec.ofNat_eq_ofNat,
    BitVec.getElem_zero] at hbit
  rw [BitVec.getElem_and]
  cases hb : b[i]
  · rfl
  · rw [hb, Bool.true_and, Bool.not_eq_false'] at hbit
    rw [hbit]
    rfl

theorem outside_of_and_eq_self {b k : ModeT} (h : b &&& k = b) : b &&& ~~~k = 0 := by
  rw [← h, BitVec.and_assoc, BitVec.and_not_self]
  exact BitVec.and_zero

/-- Two sets of bits, put into a mode where all of them are cleared. -/
theorem or_eq_or_iff {m b b' k : ModeT} (hb : b &&& ~~~k = 0) (hb' : b' &&& ~~~k = 0) :
    (m &&& ~~~k) ||| b = (m &&& ~~~k) ||| b' ↔ b = b' := by
  have hcut {c : ModeT} (hc : c &&& ~~~k = 0) : ((m &&& ~~~k) ||| c) &&& k = c := by
    rw [BitVec.and_or_distrib_right, and_eq_self_of_outside hc, BitVec.and_assoc,
      BitVec.not_and_self]
    have hz : m &&& 0 = 0 := BitVec.and_zero
    rw [hz, zero_or_mode]
  constructor
  · intro h
    rw [← hcut hb, h, hcut hb']
  · intro h
    rw [h]

/-- What `=` puts into the mode has been cleared before. -/
theorem limited_outside (umask mode : ModeT) (who : List Who) (p : Perms) :
    namedBits mode p &&& limit umask who &&& ~~~cleared who = 0 := by
  by_cases h : who = []
  · rw [cleared, if_pos h, BitVec.and_comm (namedBits mode p), BitVec.and_assoc,
      namedBits_outside]
    exact BitVec.and_zero
  · rw [cleared, limit, if_neg h, if_neg h, BitVec.and_assoc, BitVec.and_not_self]
    exact BitVec.and_zero

/-- The bits of a class are all cleared or all not. -/
theorem class_and_cleared (c : Class) (who : List Who) :
    (Covers who c → c.mask &&& 0o777 &&& ~~~cleared who = 0) ∧
      (¬ Covers who c → c.mask &&& 0o777 &&& ~~~cleared who = c.mask &&& 0o777) := by
  by_cases hnil : who = []
  · refine ⟨fun _ => ?_, fun h => absurd (Or.inl hnil) h⟩
    rw [cleared, if_pos hnil]
    cases c <;> decide
  · have hwho := class_and_whoBits c who
    rw [cleared, if_neg hnil]
    constructor
    · intro h
      rw [if_pos (h.resolve_left hnil)] at hwho
      exact outside_of_and_eq_self hwho
    · intro h
      rw [if_neg fun hc => h (Or.inr hc)] at hwho
      apply and_eq_self_of_outside
      rw [BitVec.not_not]
      exact hwho

/-- A class that is cleared has nothing to copy. -/
theorem copied_clear_of_covers (mode : ModeT) {who : List Who} {c : Class} (h : Covers who c) :
    copied (mode &&& ~~~cleared who) c = 0 := by
  have hzero : c.mask &&& 0o777 &&& (mode &&& ~~~cleared who) = c.mask &&& 0o777 &&& 0 := by
    rw [BitVec.and_comm mode, ← BitVec.and_assoc, (class_and_cleared c who).1 h]
    exact BitVec.zero_and.trans BitVec.and_zero.symm
  rw [← permCopy_eq, permCopy_congr hzero]
  cases c <;> decide

theorem copied_clear_of_not_covers (mode : ModeT) {who : List Who} {c : Class}
    (h : ¬ Covers who c) : copied (mode &&& ~~~cleared who) c = copied mode c := by
  have hsame : c.mask &&& 0o777 &&& (mode &&& ~~~cleared who) = c.mask &&& 0o777 &&& mode := by
    rw [BitVec.and_comm mode, ← BitVec.and_assoc, (class_and_cleared c who).2 h]
  rw [← permCopy_eq, permCopy_congr hsame, permCopy_eq]

/-- Granting `X` makes no difference. -/
theorem plainBits_or_x_iff (l : List Perm) (b : ModeT) :
    plainBits l &&& b = (plainBits l ||| 0o111) &&& b ↔ .x ∈ l ∨ 0o111 &&& b = 0 := by
  have hx := plainBits_and_x l
  have hdist : (plainBits l ||| 0o111) &&& b = plainBits l &&& b ||| 0o111 &&& b :=
    BitVec.and_or_distrib_right
  constructor
  · intro h
    by_cases hmem : Perm.x ∈ l
    · exact Or.inl hmem
    · rw [if_neg hmem] at hx
      have hcut := congrArg (fun m : ModeT => m &&& 0o111) h
      simp only [hdist, BitVec.and_or_distrib_right] at hcut
      have hplain : plainBits l &&& b &&& 0o111 = 0 := by
        rw [BitVec.and_assoc, BitVec.and_comm b, ← BitVec.and_assoc, hx]
        exact BitVec.zero_and
      have hself : (0o111 : ModeT) &&& b &&& 0o111 = 0o111 &&& b := by
        rw [BitVec.and_assoc, BitVec.and_comm b, ← BitVec.and_assoc, BitVec.and_self]
      rw [hplain, hself, zero_or_mode] at hcut
      exact Or.inr hcut.symm
  · rintro (hmem | hb)
    · rw [if_pos hmem] at hx
      have hself : plainBits l ||| 0o111 = plainBits l := by
        rw [← hx]
        ext i hi
        rw [BitVec.getElem_or, BitVec.getElem_and]
        cases (plainBits l)[i] <;> rfl
      rw [hself]
    · rw [hdist, hb]
      exact BitVec.or_zero.symm

/-- A list reads the mode for `X` only, and `X` may be lost when bits are cleared. -/
theorem listBits_clear_iff (mode k b : ModeT) (l : List Perm) :
    listBits (mode &&& ~~~k) l &&& b = listBits mode l &&& b ↔
      .X ∉ l ∨ .x ∈ l ∨ mode &&& 0o40111 = 0 ∨ mode &&& ~~~k &&& 0o40111 ≠ 0 ∨
        0o111 &&& b = 0 := by
  have hor : plainBits l ||| 0 = plainBits l := BitVec.or_zero
  rw [listBits_eq, listBits_eq]
  by_cases hX : Perm.X ∈ l
  · by_cases h : mode &&& 0o40111 = 0
    · have h' : mode &&& ~~~k &&& 0o40111 = 0 := by
        rw [BitVec.and_assoc, BitVec.and_comm (~~~k), ← BitVec.and_assoc, h]
        exact BitVec.zero_and
      rw [if_neg fun hc => hc.2 h', if_neg fun hc => hc.2 h]
      exact ⟨fun _ => Or.inr (Or.inr (Or.inl h)), fun _ => rfl⟩
    · by_cases h' : mode &&& ~~~k &&& 0o40111 = 0
      · rw [if_neg fun hc => hc.2 h', if_pos ⟨hX, h⟩, hor, plainBits_or_x_iff]
        simp only [hX, h, h', not_true_eq_false, false_or, ne_eq]
      · rw [if_pos ⟨hX, h'⟩, if_pos ⟨hX, h⟩]
        exact ⟨fun _ => Or.inr (Or.inr (Or.inr (Or.inl h'))), fun _ => rfl⟩
  · rw [if_neg fun hc => hX hc.1, if_neg fun hc => hX hc.1]
    exact ⟨fun _ => Or.inl hX, fun _ => rfl⟩

/-- **The code does what `chmod` says** exactly where the action takes nothing from what it
clears itself. -/
theorem codeStep_eq_iff (umask mode : ModeT) (step : List Who × Action) :
    codeStep umask mode step = specStep umask mode step ↔ Unharmed umask mode step := by
  obtain ⟨who, op, p⟩ := step
  rw [codeStep_eq, specStep]
  cases op with
  | plus => exact ⟨fun _ h => Op.noConfusion h, fun _ => rfl⟩
  | minus => exact ⟨fun _ h => Op.noConfusion h, fun _ => rfl⟩
  | equal =>
    have hor := @or_eq_or_iff mode _ _ _
      (limited_outside umask (mode &&& ~~~cleared who) who p) (limited_outside umask mode who p)
    refine hor.trans ?_
    cases p with
    | list l =>
      refine (listBits_clear_iff mode (cleared who) (limit umask who) l).trans ?_
      exact ⟨fun h _ => h, fun h => h rfl⟩
    | copy c =>
      show copied (mode &&& ~~~cleared who) c &&& _ = copied mode c &&& _ ↔ _
      by_cases hc : Covers who c
      · have hz : (0 : ModeT) &&& limit umask who = 0 := BitVec.zero_and
        rw [copied_clear_of_covers mode hc, hz]
        exact ⟨fun h _ => Or.inr h.symm, fun h => ((h rfl).resolve_left fun hn => hn hc).symm⟩
      · rw [copied_clear_of_not_covers mode hc]
        exact ⟨fun _ _ => Or.inl hc, fun _ => rfl⟩

/-- Taking bits away does not show outside of where they are. -/
theorem not_and_outside {b k : ModeT} (h : b &&& ~~~k = 0) : ~~~b &&& ~~~k = ~~~k := by
  rw [← and_eq_self_of_outside h]
  ext i hi
  simp only [BitVec.getElem_and, BitVec.getElem_not]
  cases b[i] <;> cases k[i] <;> rfl

theorem cleared_outside (who : List Who) : cleared who &&& ~~~0o7777 = 0 := by
  by_cases hnil : who = []
  · rw [cleared, if_pos hnil]
    decide
  · rw [cleared, if_neg hnil]
    clear hnil
    induction who with
    | nil => decide
    | cons w who ih =>
      have hw : w.mask &&& ~~~0o7777 = 0 := by
        cases w with
        | all => decide
        | one c => cases c <;> decide
      rw [whoBits_cons, BitVec.and_or_distrib_right, hw, ih, zero_or_mode]

/-- An action leaves what is no file mode bit. -/
theorem specStep_outside (umask mode : ModeT) (step : List Who × Action) :
    specStep umask mode step &&& ~~~0o7777 = mode &&& ~~~0o7777 := by
  obtain ⟨who, op, p⟩ := step
  have hbits : namedBits mode p &&& limit umask who &&& ~~~0o7777 = 0 := by
    rw [BitVec.and_comm (namedBits mode p), BitVec.and_assoc, namedBits_outside]
    exact BitVec.and_zero
  have hor : mode &&& ~~~0o7777 ||| 0 = mode &&& ~~~0o7777 := BitVec.or_zero
  cases op with
  | plus =>
    show (mode ||| (namedBits mode p &&& limit umask who)) &&& ~~~0o7777 = _
    rw [BitVec.and_or_distrib_right, hbits, hor]
  | minus =>
    show mode &&& ~~~(namedBits mode p &&& limit umask who) &&& ~~~0o7777 = _
    rw [BitVec.and_assoc, not_and_outside hbits]
  | equal =>
    show (mode &&& ~~~cleared who ||| (namedBits mode p &&& limit umask who)) &&& ~~~0o7777 = _
    rw [BitVec.and_or_distrib_right, hbits, BitVec.and_assoc,
      not_and_outside (cleared_outside who), hor]

end Rustybox.Mode
