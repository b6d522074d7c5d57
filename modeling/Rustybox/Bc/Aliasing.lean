import Mathlib.Logic.Function.Basic
import Rustybox.Bc.Sums

/-!
# Operands and results in memory

The operations of bc get pointers to their operands and to their result, which may be the same.
`zbc_num_binary` then puts the operand aside, into a number of its own, and gives the result fresh
digits.  `zbc_num_s` takes the signs away from its operands for a comparison, and puts them back.

A memory has a number at every pointer; at `none` is the number `num2` of `zbc_num_binary`.

* `addAt_eq`, `subAt_eq`: what is in memory is what `add` and `sub` say.
* `addSub_exact`: so sums and differences are exact, wherever the result goes.
-/

namespace Rustybox.Bc

open Positional

/-- The numbers in memory. -/
abbrev Store (ι : Type) := Option ι → BcNum

section

variable {ι : Type} [DecidableEq ι]

/-- A number at a pointer. -/
def put (p : Option ι) (n : BcNum) (s : Store ι) : Store ι := Function.update s p n

def setNeg (p : Option ι) (neg : Bool) (s : Store ι) : Store ι := put p { s p with neg := neg } s

/-- `zbc_num_a`. -/
def numAAt (sub : Bool) (a b c : Option ι) (s : Store ι) : Store ι :=
  put c (numA (s a) (s b) sub) s

/-- `zbc_num_s`; `bc_num_cmp` returns at once for the same pointer. -/
def numSAt (sub : Bool) (a b c : Option ι) (s : Store ι) : Store ι :=
  if (s a).len = 0 then
    put c (if sub ∧ (s b).len ≠ 0 then { s b with neg := !(s b).neg } else s b) s
  else if (s b).len = 0 then put c (s a) s
  else
    let aneg := (s a).neg
    let bneg := (s b).neg
    let s := setNeg a false (setNeg b false s)
    let cmp := if a = b then 0 else cmp (s a) (s b)
    let s := setNeg b bneg (setNeg a aneg s)
    if cmp = 0 then put c (setToZero (max (s a).rdx (s b).rdx)) s
    else
      let neg := if 0 < cmp then (s a).neg else if sub then !(s b).neg else (s b).neg
      let minuend := if 0 < cmp then s a else s b
      let subtrahend := if 0 < cmp then s b else s a
      let n :=
        if minuend.rdx < subtrahend.rdx then extend minuend (subtrahend.rdx - minuend.rdx)
        else minuend
      let start := n.rdx - subtrahend.rdx
      put c (clean { n with
        num := n.num.take start ++ subArrays (n.num.drop start) subtrahend.num, neg := neg }) s

/-- `zbc_num_binary`. -/
def binary (op : Option ι → Option ι → Option ι → Store ι → Store ι) (a b c : ι) (s : Store ι) :
    Store ι :=
  let ptrA := if c = a then none else some a
  let ptrB := if c = b then none else some b
  let init := c = a ∨ c = b
  let s := if init then put none (s (some c)) s else s
  let s := if init then put (some c) zero s else s
  op ptrA ptrB (some c) s

/-- `zbc_num_add`. -/
def addAt (a b c : ι) (s : Store ι) : Store ι :=
  binary (if (s (some a)).neg = (s (some b)).neg then numAAt false else numSAt false) a b c s

/-- `zbc_num_sub`. -/
def subAt (a b c : ι) (s : Store ι) : Store ι :=
  binary (if (s (some a)).neg = (s (some b)).neg then numSAt true else numAAt true) a b c s

theorem put_self (p : Option ι) (n : BcNum) (s : Store ι) : put p n s p = n := by
  rw [put, Function.update_self]

theorem put_of_ne {p q : Option ι} (h : q ≠ p) (n : BcNum) (s : Store ι) : put p n s q = s q := by
  rw [put, Function.update_of_ne h]

/-! ### The signs come back -/

theorem setNeg_self (p : Option ι) (neg : Bool) (s : Store ι) :
    setNeg p neg s p = { s p with neg := neg } := put_self _ _ _

theorem setNeg_of_ne {p q : Option ι} (h : q ≠ p) (neg : Bool) (s : Store ι) :
    setNeg p neg s q = s q := put_of_ne h _ _

theorem unsigned_left (a b : Option ι) (s : Store ι) :
    setNeg a false (setNeg b false s) a = { s a with neg := false } := by
  rw [setNeg_self]
  by_cases h : a = b
  · rw [h, setNeg_self]
  · rw [setNeg_of_ne h]

theorem unsigned_right (a b : Option ι) (s : Store ι) :
    setNeg a false (setNeg b false s) b = { s b with neg := false } := by
  by_cases h : b = a
  · rw [h, setNeg_self, setNeg_self]
  · rw [setNeg_of_ne h, setNeg_self]

theorem setNeg_restored (a b : Option ι) (s : Store ι) :
    setNeg b (s b).neg (setNeg a (s a).neg (setNeg a false (setNeg b false s))) = s := by
  funext p
  by_cases hb : p = b
  · subst hb
    rw [setNeg_self]
    by_cases ha : p = a
    · rw [ha, setNeg_self, unsigned_left]
    · rw [setNeg_of_ne ha, unsigned_right]
  · rw [setNeg_of_ne hb]
    by_cases ha : p = a
    · rw [ha, setNeg_self, unsigned_left]
    · rw [setNeg_of_ne ha, setNeg_of_ne ha, setNeg_of_ne hb]

theorem numAAt_eq (sub : Bool) (a b c : Option ι) (s : Store ι) :
    numAAt sub a b c s = put c (numA (s a) (s b) sub) s := rfl

/-- **`zbc_num_s` in memory** subtracts, and leaves the signs of its operands as they were. -/
theorem numSAt_eq (sub : Bool) (a b c : Option ι) (s : Store ι) :
    numSAt sub a b c s = put c (numS (s a) (s b) sub) s := by
  have hcmp : (if a = b then 0 else
      cmp (setNeg a false (setNeg b false s) a) (setNeg a false (setNeg b false s) b)) =
      cmp { s a with neg := false } { s b with neg := false } := by
    rw [unsigned_left, unsigned_right]
    split
    · next h =>
      rw [h]
      exact (cmp_self _ rfl).symm
    · rfl
  rw [numSAt, numS]
  dsimp only
  rw [hcmp, setNeg_restored]
  by_cases ha : (s a).len = 0
  · rw [if_pos ha, if_pos ha]
  · rw [if_neg ha, if_neg ha]
    by_cases hb : (s b).len = 0
    · rw [if_pos hb, if_pos hb]
    · rw [if_neg hb, if_neg hb]
      split
      · rfl
      · rfl

/-- The numbers once an operand that is the result has been put aside. -/
def aside (c : ι) (init : Prop) [Decidable init] (s : Store ι) : Store ι :=
  if init then put (some c) zero (if init then put none (s (some c)) s else s)
  else if init then put none (s (some c)) s else s

theorem aside_of_ne {c x : ι} (h : x ≠ c) (init : Prop) [Decidable init] (s : Store ι) :
    aside c init s (some x) = s (some x) := by
  have hx : some x ≠ some c := fun he => h (Option.some.inj he)
  have hnone : some x ≠ none := Option.some_ne_none x
  rw [aside]
  split
  · rw [put_of_ne hx, put_of_ne hnone]
  · rfl

theorem aside_operand {c x : ι} {init : Prop} [Decidable init] (hinit : c = x → init)
    (s : Store ι) : aside c init s (if c = x then none else some x) = s (some x) := by
  by_cases h : c = x
  · rw [if_pos h, aside, if_pos (hinit h), if_pos (hinit h), put_of_ne (Option.some_ne_none c).symm,
      put_self, h]
  · rw [if_neg h, aside_of_ne (Ne.symm h)]

/-- **`zbc_num_binary`** finds its operands, and leaves every other number alone. -/
theorem binary_eq {op : Option ι → Option ι → Option ι → Store ι → Store ι}
    {f : BcNum → BcNum → BcNum} (hop : ∀ a b c s, op a b c s = put c (f (s a) (s b)) s)
    (a b c : ι) (s : Store ι) :
    binary op a b c s (some c) = f (s (some a)) (s (some b)) ∧
      ∀ x, x ≠ c → binary op a b c s (some x) = s (some x) := by
  have hbinary : binary op a b c s = op (if c = a then none else some a)
      (if c = b then none else some b) (some c) (aside c (c = a ∨ c = b) s) := rfl
  rw [hbinary, hop, put_self, aside_operand .inl, aside_operand .inr]
  refine ⟨rfl, fun x hx => ?_⟩
  rw [put_of_ne fun he => hx (Option.some.inj he), aside_of_ne hx]

/-- **Addition in memory.** -/
theorem addAt_eq (a b c : ι) (s : Store ι) :
    addAt a b c s (some c) = add (s (some a)) (s (some b)) ∧
      ∀ x, x ≠ c → addAt a b c s (some x) = s (some x) := by
  rw [addAt, add]
  split
  · exact binary_eq (f := fun x y => numA x y false) (numAAt_eq false) a b c s
  · exact binary_eq (f := fun x y => numS x y false) (numSAt_eq false) a b c s

/-- **Subtraction in memory.** -/
theorem subAt_eq (a b c : ι) (s : Store ι) :
    subAt a b c s (some c) = sub (s (some a)) (s (some b)) ∧
      ∀ x, x ≠ c → subAt a b c s (some x) = s (some x) := by
  rw [subAt, sub]
  split
  · exact binary_eq (f := fun x y => numS x y true) (numSAt_eq true) a b c s
  · exact binary_eq (f := fun x y => numA x y true) (numAAt_eq true) a b c s

/-- **Sums and differences are exact**, wherever the result goes: it is normal, its digits are from
0 to 9, and no other number changes. -/
theorem addSub_exact (a b c : ι) (s : Store ι) (ha : Normal (s (some a)))
    (hb : Normal (s (some b))) :
    (Normal (addAt a b c s (some c)) ∧ (∀ d ∈ (addAt a b c s (some c)).num, 0 ≤ d ∧ d ≤ 9) ∧
      (addAt a b c s (some c)).value = (s (some a)).value + (s (some b)).value ∧
      ∀ x, x ≠ c → addAt a b c s (some x) = s (some x)) ∧
    (Normal (subAt a b c s (some c)) ∧ (∀ d ∈ (subAt a b c s (some c)).num, 0 ≤ d ∧ d ≤ 9) ∧
      (subAt a b c s (some c)).value = (s (some a)).value - (s (some b)).value ∧
      ∀ x, x ≠ c → subAt a b c s (some x) = s (some x)) := by
  have hdigits : ∀ n, Normal n → ∀ d ∈ n.num, 0 ≤ d ∧ d ≤ 9 := fun n hn d hd =>
    ⟨(hn.digits d hd).1, Int.le_of_lt_add_one (hn.digits d hd).2⟩
  obtain ⟨hadd, hframe⟩ := addAt_eq a b c s
  obtain ⟨hsub, hframe'⟩ := subAt_eq a b c s
  have hsum := addSub_spec ha hb false
  have hdiff := addSub_spec ha hb true
  rw [← add_eq, ← hadd] at hsum
  rw [← sub_eq, ← hsub] at hdiff
  refine ⟨⟨hsum.1, hdigits _ hsum.1, hsum.2, hframe⟩, hdiff.1, hdigits _ hdiff.1, ?_, hframe'⟩
  rw [sub_eq_add_neg]
  exact hdiff.2

/-- `x = x + x` for `x` one and a half. -/
theorem addSub_exact_double :
    (addAt () () () (fun _ => { num := [5, 1], rdx := 1 }) (some ())).value =
      BcNum.value { num := [5, 1], rdx := 1 } + BcNum.value { num := [5, 1], rdx := 1 } :=
  (addSub_exact () () () (fun _ => { num := [5, 1], rdx := 1 })
    ⟨by decide, by decide⟩ ⟨by decide, by decide⟩).1.2.2.1

end

end Rustybox.Bc
