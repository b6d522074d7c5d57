import Rustybox.Cron.Runs
import Mathlib.Algebra.Order.Ring.Int

/-!
# What a time field lists

Values, ranges that may wrap, and steps.  `ParseField` marks what such a list denotes; apart from
these it keeps to its array, and is silent about nothing it has marked, exactly where the first item
cannot be read or all items can and are within bounds.
-/

namespace Rustybox.Cron

open Rust

/-! ### Well-formed lists -/

/-- A value of a field: a number, or the name with this index. -/
inductive Value
  | num (n : ℕ)
  | name (i : ℕ)

inductive Range
  | star
  | single (v : Value)
  | pair (first last : Value)

structure Item where
  range : Range
  step : Option ℕ

/-- The text is a number in decimal digits. -/
def Digits (t : Str) (n : ℕ) : Prop := t ≠ [] ∧ (∀ c ∈ t, isDigit c = true) ∧ digitsValue t = n

/-- A name, in lower case. -/
def nameAt (k : Field) (i : ℕ) : Str := ((k.names.drop (3 * i)).take 3).map toLower

def Value.Text (k : Field) : Value → Str → Prop
  | num n, t => Digits t n
  | name i, t => 3 * i < k.names.length ∧ t.map toLower = nameAt k i

def Range.Text (k : Field) : Range → Str → Prop
  | star, t => t = [Rust.star]
  | single v, t => v.Text k t
  | pair v w, t => ∃ front back, t = front ++ dash :: back ∧ v.Text k front ∧ w.Text k back

def StepText : Option ℕ → Str → Prop
  | none, t => t = []
  | some s, t => ∃ digits, t = slash :: digits ∧ Digits digits s

def Item.Text (k : Field) (item : Item) (t : Str) : Prop :=
  ∃ front back, t = front ++ back ∧ item.range.Text k front ∧ StepText item.step back

/-- The text is these items with commas between them. -/
def Listed (k : Field) : List Item → Str → Prop
  | [], _ => False
  | [item], t => item.Text k t
  | item :: items, t =>
    ∃ front back, t = front ++ comma :: back ∧ item.Text k front ∧ Listed k items back

/-- The index that is marked for the value. -/
def Value.index (k : Field) : Value → ℤ
  | num n => n + k.off
  | name i => i

def Range.first (k : Field) : Range → ℤ
  | star => 0
  | single v => v.index k
  | pair v _ => v.index k

def Range.last (k : Field) : Range → ℤ
  | star => k.modvalue - 1
  | single v => v.index k
  | pair _ w => w.index k

def Item.Allowed (k : Field) (item : Item) : Prop :=
  (0 ≤ item.range.first k ∧ item.range.first k < k.modvalue) ∧
    (0 ≤ item.range.last k ∧ item.range.last k < k.modvalue) ∧
    ∀ s ∈ item.step, 0 < s ∧ s < 2 ^ 31

/-- The indices from the first on, round the end of the field, to the last; with a step, every so
manyth of them. -/
def Item.Denotes (k : Field) (item : Item) (i : ℤ) : Prop :=
  ∃ j : ℕ, (j : ℤ) ≤ (item.range.last k - item.range.first k) % k.modvalue ∧
    item.step.getD 1 ∣ j ∧ i = (item.range.first k + j) % k.modvalue

/-! ### The five fields -/

theorem regular_of_mem {k : Field} (hk : k ∈ fields) : Regular k := by
  simp only [fields, List.mem_cons, List.not_mem_nil, or_false] at hk
  rcases hk with rfl | rfl | rfl | rfl | rfl <;> exact ⟨by decide, by decide, by decide⟩

/-- The names of a field are letters, three of them each, and differ. -/
structure Named (k : Field) : Prop where
  length : k.names.length % 3 = 0
  letters : ∀ c ∈ k.names, 97 ≤ toLower c
  distinct : ∀ i < k.names.length / 3, ∀ j < i, nameAt k j ≠ nameAt k i

theorem named_of_mem {k : Field} (hk : k ∈ fields) : Named k := by
  simp only [fields, List.mem_cons, List.not_mem_nil, or_false] at hk
  rcases hk with rfl | rfl | rfl | rfl | rfl <;> exact ⟨by decide, by decide +kernel, by decide⟩

theorem off_of_mem {k : Field} (hk : k ∈ fields) : -1 ≤ k.off ∧ k.off ≤ 0 := by
  simp only [fields, List.mem_cons, List.not_mem_nil, or_false] at hk
  rcases hk with rfl | rfl | rfl | rfl | rfl <;> decide

/-! ### Tokens -/

theorem letter_of_toLower {c : UInt8} (h : 97 ≤ toLower c) : c ≠ Rust.star ∧ isDigit c = false := by
  revert c
  have hall : ∀ n : Fin 256, 97 ≤ toLower (UInt8.ofFin n) →
      UInt8.ofFin n ≠ Rust.star ∧ isDigit (UInt8.ofFin n) = false := by
    decide +kernel
  exact fun c hc => hall c.toFin hc

theorem exists_three {names : Str} (h : 2 < names.length) :
    ∃ a b c rest, names = a :: b :: c :: rest := by
  obtain ⟨a, names, rfl⟩ := List.exists_cons_of_length_pos (by omega : 0 < names.length)
  rw [List.length_cons] at h
  obtain ⟨b, names, rfl⟩ := List.exists_cons_of_length_pos (by omega : 0 < names.length)
  rw [List.length_cons] at h
  obtain ⟨c, names, rfl⟩ := List.exists_cons_of_length_pos (by omega : 0 < names.length)
  exact ⟨a, b, c, names, rfl⟩

theorem findName_eq {ptr : Str} (names : Str) (base i : ℕ) (hi : 3 * i + 2 < names.length)
    (heq : (ptr.take 3).map toLower = ((names.drop (3 * i)).take 3).map toLower)
    (hne : ∀ j < i, ((names.drop (3 * j)).take 3).map toLower ≠
      ((names.drop (3 * i)).take 3).map toLower) :
    findName ptr names base = some (base + 3 * i) := by
  induction i generalizing names base with
  | zero =>
    obtain ⟨a, b, c, names, rfl⟩ := exists_three hi
    rw [findName]
    exact if_pos heq
  | succ i ih =>
    obtain ⟨a, b, c, names, rfl⟩ := exists_three (by omega : 2 < names.length)
    have hdrop : ∀ j, (a :: b :: c :: names).drop (3 * (j + 1)) = names.drop (3 * j) :=
      fun j => rfl
    simp only [List.length_cons] at hi
    rw [hdrop] at heq hne
    have hfirst : ¬ (ptr.take 3).map toLower = [a, b, c].map toLower := by
      rw [heq]
      exact fun h => hne 0 (Nat.succ_pos i) h.symm
    rw [findName, if_neg hfirst, ih names (base + 3) (by omega) heq]
    · congr 1
      omega
    · intro j hj
      have hj' := hne (j + 1) (Nat.succ_lt_succ hj)
      rwa [hdrop] at hj'

/-- What can stand behind a value. -/
def Follows (rest : Str) : Prop := rest.head?.any isDigit = false

theorem token_num {k : Field} {n : ℕ} {t rest : Str} (ht : Digits t n) (hrest : Follows rest)
    (hlow : -1 ≤ k.off) (hhigh : k.off ≤ 0) (hn : n + k.off < 60) (n1 n2 : ℤ) :
    token k (t ++ rest) n1 n2 =
      if n1 < 0 then some (rest, n + k.off, n2) else some (rest, n1, n + k.off) := by
  obtain ⟨hne, hdigits, hvalue⟩ := ht
  obtain ⟨c, t, rfl⟩ := List.exists_cons_of_ne_nil hne
  have hc := hdigits c List.mem_cons_self
  have hstar : ¬ (c :: t ++ rest).head? = some Rust.star := by
    rintro heq
    have hstar : c = Rust.star := by simpa using heq
    rw [hstar] at hc
    exact absurd hc (by decide)
  have hdigit : (c :: t ++ rest).head?.any isDigit = true := hc
  have hclamp : clampLong (digitsValue (c :: t)) = n := by
    rw [clampLong, hvalue]
    omega
  rw [token, if_neg hstar, if_pos hdigit, strtol_digits hne hdigits hrest, hclamp]
  dsimp only
  rw [cInt_of_mem (by omega) (by omega)]

theorem token_name {k : Field} (hk : Named k) {i : ℕ} {t rest : Str} (hi : 3 * i < k.names.length)
    (ht : t.map toLower = nameAt k i) (n1 n2 : ℤ) :
    token k (t ++ rest) n1 n2 =
      if n1 < 0 then some (rest, (i : ℤ), n2) else some (rest, n1, (i : ℤ)) := by
  have hthird := hk.length
  have hlength : t.length = 3 := by
    have hlength := congrArg List.length ht
    rw [nameAt, List.length_map, List.length_map, List.length_take, List.length_drop] at hlength
    omega
  have htake : (t ++ rest).take 3 = t := by
    rw [← hlength, List.take_left']
    rfl
  have hdrop : (t ++ rest).drop 3 = rest := by
    rw [← hlength, List.drop_left']
    rfl
  have hname : findName (t ++ rest) k.names 0 = some (0 + 3 * i) := by
    refine findName_eq k.names 0 i (by omega) ?_ fun j hj => hk.distinct i (by omega) j hj
    rw [htake]
    exact ht
  obtain ⟨c, t, rfl⟩ := List.exists_cons_of_length_pos (by omega : 0 < t.length)
  have hletter : 97 ≤ toLower c := by
    have hmem : toLower c ∈ nameAt k i := by
      rw [← ht]
      exact List.mem_map_of_mem List.mem_cons_self
    obtain ⟨d, hd, heq⟩ := List.mem_map.mp hmem
    rw [← heq]
    exact hk.letters d (List.mem_of_mem_drop (List.mem_of_mem_take hd))
  obtain ⟨hstar, hdigit⟩ := letter_of_toLower hletter
  have hhead : ¬ (c :: t ++ rest).head? = some Rust.star := by simpa using hstar
  have hany : ¬ (c :: t ++ rest).head?.any isDigit = true := by simpa using hdigit
  rw [token, if_neg hhead, if_neg hany, hname, hdrop, Nat.zero_add]
  dsimp only
  rw [Nat.mul_div_cancel_left i (by decide)]

theorem token_value {k : Field} (hk : k ∈ fields) {v : Value} {t rest : Str} (ht : v.Text k t)
    (hrest : Follows rest) (hv : v.index k < k.modvalue) (n1 n2 : ℤ) :
    token k (t ++ rest) n1 n2 =
      if n1 < 0 then some (rest, v.index k, n2) else some (rest, n1, v.index k) := by
  cases v with
  | num n =>
    have hle := (regular_of_mem hk).le
    obtain ⟨hlow, hhigh⟩ := off_of_mem hk
    have hv' : n + k.off < k.modvalue := hv
    exact token_num ht hrest hlow hhigh (by omega) n1 n2
  | name i => exact token_name (named_of_mem hk) ht.1 ht.2 n1 n2

/-! ### Items -/

/-- What can stand behind an item. -/
def Ends (rest : Str) : Prop := rest = [] ∨ rest.head? = some comma

theorem Ends.follows {rest : Str} (h : Ends rest) : Follows rest := by
  rcases h with rfl | h
  · rfl
  · rw [Follows, h]
    decide

theorem follows_step {step : Option ℕ} {t rest : Str} (ht : StepText step t) (h : Ends rest) :
    Follows (t ++ rest) ∧ ¬ (t ++ rest).head? = some dash := by
  cases step with
  | none =>
    rw [show t = [] from ht, List.nil_append]
    refine ⟨h.follows, fun hdash => ?_⟩
    rcases h with rfl | h
    · cases hdash
    · rw [h] at hdash
      exact absurd hdash (by decide)
  | some s =>
    obtain ⟨digits, rfl, -⟩ := ht
    exact ⟨rfl, fun h => absurd (Option.some.inj h) (by decide)⟩

theorem readStep_eq {step : Option ℕ} {t rest : Str} (ht : StepText step t) (h : Ends rest)
    (hstep : ∀ s ∈ step, 0 < s ∧ s < 2 ^ 31) :
    readStep (t ++ rest) = (((step.getD 1 : ℕ) : ℤ), rest) := by
  cases step with
  | none =>
    rw [show t = [] from ht, List.nil_append, readStep, if_neg]
    · rfl
    · intro hslash
      rcases h with rfl | h
      · cases hslash
      · rw [h] at hslash
        exact absurd hslash (by decide)
  | some s =>
    obtain ⟨digits, rfl, hne, hdigits, hvalue⟩ := ht
    obtain ⟨-, hs⟩ := hstep s rfl
    have hclamp : clampLong (digitsValue digits) = s := by
      rw [clampLong, hvalue]
      omega
    rw [List.cons_append, readStep, List.head?_cons, if_pos rfl, List.tail_cons,
      strtol_digits hne hdigits h.follows, hclamp]
    dsimp only
    rw [cInt_of_mem (by omega) (by omega)]
    rfl

theorem reads_item {k : Field} (hk : k ∈ fields) {range : Range} {t rest : Str}
    (ht : range.Text k t) (hrest : Follows rest) (hdash : ¬ rest.head? = some dash)
    (hfirst : 0 ≤ range.first k ∧ range.first k < k.modvalue)
    (hlast : 0 ≤ range.last k ∧ range.last k < k.modvalue) :
    ∃ b, Reads k (t ++ rest) (-1) (-1) rest (range.first k) b ∧
      (if b < 0 then range.first k else b) = range.last k := by
  cases range with
  | star =>
    rw [show t = [Rust.star] from ht]
    refine ⟨k.modvalue - 1, Reads.last rfl fun h => hdash h.1, if_neg ?_⟩
    exact not_lt.mpr hlast.1
  | single v =>
    refine ⟨-1, Reads.last ?_ fun h => hdash h.1, if_pos (by decide)⟩
    exact token_value hk ht hrest hlast.2 (-1) (-1)
  | pair v w =>
    obtain ⟨front, back, rfl, hfront, hback⟩ := ht
    have hfollows : Follows (dash :: (back ++ rest)) := rfl
    have htoken := token_value hk hfront hfollows hfirst.2 (-1) (-1)
    have htoken' := token_value hk hback hrest hlast.2 (v.index k) (-1)
    rw [if_pos (by decide)] at htoken
    rw [if_neg (not_lt.mpr (show 0 ≤ v.index k from hfirst.1))] at htoken'
    refine ⟨w.index k, ?_, if_neg (not_lt.mpr hlast.1)⟩
    rw [List.append_assoc, List.cons_append]
    exact Reads.range htoken ⟨rfl, by decide⟩ (Reads.last htoken' fun h => hdash h.1)

/-! ### Lists -/

theorem parseLoop_item {k : Field} (hk : k ∈ fields) {item : Item} {t rest : Str}
    (ht : item.Text k t) (hrest : Ends rest) (hallowed : item.Allowed k) {fuel : ℕ}
    (hfuel : (t ++ rest).length < fuel) (ary : List ℤ) :
    ∃ fuel' ws, rest.length ≤ fuel' ∧ (∀ i, i ∈ ws ↔ item.Denotes k i) ∧
      parseLoop k fuel (t ++ rest) (-1) (-1) ary =
        if rest.head? = some comma then parseLoop k fuel' rest.tail (-1) (-1) (ary ++ ws)
        else some ⟨ary ++ ws, rest.isEmpty⟩ := by
  have hregular := regular_of_mem hk
  have hle := hregular.le
  obtain ⟨front, back, rfl, hrange, hstep⟩ := ht
  obtain ⟨hfirst, hlast, hsteps⟩ := hallowed
  obtain ⟨hfollows, hdash⟩ := follows_step hstep hrest
  rw [List.append_assoc] at hfuel ⊢
  obtain ⟨b, hreads, hb⟩ := reads_item hk hrange hfollows hdash hfirst hlast
  obtain ⟨fuel', hfuel', hloop⟩ := parseLoop_reads hreads hfuel ary
  have hread := readStep_eq hstep hrest hsteps
  have hpositive : 0 < item.step.getD 1 ∧ item.step.getD 1 < 2 ^ 31 := by
    cases hs : item.step with
    | none => decide
    | some s => exact hsteps s hs
  have hwithin : Within k (item.range.first k) b := ⟨hfirst.1, by rw [hb]; exact hlast.2⟩
  obtain ⟨hreached, -, -⟩ :=
    filled_within hregular ⟨by omega, by omega⟩ hwithin (back ++ rest)
  refine ⟨fuel', (filled k (back ++ rest) (item.range.first k) b).1, ?_, ?_, ?_⟩
  · rw [List.length_append] at hfuel'
    omega
  · intro i
    rw [filled, hb, hread]
    exact mem_fill_start (by omega) hfirst.1 hfirst.2 hlast.1 hlast.2 hpositive.1 hpositive.2 i
  · rw [hloop, finish_eq, hread, hreached, if_pos rfl]

/-- The turns of a well-formed list. -/
theorem parseLoop_listed {k : Field} (hk : k ∈ fields) (items : List Item) {t : Str}
    (ht : Listed k items t) (hallowed : ∀ item ∈ items, item.Allowed k) {fuel : ℕ}
    (hfuel : t.length < fuel) (ary : List ℤ) :
    ∃ ws, parseLoop k fuel t (-1) (-1) ary = some ⟨ary ++ ws, true⟩ ∧
      ∀ i, i ∈ ws ↔ ∃ item ∈ items, item.Denotes k i := by
  induction items generalizing t fuel ary with
  | nil => exact ht.elim
  | cons item items ih =>
    cases items with
    | nil =>
      have hends : Ends ([] : Str) := Or.inl rfl
      obtain ⟨fuel', ws, -, hws, hloop⟩ := parseLoop_item hk ht hends
        (hallowed item List.mem_cons_self) (by rwa [List.append_nil]) ary
      rw [List.append_nil] at hloop
      refine ⟨ws, hloop, fun i => ?_⟩
      rw [hws]
      simp
    | cons item' items =>
      obtain ⟨front, back, rfl, hfront, hback⟩ := ht
      obtain ⟨fuel', ws, hfuel', hws, hloop⟩ := parseLoop_item hk hfront (Or.inr rfl)
        (hallowed item List.mem_cons_self) hfuel ary
      have hbackFuel : back.length < fuel' := hfuel'
      obtain ⟨ws', hloop', hws'⟩ := ih hback (fun i hi => hallowed i (List.mem_cons_of_mem _ hi))
        hbackFuel (ary ++ ws)
      rw [List.head?_cons, if_pos rfl, List.tail_cons, hloop', List.append_assoc] at hloop
      refine ⟨ws ++ ws', hloop, fun i => ?_⟩
      rw [List.mem_append, hws, hws']
      exact (List.exists_mem_cons_iff (Item.Denotes k · i) item (item' :: items)).symm

/-- What is claimed of a run: it keeps to the array, marks what a well-formed list denotes, and has
marked nothing where it reports an error. -/
structure Right (k : Field) (s : Str) (o : Outcome) : Prop where
  inside : ∀ i ∈ o.ary, 0 ≤ i ∧ i < k.modvalue
  denoted : ∀ items, Listed k items s → (∀ item ∈ items, item.Allowed k) →
    o.accepted = true ∧ ∀ i, i ∈ o.ary ↔ ∃ item ∈ items, item.Denotes k i
  zero : o.accepted = false → ∀ i : ℤ, 0 ≤ i → i < k.modvalue → i ∉ o.ary

/-- The run ends; a well-formed list is marked; and the rest is right where the first item cannot be
read, or all items can and start and end within bounds. -/
theorem parseField_right_iff {k : Field} (hk : k ∈ fields) (s : Str) :
    ∃ o, parseField k s = some o ∧
      (Right k s o ↔ (∀ rest n1 n2, ¬ Reads k s (-1) (-1) rest n1 n2) ∨ Sound k s) := by
  obtain ⟨ws, accepted, hloop, hnone, hsome, hsound⟩ :=
    parseLoop_run (regular_of_mem hk) s (Nat.lt_succ_self _) []
  refine ⟨_, hloop, ?_⟩
  have hlisted : ∀ items, Listed k items s → (∀ item ∈ items, item.Allowed k) →
      accepted = true ∧ ∀ i, i ∈ ws ↔ ∃ item ∈ items, item.Denotes k i := by
    intro items hitems hallowed
    obtain ⟨ws', hloop', hws'⟩ := parseLoop_listed hk items hitems hallowed (Nat.lt_succ_self _) []
    rw [hloop] at hloop'
    obtain ⟨rfl, rfl⟩ : ws = ws' ∧ accepted = true := by simpa using hloop'
    exact ⟨rfl, hws'⟩
  constructor
  · rintro ⟨hinside, -, hzero⟩
    by_cases hreads : ∃ rest n1 n2, Reads k s (-1) (-1) rest n1 n2
    · refine Or.inr (hsound.mpr ⟨?_, hinside⟩)
      obtain ⟨rest, n1, n2, hreads⟩ := hreads
      obtain ⟨i, hi⟩ := List.exists_mem_of_ne_nil ws (hsome rest n1 n2 hreads)
      have hbounds := hinside i hi
      by_contra hnot
      exact hzero (Bool.eq_false_iff.mpr hnot) i hbounds.1 hbounds.2 hi
    · exact Or.inl fun rest n1 n2 h => hreads ⟨rest, n1, n2, h⟩
  · rintro (hreads | h)
    · obtain ⟨rfl, rfl⟩ := hnone hreads
      exact ⟨fun i hi => absurd hi List.not_mem_nil, hlisted, fun _ _ _ _ => List.not_mem_nil⟩
    · obtain ⟨rfl, hinside⟩ := hsound.mp h
      exact ⟨hinside, hlisted, fun hfalse => Bool.noConfusion hfalse⟩

theorem parseField_right_iff_months :
    ∃ o, parseField .months (bytes "jan-mar/2,11") = some o ∧
      (Right .months (bytes "jan-mar/2,11") o ↔
        (∀ rest n1 n2, ¬ Reads .months (bytes "jan-mar/2,11") (-1) (-1) rest n1 n2) ∨
          Sound .months (bytes "jan-mar/2,11")) :=
  parseField_right_iff (by simp [fields]) _

/-- Month 0 is written to outside of the array, and minute 1 stays marked where the next item is an
error. -/
theorem parseField_not_right :
    (parseField .months (bytes "0") = some ⟨[-1], true⟩ ∧
      ¬ Right .months (bytes "0") ⟨[-1], true⟩) ∧
    (parseField .minutes (bytes "1,x") = some ⟨[1], false⟩ ∧
      ¬ Right .minutes (bytes "1,x") ⟨[1], false⟩) := by
  refine ⟨⟨by decide, fun h => ?_⟩, by decide, fun h => ?_⟩
  · exact absurd (h.inside (-1) List.mem_cons_self) (by decide)
  · exact h.zero rfl 1 (by decide) (by decide) List.mem_cons_self

end Rustybox.Cron
