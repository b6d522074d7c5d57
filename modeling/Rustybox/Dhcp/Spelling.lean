import Mathlib.Algebra.Ring.Nat
import Mathlib.Data.List.Infix
import Rustybox.Dhcp.Encoding

/-!
# What a list of compressed names spells

A name is a list of labels.  `Spelled` says that the bytes from a place on are a name, and how many
pointers lead through it.  Three readers of a list of names are compared with that: `matchDname`,
which compares a name with what is spelled at a place, `findOffset`, which looks through all the
places where a label starts, and the loop of `dname_dec`.
-/

namespace Rustybox.Dhcp

open Rustybox.Rust

/-- A label has at least one character, and its length fits the six bits that are there for it. -/
def Proper (l : Str) : Prop := 0 < l.length ∧ l.length ≤ 63

instance (l : Str) : Decidable (Proper l) :=
  inferInstanceAs (Decidable (0 < l.length ∧ l.length ≤ 63))

/-- A label as it is written: its length, and its characters. -/
def wireLabel (l : Str) : List UInt8 := UInt8.ofNat l.length :: l

/-- A name as it is written without compression. -/
def wire (ls : List Str) : List UInt8 := ls.flatMap wireLabel ++ [0]

/-- A pointer to a place as it is written. -/
def pointer (off : ℕ) : List UInt8 := [UInt8.ofNat (0xc0 ||| off >>> 8), UInt8.ofNat off]

theorem wire_cons (l : Str) (ls : List Str) : wire (l :: ls) = wireLabel l ++ wire ls := by
  rw [wire, wire, List.flatMap_cons, List.append_assoc]

theorem wireLabel_length (l : Str) : (wireLabel l).length = l.length + 1 := rfl

/-! ### The bits of a length and of a pointer -/

theorem length_bits : ∀ n < 64, UInt8.ofNat n &&& 0xc0 ≠ 0xc0 ∧ (UInt8.ofNat n).toNat = n := by
  decide

theorem pointer_bits : ∀ n < 64, UInt8.ofNat (0xc0 ||| n) &&& 0xc0 = 0xc0 ∧
    (UInt8.ofNat (0xc0 ||| n) &&& 0x3f).toNat = n := by
  decide

theorem Proper.toNat {l : Str} (hl : Proper l) : (UInt8.ofNat l.length).toNat = l.length :=
  (length_bits _ (Nat.lt_succ_of_le hl.2)).2

theorem Proper.unmarked {l : Str} (hl : Proper l) : UInt8.ofNat l.length &&& 0xc0 ≠ 0xc0 :=
  (length_bits _ (Nat.lt_succ_of_le hl.2)).1

theorem Proper.ne_zero {l : Str} (hl : Proper l) : UInt8.ofNat l.length ≠ 0 := by
  intro hzero
  have hpos := hl.1
  rw [← hl.toNat, hzero] at hpos
  exact absurd hpos (by decide)

theorem pointee_pointer {off : ℕ} (hoff : off < 2 ^ 14) :
    UInt8.ofNat (0xc0 ||| off >>> 8) &&& 0xc0 = 0xc0 ∧
      pointee (UInt8.ofNat (0xc0 ||| off >>> 8)) (UInt8.ofNat off) = off := by
  have hhigh : off >>> 8 < 64 := by
    rw [Nat.shiftRight_eq_div_pow]
    omega
  obtain ⟨hmark, hbits⟩ := pointer_bits _ hhigh
  refine ⟨hmark, ?_⟩
  have hlow : (UInt8.ofNat off).toNat < 2 ^ 8 := (UInt8.ofNat off).toNat_lt
  rw [pointee, hbits, ← Nat.shiftLeft_add_eq_or_of_lt hlow, Nat.shiftLeft_eq,
    Nat.shiftRight_eq_div_pow, UInt8.toNat_ofNat']
  omega

/-! ### What is spelled at a place -/

/-- From a place on there is a name, and so many pointers lead through it.  A pointer leads to a
label or the end of a name, and not to another pointer. -/
inductive Spelled (cstr : List UInt8) : ℕ → List Str → ℕ → Prop
  | nul {o : ℕ} (hc : cstr[o]? = some 0) : Spelled cstr o [] 0
  | label {o : ℕ} {l : Str} {ls : List Str} {n : ℕ} (hl : Proper l)
      (hat : wireLabel l <+: cstr.drop o) (hrest : Spelled cstr (o + (l.length + 1)) ls n) :
      Spelled cstr o (l :: ls) n
  | pointer {o : ℕ} {c c' : UInt8} {ls : List Str} {n : ℕ} (hc : cstr[o]? = some c)
      (hmark : c &&& 0xc0 = 0xc0) (hc' : cstr[o + 1]? = some c')
      (hjump : jumpTo cstr (pointee c c') = some (pointee c c'))
      (hrest : Spelled cstr (pointee c c') ls n) : Spelled cstr o ls (n + 1)

theorem getElem?_of_isPrefix {bs cstr : List UInt8} {o : ℕ} {b : UInt8}
    (h : b :: bs <+: cstr.drop o) : cstr[o]? = some b := by
  obtain ⟨rest, hrest⟩ := h
  have hhead := @List.getElem?_drop _ cstr o 0
  rw [← hrest] at hhead
  exact hhead.symm

theorem label_length {cstr : List UInt8} {l : Str} {o : ℕ} (h : wireLabel l <+: cstr.drop o) :
    o + (l.length + 1) ≤ cstr.length := by
  have hle := h.length_le
  rw [wireLabel_length, List.length_drop] at hle
  omega

theorem isPrefix_append_drop {bs cstr rest : List UInt8} {o : ℕ} (h : bs <+: cstr.drop o) :
    bs <+: (cstr ++ rest).drop o := by
  rw [List.drop_append]
  exact h.trans (List.prefix_append _ _)

theorem getElem?_append_of_some {cstr rest : List UInt8} {o : ℕ} {b : UInt8}
    (h : cstr[o]? = some b) : (cstr ++ rest)[o]? = some b := by
  rw [List.getElem?_append_left (lt_of_getElem? h), h]

theorem jumpTo_append {cstr rest : List UInt8} {o t : ℕ} (h : jumpTo cstr o = some t) :
    jumpTo (cstr ++ rest) o = some t := by
  rw [jumpTo] at h ⊢
  cases hc : cstr[o]? with
  | none =>
    rw [hc] at h
    cases h
  | some b =>
    rw [hc] at h
    rw [getElem?_append_of_some hc]
    dsimp only at h ⊢
    split at h
    · rename_i hmark
      rw [if_pos hmark]
      cases hc' : cstr[o + 1]? with
      | none =>
        rw [hc'] at h
        cases h
      | some b' =>
        rw [hc'] at h
        rw [getElem?_append_of_some hc']
        exact h
    · rename_i hmark
      rw [if_neg hmark]
      exact h

theorem Spelled.append {cstr : List UInt8} {o : ℕ} {ls : List Str} {n : ℕ}
    (h : Spelled cstr o ls n) (rest : List UInt8) : Spelled (cstr ++ rest) o ls n := by
  induction h with
  | nul hc => exact .nul (getElem?_append_of_some hc)
  | label hl hat _ ih => exact .label hl (isPrefix_append_drop hat) ih
  | pointer hc hmark hc' hjump _ ih =>
    exact .pointer (getElem?_append_of_some hc) hmark (getElem?_append_of_some hc')
      (jumpTo_append hjump) ih

/-! ### Comparing a name with what is spelled -/

theorem memcmp_append (as bs as' bs' : List UInt8) (h : as.length = bs.length) :
    memcmp as.length (as ++ as') (bs ++ bs') = some (decide (as = bs)) := by
  induction as generalizing bs with
  | nil =>
    rw [List.length_eq_zero_iff.mp h.symm]
    rfl
  | cons a as ih =>
    cases bs with
    | nil => cases h
    | cons b bs =>
      rw [List.length_cons, List.cons_append, List.cons_append, memcmp]
      by_cases hab : a = b
      · rw [if_pos hab, ih bs (Nat.succ.inj h), hab]
        simp only [List.cons.injEq, true_and]
      · rw [if_neg hab]
        simp only [List.cons.injEq, hab, false_and, decide_false]

theorem memcmp_wire {l : Str} (hl : Proper l) {ds : List Str} (hds : ∀ d ∈ ds, Proper d)
    (bs : List UInt8) :
    memcmp (l.length + 1) (wireLabel l ++ bs) (wire ds) = some (decide (ds.head? = some l)) := by
  cases ds with
  | nil =>
    rw [wireLabel, wire, List.flatMap_nil, List.nil_append, List.cons_append, memcmp,
      if_neg hl.ne_zero]
    rfl
  | cons d ds =>
    have hd := hds d List.mem_cons_self
    rw [wire_cons, List.head?_cons]
    by_cases hlen : l.length = d.length
    · have hlen' : (wireLabel l).length = (wireLabel d).length := congrArg (· + 1) hlen
      rw [← wireLabel_length, memcmp_append _ _ _ _ hlen']
      simp only [wireLabel, hlen, List.cons.injEq, true_and, Option.some.injEq, eq_comm]
    · have hne : UInt8.ofNat l.length ≠ UInt8.ofNat d.length := by
        intro heq
        exact hlen (by rw [← hl.toNat, heq, hd.toNat])
      have hdl : d ≠ l := fun heq => hlen (congrArg List.length heq.symm)
      rw [wireLabel, wireLabel, List.cons_append, List.cons_append, memcmp, if_neg hne]
      simp only [Option.some.injEq, hdl, decide_false]

theorem matchDname_step {cstr : List UInt8} {c : ℕ} {d : List UInt8} {b : UInt8} {r : Bool}
    (hb : cstr[c]? = some b) (hcmp : memcmp (b.toNat + 1) (cstr.drop c) d = some r) :
    matchDname cstr c d =
      if r = false then some false
      else if b = 0 then some true
      else (jumpTo cstr (c + (b.toNat + 1))).bind fun c => matchDname cstr c (d.drop (b.toNat + 1))
    := by
  rw [matchDname]
  split
  · rename_i hb'
    rw [hb] at hb'
    cases hb'
  · rename_i b' hb'
    rw [hb] at hb'
    cases hb'
    split
    · rename_i hcmp'
      rw [hcmp] at hcmp'
      cases hcmp'
    · rename_i hcmp'
      rw [hcmp] at hcmp'
      cases hcmp'
      rfl
    · rename_i hcmp'
      rw [hcmp] at hcmp'
      cases hcmp'
      rw [if_neg (Bool.false_ne_true.symm)]
      cases jumpTo cstr (c + (b.toNat + 1)) <;> rfl

theorem jumpTo_self {cstr : List UInt8} {c : ℕ} {b : UInt8} (hb : cstr[c]? = some b)
    (hmark : b &&& 0xc0 ≠ 0xc0) : jumpTo cstr c = some c := by
  rw [jumpTo, hb]
  exact if_neg hmark

/-- **Comparing** a name with what is spelled at a place finds out whether they are the same. -/
theorem matchDname_spelled {cstr : List UInt8} {o : ℕ} {ls : List Str} {n : ℕ}
    (h : Spelled cstr o ls n) :
    ∃ c, jumpTo cstr o = some c ∧ ∀ ds : List Str, (∀ d ∈ ds, Proper d) →
      matchDname cstr c (wire ds) = some (decide (ds = ls)) := by
  induction h with
  | @nul o hc =>
    refine ⟨o, jumpTo_self hc (by decide), fun ds hds => ?_⟩
    have hdrop : cstr.drop o = 0 :: cstr.drop (o + 1) := by
      rw [List.drop_eq_getElem_cons (lt_of_getElem? hc)]
      rw [List.getElem?_eq_getElem (lt_of_getElem? hc)] at hc
      rw [Option.some.inj hc]
    cases ds with
    | nil =>
      have hcmp : memcmp ((0 : UInt8).toNat + 1) (cstr.drop o) (wire []) = some true := by
        rw [hdrop]
        rfl
      rw [matchDname_step hc hcmp, if_neg (by decide), if_pos rfl]
      rfl
    | cons d ds =>
      have hcmp : memcmp ((0 : UInt8).toNat + 1) (cstr.drop o) (wire (d :: ds)) = some false := by
        rw [hdrop, wire_cons, wireLabel]
        exact if_neg (hds d List.mem_cons_self).ne_zero.symm
      rw [matchDname_step hc hcmp, if_pos rfl]
      rfl
  | @label o l ls n hl hat _ ih =>
    have hc := getElem?_of_isPrefix hat
    refine ⟨o, jumpTo_self hc hl.unmarked, fun ds hds => ?_⟩
    obtain ⟨rest, hrest⟩ := hat
    obtain ⟨c, hjump, hmatch⟩ := ih
    have hcmp := memcmp_wire hl hds rest
    rw [hrest, ← hl.toNat] at hcmp
    rw [matchDname_step hc hcmp]
    cases ds with
    | nil => rfl
    | cons d ds =>
      by_cases hd : d = l
      · subst hd
        rw [if_neg (by simp only [List.head?_cons, decide_true, Bool.true_eq_false, not_false_iff]),
          if_neg hl.ne_zero, hl.toNat, hjump, Option.bind_some, wire_cons,
          List.drop_append_of_le_length (Nat.le_of_eq (wireLabel_length d).symm),
          List.drop_of_length_le (Nat.le_of_eq (wireLabel_length d)), List.nil_append,
          hmatch ds fun x hx => hds x (List.mem_cons_of_mem d hx)]
        simp only [List.cons.injEq, true_and]
      · rw [if_pos (by simp only [List.head?_cons, Option.some.injEq, hd, decide_false])]
        simp only [List.cons.injEq, hd, false_and, decide_false]
  | @pointer o c c' ls n hc hmark hc' hjump _ ih =>
    obtain ⟨t, ht, hmatch⟩ := ih
    rw [hjump] at ht
    cases ht
    refine ⟨_, ?_, hmatch⟩
    rw [jumpTo, hc]
    dsimp only
    rw [if_pos hmark, hc']

/-! ### Looking for a name -/

/-- A place where a label starts, what is spelled from there on, and how many pointers lead
through it. -/
structure Spot where
  off : ℕ
  labels : List Str
  hops : ℕ

/-- The places that `find_offset` looks at from a place on. -/
inductive Spotted (cstr : List UInt8) : ℕ → List Spot → Prop
  | done : Spotted cstr cstr.length []
  | nul {o : ℕ} {spots : List Spot} (hc : cstr[o]? = some 0) (hrest : Spotted cstr (o + 1) spots) :
      Spotted cstr o spots
  | pointer {o : ℕ} {c : UInt8} {spots : List Spot} (hc : cstr[o]? = some c)
      (hmark : c &&& 0xc0 = 0xc0) (hrest : Spotted cstr (o + 2) spots) : Spotted cstr o spots
  | label {o : ℕ} {l : Str} {ls : List Str} {n : ℕ} {spots : List Spot} (hl : Proper l)
      (hat : wireLabel l <+: cstr.drop o) (hspelled : Spelled cstr o (l :: ls) n)
      (hrest : Spotted cstr (o + (l.length + 1)) spots) : Spotted cstr o (⟨o, l :: ls, n⟩ :: spots)

/-- The first of the places where a name is spelled. -/
def findSpot (spots : List Spot) (ds : List Str) : Option Spot :=
  spots.find? fun spot => spot.labels = ds

theorem findSpot_some {spots : List Spot} {ds : List Str} {spot : Spot}
    (h : findSpot spots ds = some spot) : spot ∈ spots ∧ spot.labels = ds := by
  have hlabels := List.find?_some h
  exact ⟨List.mem_of_find?_eq_some h, of_decide_eq_true hlabels⟩

theorem Spotted.append {cstr : List UInt8} {o : ℕ} {spots : List Spot} (h : Spotted cstr o spots)
    {rest : List UInt8} {spots' : List Spot} (h' : Spotted (cstr ++ rest) cstr.length spots') :
    Spotted (cstr ++ rest) o (spots ++ spots') := by
  induction h with
  | done => exact h'
  | nul hc _ ih => exact .nul (getElem?_append_of_some hc) ih
  | pointer hc hmark _ ih => exact .pointer (getElem?_append_of_some hc) hmark ih
  | label hl hat hspelled _ ih =>
    exact .label hl (isPrefix_append_drop hat) (hspelled.append rest) ih

/-- A pointer can lead to each of the places. -/
theorem Spotted.spot {cstr : List UInt8} {o : ℕ} {spots : List Spot} (h : Spotted cstr o spots) :
    ∀ spot ∈ spots, spot.off < cstr.length ∧ jumpTo cstr spot.off = some spot.off ∧
      Spelled cstr spot.off spot.labels spot.hops := by
  induction h with
  | done => exact fun spot hspot => absurd hspot List.not_mem_nil
  | nul _ _ ih => exact ih
  | pointer _ _ _ ih => exact ih
  | label hl hat hspelled _ ih =>
    intro spot hspot
    rcases List.mem_cons.mp hspot with rfl | hmem
    · have hc := getElem?_of_isPrefix hat
      exact ⟨lt_of_getElem? hc, jumpTo_self hc hl.unmarked, hspelled⟩
    · exact ih spot hmem

/-- **Looking for a name** finds the first place where it is spelled. -/
theorem findOffset_spotted {cstr : List UInt8} {o : ℕ} {spots : List Spot}
    (h : Spotted cstr o spots) {ds : List Str} (hds : ∀ d ∈ ds, Proper d) :
    findOffset cstr (wire ds) o = some ((findSpot spots ds).map Spot.off) := by
  induction h with
  | done => rw [findOffset, dif_neg (Nat.lt_irrefl _), findSpot, List.find?_nil, Option.map_none]
  | @nul o spots hc _ ih =>
    have hlt := lt_of_getElem? hc
    have hbyte : cstr[o] = 0 := by
      rw [List.getElem?_eq_getElem hlt] at hc
      exact Option.some.inj hc
    rw [findOffset, dif_pos hlt, hbyte, if_neg (by decide), if_neg (by decide), ih]
  | @pointer o c spots hc hmark _ ih =>
    have hlt := lt_of_getElem? hc
    have hbyte : cstr[o] = c := by
      rw [List.getElem?_eq_getElem hlt] at hc
      exact Option.some.inj hc
    rw [findOffset, dif_pos hlt, hbyte, if_pos hmark, ih]
  | @label o l ls n spots hl hat hspelled _ ih =>
    have hc := getElem?_of_isPrefix hat
    have hlt := lt_of_getElem? hc
    have hbyte : cstr[o] = UInt8.ofNat l.length := by
      rw [List.getElem?_eq_getElem hlt] at hc
      exact Option.some.inj hc
    obtain ⟨c, hjump, hmatch⟩ := matchDname_spelled hspelled
    rw [jumpTo_self hc hl.unmarked] at hjump
    cases hjump
    rw [findOffset, dif_pos hlt, hbyte, if_neg hl.unmarked, if_pos hl.ne_zero, hmatch ds hds,
      findSpot, List.find?_cons]
    by_cases heq : ds = l :: ls
    · simp only [heq, decide_true, Option.map_some]
    · have hne : l :: ls ≠ ds := fun h => heq h.symm
      simp only [heq, hne, decide_false, hl.toNat, ih, findSpot]

end Rustybox.Dhcp
