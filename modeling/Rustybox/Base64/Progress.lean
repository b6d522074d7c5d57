import Mathlib.Logic.Relation
import Rustybox.Base64.RoundTrip

/-!
# Does `read_base64` come to an end?

A pass of the outer loop fills the window up to 64 characters and decodes what it can.  What is
left over stays in the window.  When the window is full and only one, two or three of its
characters are digits, nothing can be decoded; then all of it is left over, and no pass after that
reads a byte.  `progresses_iff`: such a window is the only thing that stops the reading.
-/

namespace Rustybox.Base64

/-! ### Passes -/

/-- What the outer loop carries from one pass to the next: the characters in the window, and the
rest of the stream. -/
structure Window where
  inBuf : List UInt8
  src : List UInt8

/-- A pass of the outer loop; no window follows where `read_base64` returns or dies. -/
def pass (flags : ℤ) (s : Window) : Option Window :=
  match fill flags s.inBuf s.src with
  | .part inBuf src =>
    if uuStops flags inBuf then none else some ⟨(decodeBase64 inBuf).2, src⟩
  | _ => none

/-- What is in the window when a pass has filled it. -/
def filled (flags : ℤ) (s : Window) : Option (List UInt8) :=
  match fill flags s.inBuf s.src with
  | .back => none
  | .term inBuf => some inBuf
  | .part inBuf _ => some inBuf

/-- The windows that a run passes through. -/
def Reaches (flags : ℤ) : Window → Window → Prop :=
  Relation.ReflTransGen fun s s' => pass flags s = some s'

/-- The digits of base64. -/
def digits : List UInt8 := bbUuencTblBase64.take 64

/-- A full window from which nothing can be decoded: no padding character ends a group, and there
are too few digits for one. -/
def Jams (inBuf : List UInt8) : Prop :=
  inBuf.length = bufferSize ∧ 61 ∉ inBuf ∧ 1 ≤ inBuf.countP (· ∈ digits) ∧
    inBuf.countP (· ∈ digits) ≤ 3

/-- `read_base64` ends on this stream, every pass before that reads a byte, and neither buffer is
exceeded. -/
structure Progresses (flags : ℤ) (src : List UInt8) : Prop where
  ends : ∃ n r, readLoop flags n [] src [] = some r
  reads : ∀ s s', Reaches flags ⟨[], src⟩ s → pass flags s = some s' →
    s'.src.length < s.src.length
  inFits : ∀ s b, Reaches flags ⟨[], src⟩ s → filled flags s = some b → b.length + 1 ≤ 66
  outFits : ∀ s b, Reaches flags ⟨[], src⟩ s → filled flags s = some b →
    (decodeBase64 b).1.length ≤ 50

theorem readLoop_of_pass {flags : ℤ} {s s' : Window} (h : pass flags s = some s') (n : ℕ)
    (dst : List UInt8) :
    ∃ out, readLoop flags (n + 1) s.inBuf s.src dst =
      readLoop flags n s'.inBuf s'.src (dst ++ out) := by
  rw [pass] at h
  rw [readLoop]
  cases hfill : fill flags s.inBuf s.src with
  | back =>
    rw [hfill] at h
    cases h
  | term b =>
    rw [hfill] at h
    cases h
  | part b rest =>
    rw [hfill] at h
    by_cases huu : uuStops flags b = true
    · simp only [huu, if_true] at h
      cases h
    · simp only [huu] at h
      obtain rfl := Option.some.inj h
      simp only [huu]
      exact ⟨(decodeBase64 b).1, rfl⟩

theorem readLoop_of_no_pass {flags : ℤ} {s : Window} (h : pass flags s = none) (n : ℕ)
    (dst : List UInt8) : ∃ r, readLoop flags (n + 1) s.inBuf s.src dst = some r := by
  rw [pass] at h
  rw [readLoop]
  cases hfill : fill flags s.inBuf s.src with
  | back => exact ⟨_, rfl⟩
  | term b =>
    by_cases huu : uuStops flags b = true
    · simp only [huu, if_true]
      exact ⟨_, rfl⟩
    · by_cases htail : (decodeBase64 b).2 = []
      · simp only [huu, htail, if_true]
        exact ⟨_, rfl⟩
      · simp only [huu, htail]
        exact ⟨_, rfl⟩
  | part b rest =>
    rw [hfill] at h
    by_cases huu : uuStops flags b = true
    · simp only [huu, if_true]
      exact ⟨_, rfl⟩
    · simp only [huu] at h
      cases h

/-! ### The window -/

theorem fill_spec (flags : ℤ) (inBuf src : List UInt8) (hlen : inBuf.length ≤ bufferSize)
    (hnul : 0 ∉ inBuf) :
    (∀ b, fill flags inBuf src = .term b → b.length < bufferSize ∧ 0 ∉ b) ∧
      ∀ b rest, fill flags inBuf src = .part b rest →
        b.length ≤ bufferSize ∧ 0 ∉ b ∧ (inBuf.length < bufferSize → rest.length < src.length) ∧
          (inBuf.length = bufferSize → b = inBuf ∧ rest = src) := by
  induction src generalizing inBuf with
  | nil =>
    rw [fill]
    by_cases hroom : inBuf.length < bufferSize
    · rw [if_pos hroom]
      split
      · exact ⟨fun b h => (by cases h), fun b rest h => (by cases h)⟩
      · refine ⟨fun b h => ?_, fun b rest h => (by cases h)⟩
        cases h
        exact ⟨hroom, hnul⟩
    · rw [if_neg hroom]
      refine ⟨fun b h => (by cases h), fun b rest h => ?_⟩
      cases h
      exact ⟨hlen, hnul, fun hr => absurd hr hroom, fun _ => ⟨rfl, rfl⟩⟩
  | cons ch src ih =>
    rw [fill]
    by_cases hroom : inBuf.length < bufferSize
    · rw [if_pos hroom]
      split
      · split
        · exact ⟨fun b h => (by cases h), fun b rest h => (by cases h)⟩
        · refine ⟨fun b h => ?_, fun b rest h => (by cases h)⟩
          cases h
          exact ⟨hroom, hnul⟩
      · by_cases hctl : ch ≤ 32
        · rw [if_pos hctl]
          refine ⟨fun b h => (by cases h), fun b rest h => ?_⟩
          cases h
          exact ⟨hlen, hnul, fun _ => Nat.lt_succ_self _, fun he => absurd hroom (by omega)⟩
        · rw [if_neg hctl]
          have hsnoc : (inBuf ++ [ch]).length = inBuf.length + 1 := List.length_append
          have hzero : 0 ∉ inBuf ++ [ch] := by
            rw [List.mem_append, List.mem_singleton]
            rintro (h | h)
            · exact hnul h
            · exact hctl (h ▸ by decide)
          obtain ⟨hterm, hpart⟩ := ih (inBuf ++ [ch]) (by omega) hzero
          refine ⟨hterm, fun b rest h => ?_⟩
          obtain ⟨h1, h2, h3, h4⟩ := hpart b rest h
          refine ⟨h1, h2, fun _ => ?_, fun he => absurd hroom (by omega)⟩
          by_cases hfull : (inBuf ++ [ch]).length < bufferSize
          · exact Nat.lt_succ_of_lt (h3 hfull)
          · obtain ⟨-, rfl⟩ := h4 (by omega)
            exact Nat.lt_succ_self _
    · rw [if_neg hroom]
      refine ⟨fun b h => (by cases h), fun b rest h => ?_⟩
      cases h
      exact ⟨hlen, hnul, fun hr => absurd hr hroom, fun _ => ⟨rfl, rfl⟩⟩

/-! ### What a window decodes to -/

theorem length_groupBytes (sixBit : List ℕ) :
    4 * (groupBytes sixBit).length ≤ 3 * sixBit.length := by
  rcases sixBit with _ | ⟨a, _ | ⟨b, _ | ⟨c, _ | ⟨d, _ | ⟨e, l⟩⟩⟩⟩⟩
  all_goals simp only [groupBytes, List.length_nil, List.length_cons]
  all_goals omega

theorem length_fetch : ∀ (n : ℕ) (sixBit sixBit' : List ℕ) (src src' : List UInt8),
    fetch n sixBit src = (sixBit', some src') →
      sixBit'.length + src'.length ≤ sixBit.length + src.length := by
  intro n
  induction n with
  | zero =>
    intro sixBit sixBit' src src' h
    cases h
    exact le_refl _
  | succ n ih =>
    intro sixBit sixBit' src src' h
    rw [fetch] at h
    cases hnext : nextValid src with
    | none =>
      rw [hnext] at h
      cases h
    | some r =>
      obtain ⟨ch, rest⟩ := r
      have hlt := nextValid_length hnext
      rw [hnext] at h
      dsimp only at h
      by_cases h64 : ch = 64
      · rw [if_pos h64] at h
        cases h
        omega
      · rw [if_neg h64] at h
        have hrec := ih _ _ _ _ h
        rw [List.length_append, List.length_singleton] at hrec
        omega

/-- **The output buffer.**  Three bytes come out of four characters at most. -/
theorem length_decodeBase64 : ∀ src : List UInt8,
    4 * (decodeBase64 src).1.length ≤ 3 * src.length := by
  intro src
  induction hn : src.length using Nat.strong_induction_on generalizing src with
  | _ n ih =>
    cases hf : fetch 4 [] src with
    | mk sixBit rest =>
      cases rest with
      | none =>
        rw [decodeBase64_of_none hf]
        exact Nat.zero_le _
      | some src' =>
        have hlt : src'.length < n := hn ▸ fetch_length hf
        have hrec := ih src'.length hlt src' rfl
        have hgroup := length_groupBytes sixBit
        have hfetch := length_fetch 4 [] sixBit src src' hf
        rw [decodeBase64_of_some hf, List.length_append]
        rw [List.length_nil] at hfetch
        omega

theorem idxOf_table {ch : UInt8} {i : ℕ} (h : bbUuencTblBase64.idxOf? ch = some i)
    (hnul : ch ≠ 0) : (i = 64 → ch = 61) ∧ (i ≠ 64 → ch ∈ digits ∧ ch ≠ 61) := by
  have hall : ∀ j < 66, (j = 64 → bbUuencTblBase64.getD j 0 = 61) ∧
      (j ≠ 64 → bbUuencTblBase64.getD j 0 = 0 ∨
        bbUuencTblBase64.getD j 0 ∈ digits ∧ bbUuencTblBase64.getD j 0 ≠ 61) := by
    decide
  obtain ⟨hi, hget, -⟩ := List.idxOf?_eq_some_iff.mp h
  have hch : bbUuencTblBase64.getD i 0 = ch := by
    rw [List.getD_eq_getElem?_getD, List.getElem?_eq_getElem hi, Option.getD_some]
    exact hget
  obtain ⟨h1, h2⟩ := hall i hi
  rw [hch] at h1 h2
  exact ⟨h1, fun hne => (h2 hne).resolve_left hnul⟩

/-- What the next valid character says about the padding characters and digits of a string. -/
theorem nextValid_spec (src : List UInt8) (hnul : 0 ∉ src) :
    (nextValid src = none → 61 ∉ src ∧ src.countP (· ∈ digits) = 0) ∧
      (∀ rest, nextValid src = some (64, rest) → 61 ∈ src) ∧
      ∀ i rest, i ≠ 64 → nextValid src = some (i, rest) →
        0 ∉ rest ∧ (61 ∈ src ↔ 61 ∈ rest) ∧
          src.countP (· ∈ digits) = rest.countP (· ∈ digits) + 1 := by
  induction src with
  | nil =>
    refine ⟨fun _ => ⟨List.not_mem_nil, rfl⟩, fun rest h => (by cases h), ?_⟩
    intro i rest _ h
    cases h
  | cons ch src ih =>
    have hch : ch ≠ 0 := fun h => hnul (h ▸ List.mem_cons_self)
    have hsrc : 0 ∉ src := fun h => hnul (List.mem_cons_of_mem ch h)
    rw [nextValid]
    cases hidx : bbUuencTblBase64.idxOf? ch with
    | none =>
      have hno : ch ∉ bbUuencTblBase64 := List.idxOf?_eq_none_iff.mp hidx
      have hpad : ch ≠ 61 := fun h => hno (h ▸ by decide)
      have hdig : ch ∉ digits := fun h => hno (List.mem_of_mem_take h)
      have hmem : 61 ∈ ch :: src ↔ 61 ∈ src := by
        rw [List.mem_cons]
        exact or_iff_right fun h => hpad h.symm
      have hcount : (ch :: src).countP (· ∈ digits) = src.countP (· ∈ digits) :=
        List.countP_cons_of_neg (by simpa using hdig)
      rw [hmem, hcount]
      exact ih hsrc
    | some i =>
      obtain ⟨h64, hne64⟩ := idxOf_table hidx hch
      refine ⟨fun h => (by cases h), ?_, ?_⟩
      · intro rest h
        obtain ⟨hi, -⟩ := Prod.mk.inj (Option.some.inj h)
        rw [h64 hi]
        exact List.mem_cons_self
      · intro j rest hj h
        obtain ⟨rfl, rfl⟩ := Prod.mk.inj (Option.some.inj h)
        obtain ⟨hdig, hpad⟩ := hne64 hj
        refine ⟨hsrc, ?_, List.countP_cons_of_pos (by simpa using hdig)⟩
        rw [List.mem_cons]
        exact or_iff_right fun h => hpad h.symm

/-- **When a group cannot be fetched**: nothing pads it and there are too few digits. -/
theorem fetch_none_iff (n : ℕ) (sixBit : List ℕ) (src : List UInt8) (hnul : 0 ∉ src) :
    ((fetch n sixBit src).2 = none ↔ 61 ∉ src ∧ src.countP (· ∈ digits) < n) ∧
      ((fetch n sixBit src).2 = none →
        (fetch n sixBit src).1.length = sixBit.length + src.countP (· ∈ digits)) := by
  induction n generalizing sixBit src with
  | zero =>
    refine ⟨⟨fun h => (by cases h), fun h => absurd h.2 (Nat.not_lt_zero _)⟩, fun h => ?_⟩
    cases h
  | succ n ih =>
    obtain ⟨hnone, hpad, hdigit⟩ := nextValid_spec src hnul
    rw [fetch]
    cases hnext : nextValid src with
    | none =>
      obtain ⟨h1, h2⟩ := hnone hnext
      rw [h2]
      exact ⟨⟨fun _ => ⟨h1, Nat.succ_pos n⟩, fun _ => rfl⟩, fun _ => rfl⟩
    | some r =>
      obtain ⟨ch, rest⟩ := r
      by_cases h64 : ch = 64
      · subst h64
        refine ⟨⟨fun h => (by cases h), fun h => absurd (hpad rest hnext) h.1⟩, fun h => ?_⟩
        cases h
      · obtain ⟨h1, h2, h3⟩ := hdigit ch rest h64 hnext
        obtain ⟨ih1, ih2⟩ := ih (sixBit ++ [ch]) rest h1
        simp only [if_neg h64]
        rw [h2, h3, ih1]
        refine ⟨⟨fun h => ⟨h.1, by omega⟩, fun h => ⟨h.1, by omega⟩⟩, fun h => ?_⟩
        rw [ih2 (ih1.mpr h), List.length_append, List.length_singleton]
        omega

theorem length_carry (src : List UInt8) : (decodeBase64 src).2.length ≤ src.length := by
  induction hn : src.length using Nat.strong_induction_on generalizing src with
  | _ n ih =>
    cases hf : fetch 4 [] src with
    | mk sixBit rest =>
      cases rest with
      | none =>
        rw [decodeBase64_of_none hf]
        split
        · exact Nat.zero_le _
        · exact hn.le
      | some src' =>
        have hlt : src'.length < n := hn ▸ fetch_length hf
        rw [decodeBase64_of_some hf]
        exact (ih src'.length hlt src' rfl).trans hlt.le

/-- **What jams a window**: all of it is left over. -/
theorem jams_iff {b : List UInt8} (hlen : b.length = bufferSize) (hnul : 0 ∉ b) :
    (Jams b → (decodeBase64 b).2 = b) ∧
      ((decodeBase64 b).2.length = bufferSize → Jams b) := by
  obtain ⟨hnone, hcount⟩ := fetch_none_iff 4 [] b hnul
  cases hf : fetch 4 [] b with
  | mk sixBit rest =>
    rw [hf] at hnone hcount
    cases rest with
    | none =>
      obtain ⟨hpad, hfew⟩ := hnone.mp rfl
      have hsix : sixBit.length = b.countP (· ∈ digits) := by
        rw [hcount rfl, List.length_nil, Nat.zero_add]
      rw [decodeBase64_of_none hf]
      constructor
      · rintro ⟨-, -, hsome, -⟩
        refine if_neg fun h => ?_
        rw [h, List.length_nil] at hsix
        omega
      · intro hall
        refine ⟨hlen, hpad, ?_, by omega⟩
        by_contra hzero
        have hnil : sixBit = [] := List.eq_nil_of_length_eq_zero (by omega)
        rw [if_pos hnil] at hall
        exact absurd hall (by decide)
    | some src' =>
      have hlt := fetch_length hf
      have hle := length_carry src'
      rw [decodeBase64_of_some hf]
      constructor
      · rintro ⟨-, hpad, -, hfew⟩
        have hno := hnone.mpr ⟨hpad, by omega⟩
        cases hno
      · intro hall
        dsimp only at hall
        omega

/-! ### Runs -/

/-- A window between two passes: nothing in it is a control character, and it has room. -/
structure Ready (s : Window) : Prop where
  room : s.inBuf.length < bufferSize
  noNul : 0 ∉ s.inBuf

theorem pass_eq_some {flags : ℤ} {s s' : Window} (h : pass flags s = some s') :
    ∃ b, fill flags s.inBuf s.src = .part b s'.src ∧ filled flags s = some b ∧
      uuStops flags b = false ∧ s'.inBuf = (decodeBase64 b).2 := by
  rw [pass] at h
  rw [filled]
  cases hfill : fill flags s.inBuf s.src with
  | back =>
    rw [hfill] at h
    cases h
  | term b =>
    rw [hfill] at h
    cases h
  | part b rest =>
    rw [hfill] at h
    cases huu : uuStops flags b with
    | true =>
      simp only [huu, if_true] at h
      cases h
    | false =>
      simp only [huu] at h
      obtain rfl := Option.some.inj h
      exact ⟨b, rfl, rfl, huu, rfl⟩

theorem Ready.filled {flags : ℤ} {s : Window} (h : Ready s) {b : List UInt8}
    (hb : filled flags s = some b) : b.length ≤ bufferSize ∧ 0 ∉ b := by
  obtain ⟨hterm, hpart⟩ := fill_spec flags s.inBuf s.src h.room.le h.noNul
  rw [Base64.filled] at hb
  cases hfill : fill flags s.inBuf s.src with
  | back =>
    rw [hfill] at hb
    cases hb
  | term c =>
    rw [hfill] at hb
    obtain rfl := Option.some.inj hb
    obtain ⟨h1, h2⟩ := hterm c hfill
    exact ⟨h1.le, h2⟩
  | part c rest =>
    rw [hfill] at hb
    obtain rfl := Option.some.inj hb
    obtain ⟨h1, h2, -⟩ := hpart c rest hfill
    exact ⟨h1, h2⟩

/-- **One pass** from a window with room reads a byte; the next window has room again unless
this one jams. -/
theorem Ready.step {flags : ℤ} {s s' : Window} (h : Ready s) (hp : pass flags s = some s') :
    s'.src.length < s.src.length ∧
      ((∀ b, Base64.filled flags s = some b → ¬ Jams b) → Ready s') := by
  obtain ⟨b, hfill, hb, -, hcarry⟩ := pass_eq_some hp
  obtain ⟨hlen, hnul, hless, -⟩ :=
    (fill_spec flags s.inBuf s.src h.room.le h.noNul).2 b s'.src hfill
  refine ⟨hless h.room, fun hno => ⟨?_, ?_⟩⟩
  · rw [hcarry]
    have hle := length_carry b
    by_contra hfull
    have hb64 : b.length = bufferSize := by omega
    exact hno b hb ((jams_iff hb64 hnul).2 (by omega))
  · rw [hcarry]
    exact fun hz => hnul (carry_subset b hz)

theorem fill_full (flags : ℤ) {b : List UInt8} (hlen : b.length = bufferSize)
    (src : List UInt8) : fill flags b src = .part b src := by
  have hroom : ¬ b.length < bufferSize := by omega
  cases src with
  | nil => rw [fill, if_neg hroom]
  | cons ch src => rw [fill, if_neg hroom]

/-- After a window that jams, every pass leaves everything as it is. -/
theorem Jams.stays {flags : ℤ} {s s' : Window} (h : Ready s) {b : List UInt8}
    (hb : filled flags s = some b) (hj : Jams b) (hp : pass flags s = some s') :
    pass flags s' = some s' := by
  obtain ⟨c, hfill, hc, huu, hcarry⟩ := pass_eq_some hp
  obtain rfl : b = c := Option.some.inj (hb.symm.trans hc)
  obtain ⟨-, hnul⟩ := h.filled hb
  have hstay := (jams_iff hj.1 hnul).1 hj
  rw [hstay] at hcarry
  rw [pass, hcarry, fill_full flags hj.1]
  simp only [huu, hstay]
  rw [← hcarry]
  rfl

theorem ready_of_reaches {flags : ℤ} {s₀ s : Window} (h₀ : Ready s₀) (hr : Reaches flags s₀ s)
    (hno : ∀ t b, Reaches flags s₀ t → filled flags t = some b → ¬ Jams b) : Ready s := by
  induction hr with
  | refl => exact h₀
  | tail hr hp ih => exact (ih.step hp).2 fun b hb => hno _ b hr hb

/-- A run in which every window has room ends. -/
theorem ends_of_ready {flags : ℤ} (n : ℕ) {s : Window} (hn : s.src.length < n)
    (hall : ∀ t, Reaches flags s t → Ready t) (dst : List UInt8) :
    ∃ r, readLoop flags n s.inBuf s.src dst = some r := by
  induction n generalizing s dst with
  | zero => exact absurd hn (Nat.not_lt_zero _)
  | succ n ih =>
    cases hp : pass flags s with
    | none => exact readLoop_of_no_pass hp n dst
    | some s' =>
      obtain ⟨out, hout⟩ := readLoop_of_pass hp n dst
      have hlt := ((hall s .refl).step hp).1
      rw [hout]
      exact ih (by omega) (fun t ht => hall t (.head hp ht)) (dst ++ out)

theorem Jams.goes_on {flags : ℤ} {s : Window} (h : Ready s) {b : List UInt8}
    (hb : filled flags s = some b) (hj : Jams b) : ∃ s', pass flags s = some s' := by
  obtain ⟨hterm, -⟩ := fill_spec flags s.inBuf s.src h.room.le h.noNul
  rw [filled] at hb
  rw [pass]
  cases hfill : fill flags s.inBuf s.src with
  | back =>
    rw [hfill] at hb
    cases hb
  | term c =>
    rw [hfill] at hb
    obtain rfl := Option.some.inj hb
    have hlt := (hterm c hfill).1
    have hfull := hj.1
    omega
  | part c rest =>
    rw [hfill] at hb
    obtain rfl := Option.some.inj hb
    have huu : uuStops flags c = false := by
      by_contra htrue
      have hand : uuStops flags c = true := by simpa using htrue
      rw [uuStops, Bool.and_eq_true] at hand
      have heq : c = [61, 61, 61, 61] := of_decide_eq_true hand.2
      exact hj.2.1 (heq ▸ List.mem_cons_self)
    simp only [huu]
    exact ⟨_, rfl⟩

theorem never_ends_of_pass_self {flags : ℤ} {s : Window} (h : pass flags s = some s) (n : ℕ)
    (dst : List UInt8) : readLoop flags n s.inBuf s.src dst = none := by
  induction n generalizing dst with
  | zero => rfl
  | succ n ih =>
    obtain ⟨out, hout⟩ := readLoop_of_pass h n dst
    rw [hout]
    exact ih _

theorem Jams.never_ends {flags : ℤ} {s : Window} (h : Ready s) {b : List UInt8}
    (hb : filled flags s = some b) (hj : Jams b) (n : ℕ) (dst : List UInt8) :
    readLoop flags n s.inBuf s.src dst = none := by
  obtain ⟨s', hp⟩ := hj.goes_on h hb
  cases n with
  | zero => rfl
  | succ n =>
    obtain ⟨out, hout⟩ := readLoop_of_pass hp n dst
    rw [hout]
    exact never_ends_of_pass_self (hj.stays h hb hp) n _

theorem ready_start (src : List UInt8) : Ready ⟨[], src⟩ :=
  ⟨Nat.zero_lt_succ 63, List.not_mem_nil⟩

/-- **When `read_base64` comes to an end**: exactly when it never fills its window with
characters of which one, two or three are digits and none is `=`. -/
theorem progresses_iff (flags : ℤ) (src : List UInt8) :
    Progresses flags src ↔
      ∀ s b, Reaches flags ⟨[], src⟩ s → filled flags s = some b → ¬ Jams b := by
  constructor
  · intro h
    have hself {s : Window} (hr : Reaches flags ⟨[], src⟩ s) : ¬ pass flags s = some s :=
      fun hp => Nat.lt_irrefl _ (h.reads s s hr hp)
    have hready {s : Window} (hr : Reaches flags ⟨[], src⟩ s) : Ready s := by
      induction hr with
      | refl => exact ready_start src
      | tail hr hp ih =>
        exact (ih.step hp).2 fun b hb hj => hself (hr.tail hp) (hj.stays ih hb hp)
    intro s b hr hb hj
    obtain ⟨s', hp⟩ := hj.goes_on (hready hr) hb
    exact hself (hr.tail hp) (hj.stays (hready hr) hb hp)
  · intro hno
    have hready {s : Window} (hr : Reaches flags ⟨[], src⟩ s) : Ready s :=
      ready_of_reaches (ready_start src) hr hno
    refine ⟨?_, ?_, ?_, ?_⟩
    · obtain ⟨r, hr⟩ := ends_of_ready (src.length + 1) (s := ⟨[], src⟩) (Nat.lt_succ_self _)
        (fun t ht => hready ht) []
      exact ⟨_, r, hr⟩
    · intro s s' hr hp
      exact ((hready hr).step hp).1
    · intro s b hr hb
      have hlen := ((hready hr).filled hb).1
      have hsize : bufferSize = 64 := rfl
      omega
    · intro s b hr hb
      have hlen := ((hready hr).filled hb).1
      have hout := length_decodeBase64 b
      have hsize : bufferSize = 64 := rfl
      omega

/-- `A` and 63 times `!` are read for ever. -/
theorem not_ends_exclamations :
    ¬ ∃ n r, readLoop noStopChar n [] (65 :: List.replicate 63 33) [] = some r := by
  have hfilled : filled noStopChar ⟨[], 65 :: List.replicate 63 33⟩ =
      some (65 :: List.replicate 63 33) := by decide
  have hjams : Jams (65 :: List.replicate 63 33) := by
    refine ⟨by decide, by decide, by decide, by decide⟩
  rintro ⟨n, r, h⟩
  have hnone := hjams.never_ends (ready_start _) hfilled n []
  dsimp only at hnone
  rw [hnone] at h
  cases h

end Rustybox.Base64
