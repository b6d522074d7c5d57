import Rustybox.Unlzma.Decode
import Mathlib.Tactic.Ring

/-!
# Where the unpacking of lzma reads and writes
-/

namespace Rustybox.Unlzma

open Rustybox.Rust
open Guarded (Stays Guards)

/-! ### Probabilities -/

/-- The program dies or finds the data corrupted. -/
def Quiet (e : Stop) : Prop := e ≠ .outside ∧ e ≠ .spin

section

variable {p : List Matched → Prop} {header : Header}

theorem rcDoNormalize_stays :
    Stays (fun m => p m.matched) Quiet rcDoNormalize (fun _ => True) := by
  intro m hm
  rw [rcDoNormalize]
  split
  · refine ⟨hm, fun e he => ?_, fun a _ => trivial⟩
    cases he
    constructor
    · intro h
      cases h
    · intro h
      cases h
  · refine ⟨hm, fun e he => ?_, fun a _ => trivial⟩
    cases he

theorem rcNormalize_stays : Stays (fun m => p m.matched) Quiet rcNormalize (fun _ => True) := by
  intro m hm
  rw [rcNormalize]
  split
  · exact rcDoNormalize_stays m hm
  · exact ⟨hm, nofun, fun a _ => trivial⟩

theorem rcDirectBit_stays : Stays (fun m => p m.matched) Quiet rcDirectBit (fun _ => True) := by
  refine rcNormalize_stays.bind fun _ _ m hm => ?_
  dsimp only
  split
  · exact ⟨hm, nofun, fun a _ => trivial⟩
  · exact ⟨hm, nofun, fun a _ => trivial⟩

theorem decideBit_run (i q : ℕ) (m : Mem) :
    ∃ b m', decideBit i q m = (.ok b, m') ∧ m'.matched = m.matched := by
  rw [decideBit]
  generalize q * (m.range / 2 ^ 11) % 2 ^ 32 = bound
  by_cases hlt : m.code < bound
  · rw [if_pos hlt]
    exact ⟨_, _, rfl, rfl⟩
  · rw [if_neg hlt]
    exact ⟨_, _, rfl, rfl⟩

theorem rcIsBit1_stays {i : ℕ} (hi : i < header.numProbs) :
    Stays (fun m => p m.matched) Quiet (rcIsBit1 header i) (fun _ => True) := by
  refine rcNormalize_stays.bind fun _ _ => Stays.bind (S := fun _ => True) ?_ fun q _ => ?_
  · intro m hm
    rw [readProb, if_pos hi]
    exact ⟨hm, nofun, fun a _ => trivial⟩
  · intro m hm
    obtain ⟨b, m', hrun, hsame⟩ := decideBit_run i q m
    rw [hrun]
    refine ⟨?_, nofun, fun a _ => trivial⟩
    show p m'.matched
    rw [hsame]
    exact hm

theorem rcGetBit_stays {i symbol : ℕ} (hi : i < header.numProbs) :
    Stays (fun m => p m.matched) Quiet (rcGetBit header i symbol)
      (fun r => r.2 + 1 ≤ (symbol + 1) * 2) := by
  refine (rcIsBit1_stays hi).bind fun ret _ => Stays.pure ?_
  have hret : ret.toNat ≤ 1 := Bool.toNat_le ret
  show symbol * 2 + ret.toNat + 1 ≤ (symbol + 1) * 2
  omega

/-- The probabilities that `n` more bits of a symbol can need are there. -/
def Room (header : Header) (prob symbol n : ℕ) : Prop :=
  ∀ j < n, prob + (symbol + 1) * 2 ^ j ≤ header.numProbs

theorem Room.index {prob symbol n : ℕ} (h : Room header prob symbol (n + 1)) :
    prob + symbol < header.numProbs := by
  have hzero := h 0 (Nat.succ_pos n)
  rw [Nat.pow_zero, Nat.mul_one] at hzero
  omega

theorem Room.next {prob symbol symbol' n : ℕ} (h : Room header prob symbol (n + 1))
    (hle : symbol' + 1 ≤ (symbol + 1) * 2) : Room header prob symbol' n := by
  intro j hj
  have hnext := h (j + 1) (Nat.succ_lt_succ hj)
  have hmul : (symbol' + 1) * 2 ^ j ≤ (symbol + 1) * 2 * 2 ^ j := Nat.mul_le_mul_right _ hle
  have hpow : (symbol + 1) * 2 ^ (j + 1) = (symbol + 1) * 2 * 2 ^ j := by
    rw [Nat.pow_succ']
    ring
  omega

theorem room_one {prob n : ℕ} (h : prob + 2 ^ n ≤ header.numProbs) : Room header prob 1 n := by
  intro j hj
  have hpow : (1 + 1) * 2 ^ j ≤ 2 ^ n := by
    rw [← Nat.pow_succ']
    exact Nat.pow_le_pow_right (by decide) hj
  omega

theorem bitTree_stays {prob n symbol : ℕ} (h : Room header prob symbol n) :
    Stays (fun m => p m.matched) Quiet (bitTree header prob n symbol)
      (fun r => r + 1 ≤ (symbol + 1) * 2 ^ n) := by
  induction n generalizing symbol with
  | zero => exact Stays.pure (by omega)
  | succ n ih =>
    refine (rcGetBit_stays h.index).bind ?_
    rintro ⟨ret, symbol'⟩ hle
    refine (ih (h.next hle)).weaken fun r hr => ?_
    have hmul : (symbol' + 1) * 2 ^ n ≤ (symbol + 1) * 2 * 2 ^ n := Nat.mul_le_mul_right _ hle
    calc r + 1 ≤ (symbol' + 1) * 2 ^ n := hr
      _ ≤ (symbol + 1) * 2 * 2 ^ n := hmul
      _ = (symbol + 1) * 2 ^ (n + 1) := by rw [Nat.pow_succ', Nat.mul_assoc]

theorem rcBitTreeDecode_stays {prob n : ℕ} (h : prob + 2 ^ n ≤ header.numProbs) :
    Stays (fun m => p m.matched) Quiet (rcBitTreeDecode header prob n) (fun r => r < 2 ^ n) := by
  refine (bitTree_stays (room_one h)).bind fun symbol hsymbol => Stays.pure ?_
  omega

theorem literalBits_stays {prob n mi : ℕ} (h : prob + 0x100 ≤ header.numProbs) :
    Stays (fun m => p m.matched) Quiet (literalBits header prob n mi) (fun _ => True) := by
  induction n generalizing mi with
  | zero => exact Stays.pure trivial
  | succ n ih =>
    refine Stays.ite (fun hmi => ?_) fun _ => Stays.pure trivial
    refine (rcGetBit_stays (by omega)).bind fun r _ => ?_
    exact ih

theorem matchedBits_stays {prob n matchByte mi : ℕ} (h : prob + 0x300 ≤ header.numProbs)
    (hmi : mi < 0x100) :
    Stays (fun m => p m.matched) Quiet (matchedBits header prob n matchByte mi)
      (fun _ => True) := by
  induction n generalizing matchByte mi with
  | zero => exact Stays.pure trivial
  | succ n ih =>
    have hbit : matchByte * 2 &&& 0x100 ≤ 0x100 := Nat.and_le_right
    refine (rcGetBit_stays (by omega)).bind ?_
    rintro ⟨ret, mi'⟩ _
    refine Stays.ite (fun _ => Stays.pure trivial) fun hgo => ih ?_
    exact Decidable.not_not.mp fun hmi' => hgo (Or.inr hmi')

theorem decodeLen_stays {prob posState : ℕ} (h : prob + 514 ≤ header.numProbs)
    (hpos : posState < 16) :
    Stays (fun m => p m.matched) Quiet (decodeLen header prob posState) (fun _ => True) := by
  refine (rcIsBit1_stays (by omega)).bind fun choice _ => Stays.ite (fun _ => ?_) fun _ => ?_
  · refine (rcIsBit1_stays (by omega)).bind fun choice2 _ => Stays.ite (fun _ => ?_) fun _ => ?_
    · exact (rcBitTreeDecode_stays (by omega)).bind fun len _ => Stays.pure trivial
    · exact (rcBitTreeDecode_stays (by omega)).bind fun len _ => Stays.pure trivial
  · exact (rcBitTreeDecode_stays (by omega)).weaken fun _ _ => trivial

theorem directBits_stays {n rep0 : ℕ} :
    Stays (fun m => p m.matched) Quiet (directBits n rep0) (fun _ => True) := by
  induction n generalizing rep0 with
  | zero => exact Stays.pure trivial
  | succ n ih => exact rcDirectBit_stays.bind fun bit _ => ih

theorem reverseBits_stays {prob n i2 mi2 rep0 : ℕ} (h : Room header prob mi2 n) :
    Stays (fun m => p m.matched) Quiet (reverseBits header prob n i2 mi2 rep0)
      (fun _ => True) := by
  induction n generalizing i2 mi2 rep0 with
  | zero => exact Stays.pure trivial
  | succ n ih =>
    refine (rcGetBit_stays h.index).bind ?_
    rintro ⟨ret, mi2'⟩ hle
    exact ih (h.next hle)

theorem Header.le_numProbs : 1846 ≤ header.numProbs := Nat.le_add_right _ _

theorem specPos_room : ∀ posSlot < 14, 4 ≤ posSlot →
    688 + (2 ||| (posSlot &&& 1)) * 2 ^ (posSlot / 2 - 1) % 2 ^ 32 - posSlot - 1 +
      2 ^ (posSlot / 2 - 1) ≤ 1846 := by
  decide

theorem decodeDistance_stays {len : ℕ} :
    Stays (fun m => p m.matched) Quiet (decodeDistance header len) (fun _ => True) := by
  have hprobs := header.le_numProbs
  have hlen : (if len < 4 then len else 3) ≤ 3 := by
    split <;> omega
  refine (rcBitTreeDecode_stays (by omega)).bind fun posSlot _ => ?_
  refine Stays.ite (fun _ => Stays.pure trivial) fun hfour => ?_
  refine Stays.ite (fun hsmall => ?_) fun _ => ?_
  · have hroom := specPos_room posSlot hsmall (Nat.le_of_not_lt hfour)
    exact reverseBits_stays (room_one (Nat.le_trans hroom hprobs))
  · exact directBits_stays.bind fun rep0 _ => reverseBits_stays (room_one (by omega))

end

/-! ### Positions in the buffer -/

/-- A literal after a match is all right: its distance does not lead to the end of the buffer, nor
from the start of the dictionary to before it. -/
def Matched.Inside (e : Matched) : Prop :=
  ¬ (e.bufferPos = 0 ∧ e.header.dictSize < e.rep0) ∧
    ¬ (e.bufferPos < e.rep0 ∧ e.bufferPos + e.header.dictSize = e.rep0 + e.header.dstSize)

instance (e : Matched) : Decidable e.Inside := inferInstanceAs (Decidable (_ ∧ _))

section

variable {header : Header} {v : Vars}

theorem Header.bufferSize_eq : header.bufferSize = min header.dstSize header.dictSize := by
  have hlt := header.dictSize_lt
  rw [Header.bufferSize]
  split <;> omega

def Distance (rep : ℕ) : Prop := 0 < rep ∧ rep < 2 ^ 31

/-- What is true of the variables between two packets and while one is copied. -/
structure Vars.Ok (header : Header) (v : Vars) : Prop where
  state : v.state < 12
  rep0 : Distance v.rep0
  rep1 : Distance v.rep1
  rep2 : Distance v.rep2
  rep3 : Distance v.rep3
  lt : v.bufferPos < header.dictSize
  le : v.bufferPos ≤ header.bufferSize
  short : header.dstSize < header.dictSize → v.globalPos = 0

/-- A byte back in the output is in the buffer. -/
theorem Vars.matchPos_of_le (hrep : Distance v.rep0) (hpos : v.bufferPos < header.bufferSize)
    (hle : v.rep0 ≤ v.bufferPos) : v.matchPos header < header.bufferSize := by
  obtain ⟨hrep0, hrep31⟩ := hrep
  have hdict := header.dictSize_lt
  have hmin := header.bufferSize_eq
  have hdist : v.distancePos = v.bufferPos - v.rep0 := by
    rw [Vars.distancePos]
    omega
  rw [Vars.matchPos, hdist]
  split <;> omega

/-- One around the end of the dictionary need not be. -/
theorem Vars.matchPos_of_lt (hrep : Distance v.rep0) (hpos : v.bufferPos < header.bufferSize)
    (hlt : v.bufferPos < v.rep0) : 2 ^ 31 ≤ v.distancePos ∧
      (v.matchPos header < header.bufferSize ↔ v.rep0 ≤ v.bufferPos + header.dictSize ∧
        v.bufferPos + header.dictSize < v.rep0 + header.bufferSize) := by
  obtain ⟨hrep0, hrep31⟩ := hrep
  have hdict := header.dictSize_lt
  have hmin := header.bufferSize_eq
  have hdist : v.distancePos = 2 ^ 32 + v.bufferPos - v.rep0 := by
    rw [Vars.distancePos]
    omega
  have hneg : 2 ^ 31 ≤ v.distancePos := by
    rw [hdist]
    omega
  refine ⟨hneg, ?_⟩
  rw [Vars.matchPos, if_pos hneg, hdist]
  omega

/-- The last byte was copied from the buffer, in front of which it was stored. -/
def Vars.Copied (header : Header) (v : Vars) : Prop :=
  (0 < v.bufferPos ∧ (v.rep0 < v.bufferPos ∨ v.rep0 < v.bufferPos + header.dictSize ∧
    v.bufferPos + header.dictSize ≤ v.rep0 + header.bufferSize)) ∨
  (v.bufferPos = 0 ∧ header.dictSize ≤ header.dstSize ∧ v.rep0 < 2 * header.dictSize)

theorem Vars.Copied.inside_iff (hcopied : v.Copied header) (hok : v.Ok header)
    (hpos : v.bufferPos < header.bufferSize) :
    v.matchPos header < header.bufferSize ↔ Matched.Inside ⟨header, v.bufferPos, v.rep0⟩ := by
  have hmin := header.bufferSize_eq
  have hrep := hok.rep0
  rw [Matched.Inside]
  dsimp only
  by_cases hle : v.rep0 ≤ v.bufferPos
  · refine iff_of_true (Vars.matchPos_of_le hrep hpos hle) ?_
    omega
  · rw [(Vars.matchPos_of_lt hrep hpos (by omega)).2]
    rcases hcopied with ⟨hpos0, hcases⟩ | ⟨hzero, hlong, htwice⟩
    · omega
    · rw [Distance] at hrep
      omega

end

/-! ### The loop -/

section

variable {p : List Matched → Prop} {header : Header} {transformerWrite : List Str → Str → ℤ}

theorem readBuffer_stays {i : ℕ} (hi : i < header.bufferSize) :
    Stays (fun m => p m.matched) Quiet (readBuffer header i) (fun _ => True) := by
  intro m hm
  rw [readBuffer, if_pos hi]
  exact ⟨hm, nofun, fun a _ => trivial⟩

theorem writeBuffer_stays {i : ℕ} {c : UInt8} (hi : i < header.bufferSize) :
    Stays (fun m => p m.matched) Quiet (writeBuffer header i c) (fun _ => True) := by
  intro m hm
  rw [writeBuffer, if_pos hi]
  exact ⟨hm, nofun, fun a _ => trivial⟩

theorem flush_stays {size : ℕ} (hsize : size ≤ header.bufferSize) :
    Stays (fun m => p m.matched) Quiet (flush header transformerWrite size) (fun _ => True) := by
  intro m hm
  rw [flush]
  dsimp only
  rw [if_neg (Nat.not_lt.mpr hsize)]
  split
  · exact ⟨hm, nofun, fun a _ => trivial⟩
  · exact ⟨hm, fun e he => by cases he; exact ⟨nofun, nofun⟩, fun a _ => trivial⟩

/-- What storing a byte does to the variables. -/
structure Stored (header : Header) (v v' : Vars) : Prop where
  ok : v'.Ok header
  state : v'.state = v.state
  rep0 : v'.rep0 = v.rep0
  pos : v'.bufferPos = v.bufferPos + 1 ∨
    v'.bufferPos = 0 ∧ v.bufferPos + 1 = header.dictSize ∧ header.dictSize ≤ header.dstSize

theorem storeByte_stays {v : Vars} (hok : v.Ok header) (hpos : v.bufferPos < header.bufferSize) :
    Stays (fun m => p m.matched) Quiet (storeByte header transformerWrite v) (Stored header v) := by
  have hmin := header.bufferSize_eq
  refine (writeBuffer_stays hpos).bind fun _ _ => Stays.ite (fun hfull => ?_) fun hfull => ?_
  · refine (flush_stays (by omega)).bind fun _ _ => Stays.pure ?_
    refine ⟨⟨hok.state, hok.rep0, hok.rep1, hok.rep2, hok.rep3, header.dictSize_pos,
      Nat.zero_le _, fun hshort => ?_⟩, rfl, rfl, Or.inr ⟨rfl, hfull, by omega⟩⟩
    omega
  · have hlt := hok.lt
    refine Stays.pure ⟨⟨hok.state, hok.rep0, hok.rep1, hok.rep2, hok.rep3, ?_, ?_, hok.short⟩, rfl,
      rfl, Or.inl rfl⟩
    · show v.bufferPos + 1 < header.dictSize
      omega
    · exact hpos

theorem copyByte_stays {v : Vars} (hok : v.Ok header) (hpos : v.bufferPos < header.bufferSize) :
    Stays (fun m => p m.matched) Quiet (copyByte header v) (fun v' =>
      (∃ c, v' = { v with previousByte := c }) ∧ (v.rep0 ≤ v.bufferPos ∨
        v.rep0 ≤ v.bufferPos + header.dictSize ∧
          v.bufferPos + header.dictSize < v.rep0 + header.bufferSize)) := by
  refine Stays.ite (fun _ => Stays.fail ⟨nofun, nofun⟩) fun hread => ?_
  by_cases hle : v.rep0 ≤ v.bufferPos
  · refine (readBuffer_stays (Vars.matchPos_of_le hok.rep0 hpos hle)).bind fun c _ => ?_
    exact Stays.pure ⟨⟨c, rfl⟩, Or.inl hle⟩
  · obtain ⟨hneg, hiff⟩ := Vars.matchPos_of_lt hok.rep0 hpos (Nat.lt_of_not_le hle)
    have hlt : v.matchPos header < header.bufferSize :=
      Nat.lt_of_not_le fun hge => hread ⟨hneg, hge⟩
    exact (readBuffer_stays hlt).bind fun c _ => Stays.pure ⟨⟨c, rfl⟩, Or.inr (hiff.mp hlt)⟩

theorem Stored.copied {v v' : Vars} (h : Stored header v v') (hok : v.Ok header)
    (hcopy : v.rep0 ≤ v.bufferPos ∨ v.rep0 ≤ v.bufferPos + header.dictSize ∧
      v.bufferPos + header.dictSize < v.rep0 + header.bufferSize) : v'.Copied header := by
  have hlt := hok.lt
  rw [Vars.Copied, h.rep0]
  rcases h.pos with hpos | ⟨hzero, hfull, hlong⟩
  · left
    omega
  · right
    omega

theorem Vars.Ok.withByte {v : Vars} (hok : v.Ok header) (c : UInt8) :
    Vars.Ok header { v with previousByte := c } :=
  ⟨hok.state, hok.rep0, hok.rep1, hok.rep2, hok.rep3, hok.lt, hok.le, hok.short⟩

theorem copyRound_stays {v : Vars} (hok : v.Ok header) (hpos : v.bufferPos < header.bufferSize) :
    Stays (fun m => p m.matched) Quiet
      (do
        let v ← copyByte header v
        storeByte header transformerWrite v)
      (fun v' => v'.Ok header ∧ v'.Copied header) := by
  refine (copyByte_stays hok hpos).bind ?_
  rintro _ ⟨⟨c, rfl⟩, hcopy⟩
  exact (storeByte_stays (hok.withByte c) hpos).weaken fun v' hstored =>
    ⟨hstored.ok, hstored.copied (hok.withByte c) hcopy⟩

theorem copyWhile_stays {copy : Vars → Action Vars} (hcopy : ∀ v, v.Ok header →
      v.bufferPos < header.bufferSize → Stays (fun m => p m.matched) Quiet (copy v)
        (fun v' => v'.Ok header ∧ v'.Copied header))
    {len : ℕ} {v : Vars} (hok : v.Ok header) (hpos : v.bufferPos < header.bufferSize) :
    Stays (fun m => p m.matched) Quiet (copyWhile copy header.dstSize (len + 1) v)
      (fun v' => v'.Ok header ∧ v'.Copied header) := by
  induction len generalizing v with
  | zero =>
    refine (hcopy v hok hpos).bind fun v' hv' => ?_
    exact Stays.ite (fun h => absurd rfl h.1) fun _ => Stays.pure hv'
  | succ len ih =>
    refine (hcopy v hok hpos).bind fun v' hv' => Stays.ite (fun hgo => ?_) fun _ => Stays.pure hv'
    have hlt := hv'.1.lt
    refine ih hv'.1 ?_
    rw [header.bufferSize_eq]
    omega

theorem copyMatch_stays {len : ℕ} {v : Vars} (hok : v.Ok header)
    (hpos : v.bufferPos < header.bufferSize) (hlen : 0 < len) :
    Stays (fun m => p m.matched) Quiet (copyMatch header transformerWrite len v)
      (fun v' => v'.Ok header ∧ v'.Copied header) := by
  obtain ⟨len, rfl⟩ := Nat.exists_eq_succ_of_ne_zero (Nat.ne_of_gt hlen)
  exact copyWhile_stays (fun v hok hpos => copyRound_stays hok hpos) hok hpos

theorem and_mask_lt (x : ℕ) {k : ℕ} (hk : k ≤ 4) : x &&& (2 ^ k - 1) < 16 := by
  have hle : x &&& (2 ^ k - 1) ≤ 2 ^ k - 1 := Nat.and_le_right
  have hpow : 2 ^ k ≤ 2 ^ 4 := Nat.pow_le_pow_right (by decide) hk
  omega

/-- A match is one of the variables, with another state and other distances. -/
structure Decoded (header : Header) (v : Vars) (r : Vars × ℕ) : Prop where
  ok : r.1.Ok header
  pos : r.1.bufferPos = v.bufferPos
  len : 0 < r.2

theorem finishMatch_stays {v w : Vars} {prob posState : ℕ} (hok : v.Ok header)
    (hsame : v.bufferPos = w.bufferPos) (hprob : prob + 514 ≤ header.numProbs)
    (hpos : posState < 16) :
    Stays (fun m => p m.matched) Quiet (finishMatch header v prob posState)
      (fun r => ∀ r' ∈ r, Decoded header w r') := by
  refine (decodeLen_stays hprob hpos).bind fun len _ => Stays.ite (fun hstate => ?_) fun _ => ?_
  · refine decodeDistance_stays.bind fun rep0 _ => Stays.ite (fun _ => ?_) fun hzero => ?_
    · exact Stays.pure fun r' hr' => by cases hr'
    · refine Stays.ite (fun _ => Stays.fail ⟨nofun, nofun⟩) fun hsmall => Stays.pure ?_
      rintro _ ⟨⟩
      have hrep0 : Distance ((rep0 + 1) % 2 ^ 32) :=
        ⟨Nat.pos_of_ne_zero hzero, Nat.lt_of_not_le hsmall⟩
      refine ⟨⟨?_, hrep0, hok.rep1, hok.rep2, hok.rep3, hok.lt, hok.le, hok.short⟩, hsame,
        Nat.succ_pos _⟩
      show v.state + 7 < 12
      omega
  · refine Stays.pure ?_
    rintro _ ⟨⟩
    exact ⟨hok, hsame, Nat.succ_pos _⟩

/-- The state after a match with a distance that was there before. -/
theorem Vars.Ok.withState {v : Vars} (hok : v.Ok header) {state : ℕ} (hstate : state < 12) :
    Vars.Ok header { v with state := state } :=
  ⟨hstate, hok.rep0, hok.rep1, hok.rep2, hok.rep3, hok.lt, hok.le, hok.short⟩

theorem otherRep_stays {v : Vars} (hok : v.Ok header) :
    Stays (fun m => p m.matched) Quiet (otherRep header v)
      (fun v' => v'.Ok header ∧ v'.bufferPos = v.bufferPos) := by
  have hprobs := header.le_numProbs
  have hstate := hok.state
  refine (rcIsBit1_stays (by omega)).bind fun _ _ => Stays.ite (fun _ => ?_) fun _ => ?_
  · refine (rcIsBit1_stays (by omega)).bind fun _ _ => Stays.ite (fun _ => ?_) fun _ => ?_
    · exact Stays.pure ⟨⟨hstate, hok.rep3, hok.rep0, hok.rep1, hok.rep2, hok.lt, hok.le, hok.short⟩,
        rfl⟩
    · exact Stays.pure ⟨⟨hstate, hok.rep2, hok.rep0, hok.rep1, hok.rep3, hok.lt, hok.le, hok.short⟩,
        rfl⟩
  · exact Stays.pure ⟨⟨hstate, hok.rep1, hok.rep0, hok.rep2, hok.rep3, hok.lt, hok.le, hok.short⟩,
      rfl⟩

theorem ite_lt {c : Prop} [Decidable c] {a b n : ℕ} (ha : a < n) (hb : b < n) :
    (if c then a else b) < n := by
  split
  · exact ha
  · exact hb

theorem decodeMatch_stays {v : Vars} {posState : ℕ} (hok : v.Ok header) (hpos : posState < 16) :
    Stays (fun m => p m.matched) Quiet (decodeMatch header v posState)
      (fun r => ∀ r' ∈ r, Decoded header v r') := by
  have hprobs := header.le_numProbs
  have hstate := hok.state
  refine (rcIsBit1_stays (by omega)).bind fun _ _ => Stays.ite (fun _ => ?_) fun _ => ?_
  · refine (rcIsBit1_stays (by omega)).bind fun _ _ => Stays.ite (fun _ => ?_) fun _ => ?_
    · refine (otherRep_stays hok).bind fun v' hv' => ?_
      have hok' : Vars.Ok header { v' with state := if v'.state < 7 then 8 else 11 } :=
        hv'.1.withState (ite_lt (by decide) (by decide))
      exact finishMatch_stays hok' hv'.2 (by omega) hpos
    · refine (rcIsBit1_stays (by omega)).bind fun _ _ => Stays.ite (fun _ => ?_) fun _ => ?_
      · exact finishMatch_stays (hok.withState (ite_lt (by decide) (by decide))) rfl (by omega) hpos
      · refine Stays.pure ?_
        rintro _ ⟨⟩
        exact ⟨hok.withState (ite_lt (by decide) (by decide)), rfl, Nat.one_pos⟩
  · refine finishMatch_stays ⟨?_, hok.rep0, hok.rep0, hok.rep1, hok.rep2, hok.lt, hok.le, hok.short⟩
      rfl (by omega) hpos
    exact ite_lt (by decide) (by decide)

end

/-! ### Literals -/

section

variable {header : Header} {transformerWrite : List Str → Str → ℤ}

/-- The literals after a match are all right. -/
def AllInside (matched : List Matched) : Prop := ∀ e ∈ matched, e.Inside

abbrev Good (m : Mem) : Prop := AllInside m.matched

theorem pure_guards {α : Type} {a : α} {S : α → Prop} (h : S a) :
    Guards Good Stop.outside (pure a : Action α) S := by
  refine fun m hm => Or.inl ⟨hm, nofun, fun b hb => ?_⟩
  rw [← Except.ok.inj hb]
  exact h

variable (header) in
theorem literalProb_room (v : Vars) : literalProb header v + 0x300 ≤ header.numProbs := by
  have hlc : header.lc ≤ 8 := by
    rw [Header.lc]
    omega
  have hmask : v.position &&& (2 ^ header.lp - 1) ≤ 2 ^ header.lp - 1 := Nat.and_le_right
  have hbyte : v.previousByte.toNat / 2 ^ (8 - header.lc) < 2 ^ header.lc := by
    rw [Nat.div_lt_iff_lt_mul (Nat.two_pow_pos _), ← Nat.pow_add, Nat.add_sub_cancel' hlc]
    exact v.previousByte.toNat_lt
  have hlp := Nat.two_pow_pos header.lp
  have hindex : (v.position &&& (2 ^ header.lp - 1)) * 2 ^ header.lc +
      v.previousByte.toNat / 2 ^ (8 - header.lc) < 2 ^ (header.lc + header.lp) := by
    calc _ < (v.position &&& (2 ^ header.lp - 1)) * 2 ^ header.lc + 2 ^ header.lc :=
          Nat.add_lt_add_left hbyte _
      _ = ((v.position &&& (2 ^ header.lp - 1)) + 1) * 2 ^ header.lc := by rw [Nat.succ_mul]
      _ ≤ 2 ^ header.lp * 2 ^ header.lc := Nat.mul_le_mul_right _ (by omega)
      _ = 2 ^ (header.lc + header.lp) := by rw [Nat.add_comm, Nat.pow_add]
  rw [literalProb, Header.numProbs]
  omega

theorem note_good {v : Vars} {m : Mem} (hm : Good m)
    (hinside : Matched.Inside ⟨header, v.bufferPos, v.rep0⟩) : Good (note header v m).2 := by
  intro e he
  rcases List.mem_append.mp he with he | he
  · exact hm e he
  · rw [List.mem_singleton.mp he]
    exact hinside

/-- The byte that the match would copy is read from the buffer, or the literal is not all right. -/
theorem matchedLiteral_guards {v : Vars} (hok : v.Ok header) (hcopied : v.Copied header)
    (hpos : v.bufferPos < header.bufferSize) :
    Guards Good .outside (matchedLiteral header v) (fun _ => True) := by
  intro m hm
  have hnote : note header v m = (.ok (), (note header v m).2) := rfl
  rw [matchedLiteral, Guarded.bind_ok hnote]
  by_cases hinside : Matched.Inside ⟨header, v.bufferPos, v.rep0⟩
  · have hroom := literalProb_room header v
    have hrest : Stays Good Quiet (do
        let matchByte ← readBuffer header (v.matchPos header)
        matchedBits header (literalProb header v) 8 matchByte.toNat 1) (fun _ => True) :=
      (readBuffer_stays ((hcopied.inside_iff hok hpos).mpr hinside)).bind fun c _ =>
        matchedBits_stays hroom (by decide)
    exact hrest.guards (fun h => h.1 rfl) _ (note_good hm hinside)
  · have hlarge : ¬ v.matchPos header < header.bufferSize :=
      fun h => hinside ((hcopied.inside_iff hok hpos).mp h)
    have hread : readBuffer header (v.matchPos header) (note header v m).2 =
        (.error .outside, (note header v m).2) := if_neg hlarge
    rw [Guarded.bind_error hread]
    refine Or.inr ⟨rfl, fun hgood => hinside (hgood _ ?_)⟩
    exact List.mem_append_right _ (List.mem_singleton.mpr rfl)

theorem nextState_lt : ∀ state < 12, nextState.getD state 0 < 7 := by decide

/-- What holds in front of a packet. -/
structure Vars.Settled (header : Header) (v : Vars) : Prop where
  ok : v.Ok header
  copied : 7 ≤ v.state → v.Copied header

theorem decodeLiteral_guards {v : Vars} (hv : v.Settled header)
    (hpos : v.bufferPos < header.bufferSize) :
    Guards Good .outside (decodeLiteral header transformerWrite v) (Vars.Settled header) := by
  have hroom := literalProb_room header v
  refine Guards.bind (S := fun _ => True) ?_ fun mi _ => ?_
  · refine Guards.ite (fun hstate => ?_) fun _ => pure_guards trivial
    exact matchedLiteral_guards hv.ok (hv.copied hstate) hpos
  · have hstate := nextState_lt v.state hv.ok.state
    have hstays : Stays Good Quiet (do
        let mi ← literalBits header (literalProb header v) 8 mi
        storeByte header transformerWrite { v with
          state := nextState.getD v.state 0
          previousByte := UInt8.ofNat mi }) (Vars.Settled header) := by
      refine (literalBits_stays (by omega)).bind fun mi _ => ?_
      have hok := (hv.ok.withState (Nat.lt_trans hstate (by decide))).withByte (UInt8.ofNat mi)
      refine (storeByte_stays hok hpos).weaken fun v' hstored => ⟨hstored.ok, fun hseven => ?_⟩
      rw [hstored.state] at hseven
      exact absurd hstate (Nat.not_lt.mpr hseven)
    exact hstays.guards fun h => h.1 rfl

/-! ### All packets -/

theorem Vars.Ok.pos_lt {v : Vars} (hok : v.Ok header) (hmore : v.position < header.dstSize) :
    v.bufferPos < header.bufferSize := by
  have hlt := hok.lt
  have hdict := header.dictSize_lt
  rw [header.bufferSize_eq]
  by_cases hshort : header.dstSize < header.dictSize
  · rw [Vars.position, hok.short hshort] at hmore
    omega
  · omega

theorem packet_guards {v : Vars} (hv : v.Settled header) (hmore : v.position < header.dstSize) :
    Guards Good .outside (packet header transformerWrite v)
      (fun r => r.1.Ok header ∧ (r.2 = false → r.1.Settled header)) := by
  have hpos := hv.ok.pos_lt hmore
  have hprobs := header.le_numProbs
  have hstate := hv.ok.state
  have hpb : header.pb ≤ 4 := by
    have hlt := header.pos_lt
    rw [Header.pb]
    omega
  have hposState := and_mask_lt v.position hpb
  refine Guards.bind (S := fun _ => True) ?_ fun isMatch _ => Guards.ite (fun _ => ?_) fun _ => ?_
  · have hindex : v.state * 2 ^ 4 + (v.position &&& (2 ^ header.pb - 1)) < header.numProbs := by
      omega
    exact (rcIsBit1_stays hindex).guards fun h => h.1 rfl
  · refine Stays.guards ((decodeMatch_stays hv.ok hposState).bind fun r hr => ?_) fun h => h.1 rfl
    cases r with
    | none =>
      refine Stays.pure ⟨hv.ok, fun hgo => ?_⟩
      cases hgo
    | some r =>
      obtain ⟨hok, hsame, hlen⟩ := hr r rfl
      refine (copyMatch_stays hok (hsame ▸ hpos) hlen).bind fun v' hv' => ?_
      exact Stays.pure ⟨hv'.1, fun _ => ⟨hv'.1, fun _ => hv'.2⟩⟩
  · refine (decodeLiteral_guards hv hpos).bind fun v' hv' => ?_
    exact pure_guards ⟨hv'.ok, fun _ => hv'⟩

theorem packetsWhile_guards {packet : Vars → Action (Vars × Bool)}
    (hpacket : ∀ v, v.Settled header → v.position < header.dstSize →
      Guards Good .outside (packet v)
        (fun r => r.1.Ok header ∧ (r.2 = false → r.1.Settled header)))
    {fuel : ℕ} {v : Vars} (hv : v.Settled header) :
    Guards Good .outside (packetsWhile packet header.dstSize fuel v) (Vars.Ok header) := by
  induction fuel generalizing v with
  | zero => exact fun m hm => Or.inl ⟨hm, nofun, nofun⟩
  | succ fuel ih =>
    refine Guards.ite (fun hmore => (hpacket v hv hmore).bind ?_) fun _ => ?_
    · rintro ⟨v', ended⟩ ⟨hok, hsettled⟩
      refine Guards.ite (fun _ => ?_) fun hgo => ih (hsettled (by simpa using hgo))
      exact pure_guards hok
    · exact pure_guards hv.ok

theorem rcInit_stays : Stays Good Quiet rcInit (fun _ => True) := by
  have hone : Stays Good Quiet rcDoNormalize (fun _ => True) := rcDoNormalize_stays
  refine hone.bind fun _ _ => hone.bind fun _ _ => hone.bind fun _ _ => hone.bind fun _ _ =>
    hone.bind fun _ _ m hm => ⟨hm, nofun, fun a _ => trivial⟩

theorem start_settled : start.Settled header := by
  have hone : Distance 1 := by
    rw [Distance]
    decide
  exact ⟨⟨by decide, hone, hone, hone, hone, header.dictSize_pos, Nat.zero_le _, fun _ => rfl⟩,
    fun h => absurd h (by decide)⟩

variable (header transformerWrite) in
theorem unpack_guards (fuel : ℕ) :
    Guards Good .outside (unpack header transformerWrite fuel) (fun _ => True) := by
  refine Guards.bind (S := fun _ => True) (rcInit_stays.guards fun h => h.1 rfl) fun _ _ => ?_
  refine (packetsWhile_guards (fun v hv hmore => packet_guards hv hmore) start_settled).bind ?_
  intro v hok
  have hstays : Stays Good Quiet (do
      flush header transformerWrite v.bufferPos
      pure ((v.totalWritten : ℤ) + v.bufferPos)) (fun _ => True) :=
    (flush_stays hok.le).bind fun _ _ => Stays.pure trivial
  exact hstays.guards fun h => h.1 rfl

end

/-- The indices are all in their bounds if and only if every literal after a match is all right. -/
theorem unpackLzmaStream_inside_iff (transformerWrite : List Str → Str → ℤ) (mem : ℕ → UInt8)
    (fuel : ℕ) (file : Str) :
    (unpackLzmaStream transformerWrite mem fuel file).1 ≠ .error .outside ↔
      ∀ e ∈ (unpackLzmaStream transformerWrite mem fuel file).2, e.Inside := by
  rw [unpackLzmaStream]
  cases hread : readHeader file with
  | none => exact iff_of_true nofun (fun e he => absurd he List.not_mem_nil)
  | some r =>
    obtain ⟨header, input⟩ := r
    have hguards := unpack_guards header transformerWrite fuel
      ⟨input, 0, 0, fun _ => 2 ^ 10, mem, [], []⟩ (fun e he => absurd he List.not_mem_nil)
    dsimp only
    generalize unpack header transformerWrite fuel ⟨input, 0, 0, fun _ => 2 ^ 10, mem, [], []⟩ = x
      at hguards ⊢
    obtain ⟨r, m⟩ := x
    rcases hguards with ⟨hgood, hinside, -⟩ | ⟨houtside, hbad⟩
    · cases r with
      | ok n => exact iff_of_true nofun hgood
      | error e =>
        cases e with
        | die msg => exact iff_of_true nofun hgood
        | bad => exact iff_of_true nofun hgood
        | outside => exact absurd rfl hinside
        | spin => exact iff_of_true nofun hgood
    · dsimp only at houtside
      subst houtside
      exact iff_of_false (fun h => h rfl) hbad

/-- A match of distance 6 at the start of 4 bytes with a dictionary of 8, and a literal. -/
def farMatch : Str := [0, 8, 0, 0, 0, 4, 0, 0, 0, 0, 0, 0, 0, 0, 128, 71, 252, 0, 0]

/-- The literal is decoded with the byte behind the output buffer. -/
theorem unpackLzmaStream_farMatch :
    ¬ ∀ transformerWrite mem fuel file,
      (unpackLzmaStream transformerWrite mem fuel file).1 ≠ .error .outside := by
  intro h
  refine h (fun _ s => s.length) (fun _ => 0) 2 farMatch ?_
  decide +kernel

end Rustybox.Unlzma
