import Rustybox.Tftp.Protocol
import Mathlib.Data.List.TakeDrop

/-!
# What a party does

A sender and a receiver are told apart by what they keep true.  For each of them there is one lemma
about a packet that comes: either it stays at its block and sends no more than error packets and an
ACK of block 0, or it goes on to the next block and sends one packet for it.
-/

namespace Rustybox.Tftp

/-! ### Blocks -/

/-- The block that comes after the first `k`. -/
def Transfer.chunk (t : Transfer) (k : ℕ) : List UInt8 :=
  (t.file.drop (k * t.blksize)).take t.blksize

theorem take_chunk (t : Transfer) (k : ℕ) :
    t.file.take (k * t.blksize) ++ t.chunk k = t.file.take ((k + 1) * t.blksize) := by
  rw [Transfer.chunk, Nat.succ_mul, List.take_add]

theorem take_total {t : Transfer} (hb : 0 < t.blksize) :
    t.file.take (t.total * t.blksize) = t.file := by
  refine List.take_of_length_le ?_
  have := Nat.lt_div_mul_add hb (a := t.file.length)
  rw [Transfer.total, Nat.succ_mul]
  omega

theorem length_chunk {t : Transfer} (hb : 0 < t.blksize) {k : ℕ} (hk : k < t.total) :
    (t.chunk k).length ≠ t.blksize ↔ k + 1 = t.total := by
  rw [Transfer.total] at hk ⊢
  rw [Transfer.chunk, List.length_take, List.length_drop]
  constructor
  · intro h
    by_contra hne
    have hlt : k + 1 ≤ t.file.length / t.blksize := by omega
    have := (Nat.le_div_iff_mul_le hb).mp hlt
    rw [Nat.succ_mul] at this
    omega
  · intro h
    have hkdiv : k = t.file.length / t.blksize := by omega
    have := Nat.lt_div_mul_add hb (a := t.file.length)
    rw [← hkdiv] at this
    omega

theorem ofNat_succ (n : ℕ) : UInt16.ofNat n + 1 = UInt16.ofNat (n + 1) := by
  rw [UInt16.ofNat_add]
  rfl

theorem ofNat_pred (n : ℕ) : UInt16.ofNat (n + 1) - 1 = UInt16.ofNat n := by
  rw [← ofNat_succ, UInt16.add_sub_cancel]

theorem block_eq {m n : ℕ} (h : UInt16.ofNat m = UInt16.ofNat n) (hle : m ≤ n)
    (hage : n ≤ m + 65535) : m = n := by
  have := congrArg UInt16.toNat h
  rw [UInt16.toNat_ofNat', UInt16.toNat_ofNat'] at this
  omega

/-! ### Packets and parties -/

/-- The server acknowledges options. -/
def Transfer.AcksOptions (t : Transfer) : Prop :=
  t.blksize ≠ 512 ∨ t.wantTransferSize = true ∧ t.upload = false

/-- DATA or ACK. -/
def Packet.IsBlock : Packet → Prop
  | data _ _ => True
  | ack _ => True
  | _ => False

/-- What a sender (or, without `put`, a receiver) may send when it is at block `k`. -/
def Packet.Fits (t : Transfer) (put : Bool) (k : ℕ) : Packet → Prop
  | request write blksize tsize => put = t.upload ∧ write = t.upload ∧
      blksize = blksizeOption t.blksize ∧ tsize = t.wantTransferSize
  | data blk bytes => put = true ∧ 24 ≤ t.blksize ∧ 0 < k ∧ k ≤ t.total ∧ blk = UInt16.ofNat k ∧
      bytes = t.chunk (k - 1)
  | ack blk => put = false ∧ 24 ≤ t.blksize ∧ blk = UInt16.ofNat k
  | error _ _ => True
  | oack blksize _ => put = !t.upload ∧ 24 ≤ t.blksize ∧ blksize = blksizeOption t.blksize ∧
      t.AcksOptions

/-- **What a party keeps true.** -/
structure Party.Valid (t : Transfer) (p : Party) : Prop where
  size : p.blksize = t.blksize
  bufsize : p.ioBufsize = t.blksize + 4
  big : 0 < p.blocks → 24 ≤ t.blksize
  le : p.blocks ≤ t.total
  file : p.file = if p.put then t.file.drop (p.blocks * t.blksize)
    else t.file.take (p.blocks * t.blksize)
  nr : p.result = none → p.blockNr = UInt16.ofNat (p.blocks + 1)
  finished : p.finished = true ↔ p.blocks = t.total
  waiting : p.expectOack = true → p.blocks = 0
  xbuf : p.xbuf.Fits t p.put p.blocks
  done : p.result = some 0 → p.finished = true
  exited : p.put = false → p.finished = true → p.result = some 0

/-- **A valid reaction** to a packet, or to the end of a wait. -/
structure Reacts (t : Transfer) (p : Party) (cause : Option Packet) (r : Reaction) : Prop where
  valid : r.1.Valid t
  put : r.1.put = p.put
  sent : ∀ q ∈ r.2, q.Fits t p.put r.1.blocks
  blocks : r.1.blocks = p.blocks ∨ r.1.blocks = p.blocks + 1 ∧ cause ≠ none
  buffered : r.1.xbuf.IsBlock →
    p.xbuf.IsBlock ∨ (∃ q, cause = some q ∧ q.IsBlock) ∨ p.expectOack = true
  early : ∀ q ∈ r.2, q.IsBlock →
    p.xbuf.IsBlock ∨ (∃ q, cause = some q ∧ q.IsBlock) ∨ p.expectOack = true
  expecting : r.1.expectOack = true →
    p.expectOack = true ∧ r.1.xbuf = p.xbuf ∧ ∀ q ∈ r.2, q.IsBlock → q = p.xbuf

theorem total_pos (t : Transfer) : 0 < t.total := Nat.succ_pos _

theorem Party.Valid.not_finished {t : Transfer} {p : Party} (h : p.Valid t)
    (hlt : p.blocks < t.total) : p.finished = false := by
  rw [← Bool.not_eq_true, h.finished]
  omega

theorem valid_ret {t : Transfer} {p : Party} (h : p.Valid t) : p.ret.Valid t where
  size := h.size
  bufsize := h.bufsize
  big := h.big
  le := h.le
  file := h.file
  nr hnone := by cases hnone
  finished := h.finished
  waiting := h.waiting
  xbuf := h.xbuf
  done hzero := by simpa [Party.ret] using hzero
  exited _ hfinished := by
    have : p.finished = true := hfinished
    simp [Party.ret, this]

theorem reacts_ret {t : Transfer} {p : Party} {cause : Option Packet} (h : p.Valid t) :
    Reacts t p cause (p.ret, []) where
  valid := valid_ret h
  put := rfl
  sent q hq := by cases hq
  blocks := Or.inl rfl
  buffered hx := Or.inl hx
  early q hq := by cases hq
  expecting he := ⟨he, rfl, fun q hq => by cases hq⟩

theorem valid_opcode {t : Transfer} {p : Party} (opcode : UInt16) (h : p.Valid t) :
    Party.Valid t { p with opcode := opcode } :=
  ⟨h.size, h.bufsize, h.big, h.le, h.file, h.nr, h.finished, h.waiting, h.xbuf, h.done, h.exited⟩

theorem valid_retries {t : Transfer} {p : Party} (retries : ℕ) (h : p.Valid t) :
    Party.Valid t { p with retries := retries } :=
  ⟨h.size, h.bufsize, h.big, h.le, h.file, h.nr, h.finished, h.waiting, h.xbuf, h.done, h.exited⟩

theorem reacts_stay {t : Transfer} {p p' : Party} {cause : Option Packet} (h : p'.Valid t)
    (hput : p'.put = p.put) (hblocks : p'.blocks = p.blocks) (hxbuf : p'.xbuf = p.xbuf)
    (hexpect : p'.expectOack = true → p.expectOack = true) : Reacts t p cause (p', []) where
  valid := h
  put := hput
  sent q hq := by cases hq
  blocks := Or.inl hblocks
  buffered hx := Or.inl (hxbuf ▸ hx)
  early q hq := by cases hq
  expecting he := ⟨hexpect he, hxbuf, fun q hq => by cases hq⟩

theorem reacts_fail {t : Transfer} {p p' : Party} {cause : Option Packet} {code : UInt16}
    {msg : String} (h : p.Valid t) (hrunning : p.result = none) (hput : p'.put = p.put)
    (hsize : p'.blksize = p.blksize) (hbuf : p'.ioBufsize = p.ioBufsize)
    (hfile : p'.file = p.file) (hfinished : p'.finished = p.finished)
    (hblocks : p'.blocks = p.blocks) (hxbuf : p'.xbuf = p.xbuf)
    (hexpect : p'.expectOack = true → p.expectOack = true) :
    Reacts t p cause (p'.fail code msg) where
  valid := {
    size := hsize.trans h.size
    bufsize := hbuf.trans h.bufsize
    big := by rw [Party.fail]; exact hblocks ▸ h.big
    le := by rw [Party.fail]; exact hblocks ▸ h.le
    file := by
      have := h.file
      rw [Party.fail]
      dsimp only
      rw [hfile, hput, hblocks]
      exact this
    nr hnone := by cases hnone
    finished := by
      have := h.finished
      rw [Party.fail]
      dsimp only
      rw [hfinished, hblocks]
      exact this
    waiting he := hblocks.trans (h.waiting (hexpect he))
    xbuf := by
      rw [Party.fail]
      dsimp only
      rw [hxbuf, hput, hblocks]
      exact h.xbuf
    done hzero := by cases hzero
    exited hreceiver hf := by
      have := h.exited (hput.symm.trans hreceiver) (hfinished.symm.trans hf)
      rw [hrunning] at this
      cases this }
  put := hput
  sent q hq := by
    rw [List.mem_singleton.mp hq]
    trivial
  blocks := Or.inl hblocks
  buffered hx := Or.inl (hxbuf ▸ hx)
  early q hq hblock := by
    rw [List.mem_singleton.mp hq] at hblock
    cases hblock
  expecting he := by
    refine ⟨hexpect he, hxbuf, fun q hq hblock => ?_⟩
    rw [List.mem_singleton.mp hq] at hblock
    cases hblock

/-! ### Sending -/

theorem reacts_timeout {t : Transfer} {p : Party} (h : p.Valid t) : Reacts t p none p.timeout := by
  rw [Party.timeout]
  split
  · exact reacts_ret h
  rw [Party.emit]
  refine ⟨?_, ?_, ?_, ?_, ?_, ?_, ?_⟩
  · dsimp only
    split
    · exact valid_ret (valid_retries _ h)
    · exact valid_retries _ h
  · dsimp only
    split
    · rfl
    · rfl
  · intro q hq
    rw [List.mem_singleton.mp hq]
    dsimp only
    split
    · exact h.xbuf
    · exact h.xbuf
  · refine Or.inl ?_
    dsimp only
    split
    · rfl
    · rfl
  · dsimp only
    split
    · exact Or.inl
    · exact Or.inl
  · intro q hq hblock
    rw [List.mem_singleton.mp hq] at hblock
    exact Or.inl hblock
  · dsimp only
    split
    · exact fun he => ⟨he, rfl, fun q hq _ => List.mem_singleton.mp hq⟩
    · exact fun he => ⟨he, rfl, fun q hq _ => List.mem_singleton.mp hq⟩

/-! ### The next packet -/

/-- The outcome of building a packet for block `blocks`, or of failing to. -/
structure Built (t : Transfer) (role : Bool) (blocks : ℕ) (r : Reaction) : Prop where
  valid : r.1.Valid t
  put : r.1.put = role
  sent : ∀ q ∈ r.2, q.Fits t role r.1.blocks
  blocks : r.1.blocks ≤ blocks ∧ blocks ≤ r.1.blocks + 1
  expecting : r.1.expectOack = false

/-- Something new is built in answer to a DATA or ACK, or to the first reply of the server. -/
theorem Built.reacts {t : Transfer} {p : Party} {q : Packet} {r : Reaction}
    (h : Built t p.put (p.blocks + 1) r) (hq : q.IsBlock ∨ p.expectOack = true) :
    Reacts t p (some q) r where
  valid := h.valid
  put := h.put
  sent := h.sent
  blocks := by
    have hle := h.blocks
    rcases Nat.lt_or_ge r.1.blocks (p.blocks + 1) with hlt | hge
    · exact Or.inl (by omega)
    · exact Or.inr ⟨by omega, by simp⟩
  buffered _ := Or.inr (hq.imp (fun hblock => ⟨q, rfl, hblock⟩) id)
  early _ _ _ := Or.inr (hq.imp (fun hblock => ⟨q, rfl, hblock⟩) id)
  expecting he := by
    rw [h.expecting] at he
    cases he

theorem send_of_opcode {p : Party} (h : p.opcode ≠ 4) :
    p.send = ({ p with retries := 12 }, [p.xbuf]) := by
  rw [Party.send, Party.emit, if_neg fun hand => h hand.2]

/-- **The sender builds DATA.** -/
theorem built_sender {t : Transfer} {p : Party} (io : Bool) (h : p.Valid t) (hput : p.put = true)
    (hrunning : p.result = none) (hexpect : p.expectOack = false) (hb : 24 ≤ t.blksize)
    (hlt : p.blocks < t.total) :
    Built t true (p.blocks + 1) (p.build io) ∧ (p.build io).1.result ≠ some 0 := by
  have hfile := h.file
  rw [if_pos hput] at hfile
  have hnf := h.not_finished hlt
  rw [Party.build]
  dsimp only
  rw [if_pos hput]
  cases io with
  | false =>
    have hr : Reacts t p none (Party.fail { p with blockNr := p.blockNr + 1, opcode := 3 } 0
        "read error") := reacts_fail h hrunning rfl rfl rfl rfl rfl rfl rfl id
    refine ⟨⟨hr.valid, hput, fun q hq => ?_, ⟨Nat.le_succ _, Nat.le_refl _⟩, hexpect⟩,
      by simp [Party.fail]⟩
    rw [List.mem_singleton.mp hq]
    trivial
  | true =>
    have hchunk : p.file.take p.blksize = t.chunk p.blocks := by
      rw [hfile, h.size, Transfer.chunk]
    have hdata : Packet.Fits t true (p.blocks + 1)
        (.data (UInt16.ofNat (p.blocks + 1)) (t.chunk p.blocks)) :=
      ⟨rfl, hb, Nat.succ_pos _, hlt, rfl, rfl⟩
    rw [if_pos rfl, send_of_opcode (show (3 : UInt16) ≠ 4 by decide), hchunk, h.nr hrunning, h.size,
      hnf]
    refine ⟨⟨?_, hput, ?_, ⟨Nat.le_refl _, Nat.le_succ _⟩, hexpect⟩, ?_⟩
    · exact {
        size := rfl
        bufsize := h.bufsize
        big := fun _ => hb
        le := hlt
        file := by
          dsimp only
          rw [if_pos hput, hfile, List.drop_drop, Nat.succ_mul]
        nr := fun _ => ofNat_succ _
        finished := by
          dsimp only
          rw [Bool.false_or, decide_eq_true_iff]
          exact length_chunk (by omega) hlt
        waiting := fun he => by
          have : p.expectOack = true := he
          rw [hexpect] at this
          cases this
        xbuf := by
          dsimp only
          rw [hput]
          exact hdata
        done := fun hzero => by
          have : p.result = some 0 := hzero
          rw [hrunning] at this
          cases this
        exited := fun hreceiver => by
          have : p.put = false := hreceiver
          rw [hput] at this
          cases this }
    · intro q hq
      rw [List.mem_singleton.mp hq]
      exact hdata
    · dsimp only
      rw [hrunning]
      decide

/-- **The receiver builds ACK**, of the block that it has just written, or of block 0. -/
theorem built_receiver {t : Transfer} {p : Party} {io : Bool} (hput : p.put = false)
    (hsize : p.blksize = t.blksize) (hbuf : p.ioBufsize = t.blksize + 4)
    (hle : p.blocks ≤ t.total) (hfile : p.file = t.file.take (p.blocks * t.blksize))
    (hnr : p.blockNr = UInt16.ofNat p.blocks) (hfinished : p.finished = true ↔ p.blocks = t.total)
    (hrunning : p.result = none) (hexpect : p.expectOack = false) (hb : 24 ≤ t.blksize) {n : ℕ}
    (hn : p.blocks ≤ n ∧ n ≤ p.blocks + 1) : Built t false n (p.build io) := by
  have hack : Packet.Fits t false p.blocks (.ack (UInt16.ofNat p.blocks)) := ⟨rfl, hb, rfl⟩
  rw [Party.build]
  dsimp only
  rw [if_neg (by simp [hput]), hnr, Party.send, Party.emit]
  have hvalid : ∀ result, (result = none → p.finished = false) →
      (result = some 0 → p.finished = true) → (p.finished = true → result = some 0) →
      Party.Valid t { p with
        blockNr := UInt16.ofNat p.blocks + 1
        xbuf := .ack (UInt16.ofNat p.blocks)
        opcode := 4
        retries := 12
        result := result } := by
    intro result hnone hzero hexited
    exact {
      size := hsize
      bufsize := hbuf
      big := fun _ => hb
      le := hle
      file := by
        dsimp only
        rw [if_neg (by simp [hput]), hfile]
      nr := fun _ => ofNat_succ _
      finished := hfinished
      waiting := fun he => by
        have : p.expectOack = true := he
        rw [hexpect] at this
        cases this
      xbuf := by
        dsimp only
        rw [hput]
        exact hack
      done := hzero
      exited := fun _ => hexited }
  cases hf : p.finished with
  | true =>
    refine ⟨?_, hput, ?_, hn, hexpect⟩
    · have := hvalid (some 0) (by simp) (fun _ => hf) fun _ => rfl
      rw [hf] at this
      exact this
    · intro q hq
      rw [List.mem_singleton.mp hq]
      exact hack
  | false =>
    refine ⟨?_, hput, ?_, hn, hexpect⟩
    · have := hvalid none (fun _ => hf) (by simp) fun he => by rw [hf] at he; cases he
      rw [hf, ← hrunning] at this
      exact this
    · intro q hq
      rw [List.mem_singleton.mp hq]
      exact hack

/-! ### A packet comes -/

theorem Reacts.of_same {t : Transfer} {p p' : Party} {cause : Option Packet} {r : Reaction}
    (h : Reacts t p' cause r) (hput : p'.put = p.put) (hblocks : p'.blocks = p.blocks)
    (hxbuf : p'.xbuf = p.xbuf) (hexpect : p'.expectOack = true → p.expectOack = true) :
    Reacts t p cause r where
  valid := h.valid
  put := h.put.trans hput
  sent := hput ▸ h.sent
  blocks := hblocks ▸ h.blocks
  buffered hx := (h.buffered hx).imp (fun hx => hxbuf ▸ hx) (Or.imp id hexpect)
  early q hq hblock := (h.early q hq hblock).imp (fun hx => hxbuf ▸ hx) (Or.imp id hexpect)
  expecting he := by
    obtain ⟨he', hx, hall⟩ := h.expecting he
    exact ⟨hexpect he', hx.trans hxbuf, fun q hq hblock => (hall q hq hblock).trans hxbuf⟩

/-- When a party goes on to its next block, and when a sender succeeds, on a packet for block `k`. -/
structure Progress (p : Party) (k : ℕ) (packet : Packet) (r : Reaction) : Prop where
  next : r.1.blocks = p.blocks + 1 → k = p.waitsFor ∨ p.put = true ∧ p.blocks = 0
  success : p.put = true → r.1.result = some 0 →
    p.finished = true ∧ (k = p.blocks ∨ ∃ code msg, packet = .error code msg)

theorem Progress.stay {p p' : Party} {k : ℕ} {packet : Packet} {out : List Packet}
    (hblocks : p'.blocks = p.blocks) (hrunning : p'.result ≠ some 0) :
    Progress p k packet (p', out) where
  next h := by
    dsimp only at h
    omega
  success _ h := absurd h hrunning

section
variable {t : Transfer} {p : Party} (io : Bool) {k : ℕ}

theorem reacts_data {blk : UInt16} {bytes : List UInt8} (h : p.Valid t) (hrunning : p.result = none)
    (hexpect : p.expectOack = false) (hfit : (Packet.data blk bytes).Fits t (!p.put) k)
    (hle : k ≤ p.waitsFor) (hage : p.waitsFor ≤ k + 65535) :
    Reacts t p (some (.data blk bytes)) (p.transfer io (.data blk bytes)) ∧
      Progress p k (.data blk bytes) (p.transfer io (.data blk bytes)) := by
  obtain ⟨hrole, hb, hpos, htotal, rfl, rfl⟩ := hfit
  have hput : p.put = false := by simpa using hrole
  have hwaits : p.waitsFor = p.blocks + 1 := by rw [Party.waitsFor, if_neg (by simp [hput])]
  rw [hwaits] at hle hage
  rw [Party.transfer]
  split
  · rename_i hmatch
    have hk : k = p.blocks + 1 := block_eq (hmatch.2.trans (h.nr hrunning)) hle hage
    cases io with
    | false =>
      rw [if_neg (by decide)]
      exact ⟨reacts_fail h hrunning rfl rfl rfl rfl rfl rfl rfl id, Progress.stay rfl (by simp)⟩
    | true =>
      rw [if_pos rfl]
      have hnf := h.not_finished (by omega)
      have hfile := h.file
      rw [if_neg (by simp [hput])] at hfile
      have hchunk : k - 1 = p.blocks := by omega
      rw [hchunk]
      have hbuilt : Built t false (p.blocks + 1) (Party.build { p with
          file := p.file ++ t.chunk p.blocks
          finished := p.finished || decide ((t.chunk p.blocks).length ≠ p.blksize)
          blocks := p.blocks + 1 } true) := by
        refine built_receiver (p := { p with
          file := p.file ++ t.chunk p.blocks
          finished := p.finished || decide ((t.chunk p.blocks).length ≠ p.blksize)
          blocks := p.blocks + 1 }) hput h.size h.bufsize (by dsimp only; omega) ?_ (h.nr hrunning)
          ?_ hrunning hexpect hb ⟨Nat.le_refl _, Nat.le_succ _⟩
        · dsimp only
          rw [hfile, take_chunk]
        · dsimp only
          rw [hnf, Bool.false_or, decide_eq_true_iff, h.size]
          exact length_chunk (by omega) (by omega)
      rw [← hput] at hbuilt
      exact ⟨hbuilt.reacts (Or.inl trivial), fun _ => Or.inl (hk.trans hwaits.symm), fun hsender => by
        rw [hput] at hsender
        cases hsender⟩
  · exact ⟨reacts_stay h rfl rfl rfl id, Progress.stay rfl (by simp [hrunning])⟩

theorem reacts_ack {blk : UInt16} (h : p.Valid t) (hrunning : p.result = none)
    (hexpect : p.expectOack = false) (hfit : (Packet.ack blk).Fits t (!p.put) k)
    (hle : k ≤ p.waitsFor) (hage : p.waitsFor ≤ k + 65535) :
    Reacts t p (some (.ack blk)) (p.transfer io (.ack blk)) ∧
      Progress p k (.ack blk) (p.transfer io (.ack blk)) := by
  obtain ⟨hrole, hb, rfl⟩ := hfit
  have hput : p.put = true := by simpa using hrole
  have hwaits : p.waitsFor = p.blocks := by rw [Party.waitsFor, if_pos hput]
  rw [hwaits] at hle hage
  rw [Party.transfer]
  split
  · rename_i hmatch
    have hk : k = p.blocks := by
      have hnr := hmatch.2
      rw [h.nr hrunning, ofNat_pred] at hnr
      exact block_eq hnr hle hage
    split
    · rename_i hf
      refine ⟨reacts_ret h, fun hnext => ?_, fun _ _ => ⟨hf, Or.inl hk⟩⟩
      have : p.blocks = p.blocks + 1 := hnext
      omega
    · rename_i hf
      have hlt : p.blocks < t.total := by
        have hne : p.blocks ≠ t.total := fun he => hf (h.finished.mpr he)
        have := h.le
        omega
      obtain ⟨hbuilt, hresult⟩ := built_sender io h hput hrunning hexpect hb hlt
      rw [← hput] at hbuilt
      exact ⟨hbuilt.reacts (Or.inl trivial), fun _ => Or.inl (hk.trans hwaits.symm),
        fun _ hzero => absurd hzero hresult⟩
  · exact ⟨reacts_stay h rfl rfl rfl id, Progress.stay rfl (by simp [hrunning])⟩

theorem blocks_build_receiver (hput : p.put = false) : (p.build io).1.blocks = p.blocks := by
  rw [Party.build]
  dsimp only
  rw [if_neg (by simp [hput]), Party.send, Party.emit]
  dsimp only
  split
  · rfl
  · rfl

/-- The answer to an OACK: DATA of the first block, or ACK of block 0. -/
def Party.first (p : Party) : Party := if p.put then p else { p with blockNr := 0 }

theorem built_first (h : p.Valid t) (hzero : p.blocks = 0) (hrunning : p.result = none)
    (hexpect : p.expectOack = false) (hb : 24 ≤ t.blksize) :
    Built t p.put (p.blocks + 1) (p.first.build io) ∧
      (p.put = true → (p.first.build io).1.result ≠ some 0) ∧
      (p.put = false → (p.first.build io).1.blocks = p.blocks) := by
  have hlt : p.blocks < t.total := hzero ▸ total_pos t
  rcases Bool.eq_false_or_eq_true p.put with hput | hput
  · obtain ⟨hbuilt, hresult⟩ := built_sender io h hput hrunning hexpect hb hlt
    rw [Party.first, if_pos hput]
    refine ⟨(congrArg (fun role => Built t role _ _) hput).mpr hbuilt, fun _ => hresult, ?_⟩
    intro hreceiver
    rw [hput] at hreceiver
    cases hreceiver
  · have hfile := h.file
    rw [if_neg (by simp [hput])] at hfile
    rw [Party.first, if_neg (by simp [hput])]
    have hbuilt : Built t false (p.blocks + 1) (Party.build { p with blockNr := 0 } io) := by
      refine built_receiver (p := { p with blockNr := 0 }) hput h.size h.bufsize h.le hfile ?_
        h.finished hrunning hexpect hb ⟨Nat.le_succ _, Nat.le_refl _⟩
      dsimp only
      rw [hzero]
      rfl
    refine ⟨(congrArg (fun role => Built t role _ _) hput).mpr hbuilt, fun hsender => ?_,
      fun _ => blocks_build_receiver io hput⟩
    rw [hput] at hsender
    cases hsender

theorem reacts_negotiate {blksize : Option ℕ} {tsize : Bool} (h : p.Valid t)
    (hrunning : p.result = none) (hexpect : p.expectOack = true)
    (hfit : (Packet.oack blksize tsize).Fits t (!p.put) k) :
    Reacts t p (some (.oack blksize tsize))
        (Party.negotiate { p with opcode := 6, expectOack := false } io blksize) ∧
      Progress p k (.oack blksize tsize)
        (Party.negotiate { p with opcode := 6, expectOack := false } io blksize) := by
  obtain ⟨-, hb, rfl, -⟩ := hfit
  have hzero := h.waiting hexpect
  have hagreed : ∃ q : Party, q.Valid t ∧ q.put = p.put ∧ q.blocks = p.blocks ∧ q.result = none ∧
      q.expectOack = false ∧ Party.negotiate { p with opcode := 6, expectOack := false } io
        (blksizeOption t.blksize) = q.first.build io := by
    rw [blksizeOption]
    split
    · refine ⟨{ p with
        opcode := 6
        expectOack := false
        blksize := t.blksize
        ioBufsize := t.blksize + 4 }, ?_, rfl, rfl, hrunning, rfl, ?_⟩
      · exact ⟨rfl, rfl, fun _ => hb, h.le, h.file, h.nr, h.finished, by simp, h.xbuf, h.done,
          h.exited⟩
      · rw [Party.negotiate.eq_def]
        dsimp only
        rw [blksizeCheck, h.size, if_neg (by omega)]
        rfl
    · refine ⟨{ p with opcode := 6, expectOack := false }, ?_, rfl, rfl, hrunning, rfl, rfl⟩
      exact ⟨h.size, h.bufsize, h.big, h.le, h.file, h.nr, h.finished, by simp, h.xbuf, h.done,
        h.exited⟩
  obtain ⟨q, hq, hput, hblocks, hresult, hexp, heq⟩ := hagreed
  obtain ⟨hbuilt, hrunning', hstay⟩ :=
    built_first io hq (hblocks.trans hzero) hresult hexp hb
  rw [heq]
  rw [hput, hblocks] at hbuilt
  refine ⟨hbuilt.reacts (Or.inr hexpect), fun hnext => ?_, fun hp hdone =>
    absurd hdone (hrunning' (hput.trans hp))⟩
  rcases Bool.eq_false_or_eq_true p.put with hp | hp
  · exact Or.inr ⟨hp, hzero⟩
  · have := hstay (hput.trans hp)
    omega

theorem read_of_fits {packet : Packet} {role : Bool} (hfit : packet.Fits t role k) :
    packet.read (t.blksize + 4) = packet := by
  cases packet with
  | data blk bytes =>
    obtain ⟨-, -, -, -, -, rfl⟩ := hfit
    have hlen : (t.chunk (k - 1)).length ≤ t.blksize + 4 - 4 := by
      rw [Transfer.chunk, List.length_take]
      omega
    rw [Packet.read, List.take_of_length_le hlen]
  | request write blksize tsize => rfl
  | ack blk => rfl
  | error code msg => rfl
  | oack blksize tsize => rfl

/-- **What a party does with a packet.** -/
theorem reacts_receive {packet : Packet} (h : p.Valid t) (hrunning : p.result = none)
    (hfit : packet.Fits t (!p.put) k) (hle : k ≤ p.waitsFor) (hage : p.waitsFor ≤ k + 65535)
    (hclient : p.expectOack = true → p.put = t.upload)
    (hfall : p.expectOack = true → packet.IsBlock → t.blksize = 512) :
    Reacts t p (some packet) (p.receive io packet) ∧ Progress p k packet (p.receive io packet) := by
  have hopcode : ∀ opcode, Party.Valid t { p with opcode := opcode } :=
    fun opcode => valid_opcode opcode h
  -- what a party that expects no OACK, or no longer, does with DATA or ACK
  have hblock : packet.IsBlock → ∃ q : Party, q.Valid t ∧ q.put = p.put ∧ q.blocks = p.blocks ∧
      q.xbuf = p.xbuf ∧ q.finished = p.finished ∧ q.result = none ∧ q.expectOack = false ∧
      Party.process { p with opcode := packet.opcode } io packet = q.transfer io packet := by
    intro hb
    by_cases he : p.expectOack = true
    · have hsize := hfall he hb
      refine ⟨{ p with
        opcode := packet.opcode
        expectOack := false
        blksize := 512
        ioBufsize := 516 }, ?_, rfl, rfl, rfl, rfl, hrunning, rfl, ?_⟩
      · exact ⟨hsize.symm, by rw [hsize], h.big, h.le, h.file, h.nr, h.finished, by simp, h.xbuf,
          h.done, h.exited⟩
      · rw [Party.process.eq_def, if_pos (by exact he)]
        cases packet with
        | data blk bytes => rfl
        | ack blk => rfl
        | request write blksize tsize => cases hb
        | error code msg => cases hb
        | oack blksize tsize => cases hb
    · refine ⟨{ p with opcode := packet.opcode }, hopcode _, rfl, rfl, rfl, rfl, hrunning,
        by simpa using he, ?_⟩
      rw [Party.process.eq_def]
      exact if_neg he
  have hread : packet.read p.ioBufsize = packet := by rw [h.bufsize, read_of_fits hfit]
  rw [Party.receive, hread]
  cases packet with
  | error code msg =>
    refine ⟨reacts_stay (valid_ret (hopcode _)) rfl rfl rfl id, fun hnext => ?_, fun _ hzero =>
      ⟨by simpa [Party.ret] using hzero, Or.inr ⟨code, msg, rfl⟩⟩⟩
    have : p.blocks = p.blocks + 1 := hnext
    omega
  | request write blksize tsize =>
    have hnot : p.expectOack = false := by
      rw [← Bool.not_eq_true]
      intro he
      have := hfit.1
      rw [hclient he] at this
      cases t.upload <;> simp at this
    dsimp only
    rw [Party.process.eq_def, if_neg (by simp [hnot])]
    exact ⟨reacts_stay (hopcode _) rfl rfl rfl id, Progress.stay rfl (by simp [hrunning])⟩
  | oack blksize tsize =>
    dsimp only
    rw [Party.process.eq_def]
    by_cases he : p.expectOack = true
    · rw [if_pos (by exact he)]
      exact reacts_negotiate io h hrunning he hfit
    · rw [if_neg he]
      exact ⟨reacts_stay (hopcode _) rfl rfl rfl id,
        Progress.stay rfl (by simp [hrunning])⟩
  | data blk bytes =>
    obtain ⟨q, hq, hput, hblocks, hxbuf, hfin, hresult, hexp, heq⟩ := hblock trivial
    dsimp only
    rw [heq]
    have hwaits : q.waitsFor = p.waitsFor := by rw [Party.waitsFor, Party.waitsFor, hput, hblocks]
    obtain ⟨hreacts, hprogress⟩ := reacts_data io hq hresult hexp (hput.symm ▸ hfit)
      (hwaits ▸ hle) (hwaits ▸ hage)
    refine ⟨hreacts.of_same hput hblocks hxbuf (by simp [hexp]), ?_, ?_⟩
    · exact hput ▸ hblocks ▸ hwaits ▸ hprogress.next
    · exact hput ▸ hblocks ▸ hfin ▸ hprogress.success
  | ack blk =>
    obtain ⟨q, hq, hput, hblocks, hxbuf, hfin, hresult, hexp, heq⟩ := hblock trivial
    dsimp only
    rw [heq]
    have hwaits : q.waitsFor = p.waitsFor := by rw [Party.waitsFor, Party.waitsFor, hput, hblocks]
    obtain ⟨hreacts, hprogress⟩ := reacts_ack io hq hresult hexp (hput.symm ▸ hfit)
      (hwaits ▸ hle) (hwaits ▸ hage)
    refine ⟨hreacts.of_same hput hblocks hxbuf (by simp [hexp]), ?_, ?_⟩
    · exact hput ▸ hblocks ▸ hwaits ▸ hprogress.next
    · exact hput ▸ hblocks ▸ hfin ▸ hprogress.success

end

/-! ### The first packets -/

/-- **The client** sends its request. -/
theorem valid_client (t : Transfer) :
    let r := client t.upload t.nameLength t.blksize t.wantTransferSize t.file
    r.1.Valid t ∧ r.1.put = t.upload ∧ r.1.blocks = 0 ∧ r.1.result ≠ some 0 ∧
      ¬ r.1.xbuf.IsBlock ∧ ∀ q ∈ r.2, q.Fits t t.upload 0 ∧ ¬ q.IsBlock := by
  intro r
  have hfits : (Packet.request t.upload (blksizeOption t.blksize) t.wantTransferSize).Fits t
      t.upload 0 := ⟨rfl, rfl, rfl, rfl⟩
  have htotal : ¬ 0 = t.total := Nat.ne_of_lt (total_pos t)
  have hopcode : (if t.upload then 2 else 1 : UInt16) ≠ 4 := by
    cases t.upload
    · decide
    · decide
  have hvalid : ∀ result, result ≠ some 0 → Party.Valid t {
      put := t.upload
      blksize := t.blksize
      ioBufsize := t.blksize + 4
      expectOack := decide (t.blksize ≠ 512) || t.wantTransferSize
      finished := false
      opcode := if t.upload then 2 else 1
      blockNr := 1
      retries := 12
      xbuf := .request t.upload (blksizeOption t.blksize) t.wantTransferSize
      file := if t.upload then t.file else []
      result := result
      blocks := 0 } := by
    intro result hresult
    refine ⟨rfl, rfl, by simp, Nat.zero_le _, ?_, fun _ => rfl, ?_, fun _ => rfl, hfits, ?_, ?_⟩
    · dsimp only
      rw [Nat.zero_mul, List.drop_zero, List.take_zero]
    · exact iff_of_false (by simp) htotal
    · exact fun hzero => absurd hzero hresult
    · exact fun _ hf => by cases hf
  have hr : r = client t.upload t.nameLength t.blksize t.wantTransferSize t.file := rfl
  rw [client] at hr
  split at hr
  · rw [send_of_opcode hopcode] at hr
    rw [hr]
    refine ⟨hvalid none (by simp), rfl, rfl, by simp, id, fun q hq => ?_⟩
    rw [List.mem_singleton.mp hq]
    exact ⟨hfits, id⟩
  · rw [hr]
    refine ⟨hvalid (some 1) (by simp), rfl, rfl, by simp [Party.ret], id, fun q hq => ?_⟩
    cases hq

/-- What is known of the server's first reaction. -/
structure Starts (t : Transfer) (r : Reaction) : Prop where
  valid : r.1.Valid t
  put : r.1.put = !t.upload
  blocks : r.1.blocks = 0 ∨ r.1.blocks = 1 ∧ t.upload = false
  expecting : r.1.expectOack = false
  success : t.upload = false → r.1.result ≠ some 0
  sent : ∀ q ∈ r.2, q.Fits t (!t.upload) r.1.blocks
  early : t.AcksOptions → ¬ r.1.xbuf.IsBlock ∧ ∀ q ∈ r.2, ¬ q.IsBlock

theorem starts_fail {t : Transfer} {p : Party} (code : UInt16) (msg : String) (h : p.Valid t)
    (hrunning : p.result = none) (hput : p.put = !t.upload) (hblocks : p.blocks = 0)
    (hexpect : p.expectOack = false) (hxbuf : ¬ p.xbuf.IsBlock) : Starts t (p.fail code msg) where
  valid := by
    have hr : Reacts t p none (p.fail code msg) :=
      reacts_fail h hrunning rfl rfl rfl rfl rfl rfl rfl id
    exact hr.valid
  put := hput
  blocks := Or.inl hblocks
  expecting := hexpect
  success _ := by simp [Party.fail]
  sent q hq := by
    rw [List.mem_singleton.mp hq]
    trivial
  early _ := by
    refine ⟨hxbuf, fun q hq => ?_⟩
    rw [List.mem_singleton.mp hq]
    exact id

theorem valid_serverParty (t : Transfer) : (serverParty t.upload t.blksize t.file).Valid t := by
  have htotal : ¬ 0 = t.total := Nat.ne_of_lt (total_pos t)
  refine ⟨rfl, rfl, by simp [serverParty], Nat.zero_le _, ?_, fun _ => rfl, ?_,
    by simp [serverParty], trivial, by simp [serverParty], by simp [serverParty]⟩
  · dsimp only [serverParty]
    rw [Nat.zero_mul, List.drop_zero, List.take_zero]
    cases t.upload
    · rfl
    · rfl
  · exact iff_of_false (by simp [serverParty]) htotal

theorem starts_oack {t : Transfer} {p : Party} (tsize : Bool) (h : p.Valid t)
    (hrunning : p.result = none) (hput : p.put = !t.upload) (hblocks : p.blocks = 0)
    (hexpect : p.expectOack = false) (hb : 24 ≤ t.blksize) (hmode : t.AcksOptions) :
    Starts t (Party.send { p with
      opcode := 6
      xbuf := .oack (blksizeOption t.blksize) tsize }) := by
  have hoack : (Packet.oack (blksizeOption t.blksize) tsize).Fits t (!t.upload) 0 :=
    ⟨rfl, hb, rfl, hmode⟩
  rw [send_of_opcode (show (6 : UInt16) ≠ 4 by decide)]
  exact {
    valid := ⟨h.size, h.bufsize, fun _ => hb, h.le, h.file, h.nr, h.finished, h.waiting, by
      dsimp only
      rw [hput, hblocks]
      exact hoack, h.done, h.exited⟩
    put := hput
    blocks := Or.inl hblocks
    expecting := hexpect
    success := fun _ => by simp [hrunning]
    sent := fun q hq => by
      rw [List.mem_singleton.mp hq]
      dsimp only
      rw [hblocks]
      exact hoack
    early := fun _ => by
      refine ⟨id, fun q hq => ?_⟩
      rw [List.mem_singleton.mp hq]
      exact id }

/-- The server begins with the first block, or acknowledges the request as if it were a block. -/
theorem starts_first {t : Transfer} {p : Party} (io : Bool) (h : p.Valid t)
    (hrunning : p.result = none) (hput : p.put = !t.upload) (hblocks : p.blocks = 0)
    (hexpect : p.expectOack = false) (hb : 24 ≤ t.blksize) (hmode : ¬ t.AcksOptions) :
    Starts t (p.first.build io) := by
  obtain ⟨hbuilt, hresult, hstay⟩ := built_first io h hblocks hrunning hexpect hb
  exact {
    valid := hbuilt.valid
    put := hbuilt.put.trans hput
    blocks := by
      have hle := hbuilt.blocks
      rw [hblocks] at hle
      cases hup : t.upload with
      | true => exact Or.inl ((hstay (by rw [hput, hup]; rfl)).trans hblocks)
      | false =>
        rcases Nat.lt_or_ge (p.first.build io).1.blocks 1 with hlt | hge
        · exact Or.inl (by omega)
        · exact Or.inr ⟨by omega, rfl⟩
    expecting := hbuilt.expecting
    success := fun hup => hresult (by rw [hput, hup]; rfl)
    sent := hput ▸ hbuilt.sent
    early := fun hacks => absurd hacks hmode }

/-- **The server** answers the request. -/
theorem starts_server (t : Transfer) (opens io : Bool) : Starts t
    (server t.upload (blksizeOption t.blksize) t.wantTransferSize opens io t.file) := by
  have hsize : (blksizeOption t.blksize).getD 512 = t.blksize := by
    rw [blksizeOption]
    split
    · rfl
    · rename_i h
      exact (Decidable.not_not.mp h).symm
  have hvalid := valid_serverParty t
  have hput : (serverParty t.upload t.blksize t.file).put = !t.upload := rfl
  have hrunning : (serverParty t.upload t.blksize t.file).result = none := rfl
  have hexpect : (serverParty t.upload t.blksize t.file).expectOack = false := rfl
  have hblocks : (serverParty t.upload t.blksize t.file).blocks = 0 := rfl
  have hxbuf : ¬ (serverParty t.upload t.blksize t.file).xbuf.IsBlock := id
  rw [server, hsize]
  generalize serverParty t.upload t.blksize t.file = p at *
  have hfirst : (if t.upload then { p with blockNr := 0 } else p) = p.first := by
    rw [Party.first, hput]
    cases t.upload
    · rfl
    · rfl
  split
  · exact starts_fail 8 "" hvalid hrunning hput hblocks hexpect hxbuf
  rename_i hcheck
  have hb : 24 ≤ t.blksize := by
    rw [blksizeOption] at hcheck
    by_contra hlt
    rw [if_pos (by omega)] at hcheck
    refine hcheck ?_
    rw [Option.map_some, blksizeCheck, if_pos (Or.inl (by omega))]
  split
  · split
    · rename_i hacks
      refine starts_oack _ hvalid hrunning hput hblocks hexpect hb (hacks.imp id fun hwant => ?_)
      cases hup : t.upload with
      | true => simp [hup] at hwant
      | false => exact ⟨by simpa [hup] using hwant, rfl⟩
    · rename_i hacks
      rw [hfirst]
      refine starts_first io hvalid hrunning hput hblocks hexpect hb ?_
      rintro (hne | ⟨hwant, hup⟩)
      · exact hacks (Or.inl hne)
      · exact hacks (Or.inr (by simp [hwant, hup]))
  · exact starts_fail 1 "can't open file" hvalid hrunning hput hblocks hexpect hxbuf

end Rustybox.Tftp
