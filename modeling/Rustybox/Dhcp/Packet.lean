import Mathlib.Data.Int.Order.Basic
import Mathlib.Data.Prod.Lex
import Mathlib.Logic.Relation

/-!
# Options of a DHCP packet: looking one up

`udhcp_get_option` walks over the options of a packet that somebody has sent.  An overload
option tells it to go on in the fields `file` and `sname`; what it has looked at already it
remembers in bits that no option byte reaches.

Every read asks for a byte at a place of a field, and there is no byte outside of it.
-/

namespace Rustybox.Dhcp

/-! ### Packets -/

/-- `struct dhcp_packet`. -/
structure DhcpPacket where
  op : UInt8
  htype : UInt8
  hlen : UInt8
  hops : UInt8
  xid : UInt32
  secs : UInt16
  flags : UInt16
  ciaddr : UInt32
  yiaddr : UInt32
  siaddrNip : UInt32
  gatewayNip : UInt32
  chaddr : Vector UInt8 16
  sname : Vector UInt8 64
  file : Vector UInt8 128
  cookie : UInt32
  options : Vector UInt8 388

/-- The fields that can hold options. -/
inductive Field
  | options
  | sname
  | file
deriving DecidableEq

def Field.size : Field → ℕ
  | .options => 388
  | .sname => 64
  | .file => 128

/-- A byte of a field, if it is one. -/
def DhcpPacket.byte (packet : DhcpPacket) : Field → ℕ → Option UInt8
  | .options, i => packet.options[i]?
  | .sname, i => packet.sname[i]?
  | .file, i => packet.file[i]?

theorem DhcpPacket.byte_of_lt (packet : DhcpPacket) {f : Field} {i : ℕ} (h : i < f.size) :
    ∃ b, packet.byte f i = some b := by
  cases f
  · exact ⟨_, Vector.getElem?_eq_getElem h⟩
  · exact ⟨_, Vector.getElem?_eq_getElem h⟩
  · exact ⟨_, Vector.getElem?_eq_getElem h⟩

/-- The bytes of a field from `i` on, if all of them are in it. -/
def DhcpPacket.bytesAt (packet : DhcpPacket) (f : Field) (i : ℕ) : ℕ → Option (List UInt8)
  | 0 => some []
  | n + 1 => do
    let b ← packet.byte f i
    let bs ← packet.bytesAt f (i + 1) n
    return b :: bs

/-! ### The walk -/

/-- `DHCP_PADDING`, `DHCP_END` and `DHCP_OPTION_OVERLOAD`. -/
def padding : UInt8 := 0
def endOption : UInt8 := 0xff
def optionOverload : UInt8 := 0x34

def fileField101 : BitVec 32 := 0x101
def snameField101 : BitVec 32 := 0x202

/-- The variables of the loop: where `optionptr` points to, and the rest. -/
structure Scan where
  field : Field
  off : ℕ
  rem : ℤ
  overload : BitVec 32

/-- What `udhcp_get_option` returns: a pointer into a field, or NULL, with a complaint or not. -/
inductive Answer
  | found (field : Field) (off : ℕ)
  | absent
  | malformed
deriving DecidableEq

/-- A turn of the loop: it goes on, it returns, or it reads a byte that is not in the field. -/
inductive Turn
  | next (s : Scan)
  | done (a : Answer)
  | outside

/-- The start of a walk over a field. -/
def Scan.enter (field : Field) (overload : BitVec 32) : Scan :=
  { field, off := 0, rem := field.size, overload }

def atEnd (s : Scan) : Turn :=
  if s.overload &&& fileField101 = 1 then
    -- can use packet->file, and didn't look at it yet
    .next (.enter .file (s.overload ||| fileField101))
  else if ¬ s.overload &&& snameField101 = 2 then .done .absent
  else .next (.enter .sname (s.overload ||| snameField101))

/-- `log_option` reads the data of the option when there is much to tell. -/
def logOption (packet : DhcpPacket) (dhcpVerbose : ℕ) (f : Field) (off len : ℕ) (a : Answer) :
    Turn :=
  if 2 ≤ dhcpVerbose then
    match packet.bytesAt f off len with
    | none => .outside
    | some _ => .done a
  else .done a

/-- The turn at an option with data. -/
def atOption (packet : DhcpPacket) (dhcpVerbose : ℕ) (code : ℤ) (s : Scan) (c : UInt8) : Turn :=
  if s.rem ≤ 1 then .done .malformed
  else
    match packet.byte s.field (s.off + 1) with
    | none => .outside
    | some l =>
      let len := 2 + l.toNat
      let rem := s.rem - len
      if rem < 0 then .done .malformed
      else if (c.toNat : ℤ) = code then
        if l = 0 then .done .malformed
        else logOption packet dhcpVerbose s.field (s.off + 2) l.toNat (.found s.field (s.off + 2))
      else if c = optionOverload ∧ 3 ≤ len then
        match packet.byte s.field (s.off + 2) with
        | none => .outside
        | some b =>
          let overload := s.overload ||| b.toBitVec.setWidth 32
          .next { s with off := s.off + len, rem, overload }
      else .next { s with off := s.off + len, rem }

/-- One turn of the loop of `udhcp_get_option`. -/
def turn (packet : DhcpPacket) (dhcpVerbose : ℕ) (code : ℤ) (s : Scan) : Turn :=
  if s.rem ≤ 0 then .done .malformed
  else
    match packet.byte s.field s.off with
    | none => .outside
    | some c =>
      if c = padding then .next { s with off := s.off + 1, rem := s.rem - 1 }
      else if c = endOption then atEnd s
      else atOption packet dhcpVerbose code s c

/-! ### The walk ends -/

/-- Has the walk looked at the field? -/
def Scan.looked (s : Scan) : Field → Bool
  | .options => true
  | .sname => s.overload.getLsbD 9
  | .file => s.overload.getLsbD 8

/-- How many fields the walk has not looked at. -/
def Scan.unlooked (s : Scan) : ℕ := (!s.looked .file).toNat + (!s.looked .sname).toNat

/-- **At the end option** the walk enters a field that it has not looked at, and notes it. -/
theorem atEnd_next {s s' : Scan} (h : atEnd s = .next s') :
    ∃ f, s' = Scan.enter f s'.overload ∧ f ≠ .options ∧ s.looked f = false ∧
      s'.looked f = true ∧ ∀ g, g ≠ f → s'.looked g = s.looked g := by
  have hbit (mask v : BitVec 32) (i : ℕ) (hand : s.overload &&& mask = v) :
      (s.overload.getLsbD i && mask.getLsbD i) = v.getLsbD i := by
    rw [← BitVec.getLsbD_and, hand]
  have hset (mask : BitVec 32) (i : ℕ) : (s.overload ||| mask).getLsbD i =
      (s.overload.getLsbD i || mask.getLsbD i) := BitVec.getLsbD_or
  rw [atEnd] at h
  split at h
  · rename_i hfile
    cases h
    have h8 := hbit fileField101 1 8 hfile
    refine ⟨.file, rfl, by decide, ?_, ?_, ?_⟩
    · simpa [fileField101, Scan.looked] using h8
    · show (s.overload ||| fileField101).getLsbD 8 = true
      rw [hset]
      exact Bool.or_true _
    · intro g hg
      cases g with
      | options => rfl
      | file => exact absurd rfl hg
      | sname =>
        show (s.overload ||| fileField101).getLsbD 9 = s.overload.getLsbD 9
        rw [hset]
        exact Bool.or_false _
  · split at h
    · cases h
    · rename_i hsname
      cases h
      have h9 := hbit snameField101 2 9 (not_not.mp hsname)
      refine ⟨.sname, rfl, by decide, ?_, ?_, ?_⟩
      · simpa [snameField101, Scan.looked] using h9
      · show (s.overload ||| snameField101).getLsbD 9 = true
        rw [hset]
        exact Bool.or_true _
      · intro g hg
        cases g with
        | options => rfl
        | sname => exact absurd rfl hg
        | file =>
          show (s.overload ||| snameField101).getLsbD 8 = s.overload.getLsbD 8
          rw [hset]
          exact Bool.or_false _

theorem logOption_ne_next {packet : DhcpPacket} {dhcpVerbose : ℕ} {f : Field} {off len : ℕ}
    {a : Answer} {s' : Scan} : logOption packet dhcpVerbose f off len a ≠ .next s' := by
  rw [logOption]
  split
  · cases packet.bytesAt f off len <;> exact Turn.noConfusion
  · exact Turn.noConfusion

/-- **Past an option** the walk stays in the field, and what it has noted stays noted. -/
theorem atOption_next {packet : DhcpPacket} {dhcpVerbose : ℕ} {code : ℤ} {s s' : Scan}
    {c : UInt8} (h : atOption packet dhcpVerbose code s c = .next s') :
    ∃ len : ℕ, 2 ≤ len ∧ (len : ℤ) ≤ s.rem ∧ s'.field = s.field ∧ s'.off = s.off + len ∧
      s'.rem = s.rem - len ∧ ∀ g, s'.looked g = s.looked g := by
  rw [atOption] at h
  split at h
  · cases h
  · cases hl : packet.byte s.field (s.off + 1) with
    | none =>
      rw [hl] at h
      cases h
    | some l =>
      rw [hl] at h
      dsimp only at h
      by_cases hrem : s.rem - ((2 + l.toNat : ℕ) : ℤ) < 0
      · rw [if_pos hrem] at h
        cases h
      · rw [if_neg hrem] at h
        by_cases hcode : (c.toNat : ℤ) = code
        · rw [if_pos hcode] at h
          split at h
          · cases h
          · exact absurd h logOption_ne_next
        · rw [if_neg hcode] at h
          split at h
          · cases hb : packet.byte s.field (s.off + 2) with
            | none =>
              rw [hb] at h
              cases h
            | some b =>
              rw [hb] at h
              cases h
              refine ⟨2 + l.toNat, by omega, by omega, rfl, rfl, rfl, fun g => ?_⟩
              have hbyte (i : ℕ) (hi : 8 ≤ i) :
                  (s.overload ||| b.toBitVec.setWidth 32).getLsbD i = s.overload.getLsbD i := by
                rw [BitVec.getLsbD_or, BitVec.getLsbD_setWidth, BitVec.getLsbD_of_ge _ _ hi,
                  Bool.and_false, Bool.or_false]
              cases g with
              | options => rfl
              | sname => exact hbyte 9 (by decide)
              | file => exact hbyte 8 (by decide)
          · cases h
            exact ⟨2 + l.toNat, by omega, by omega, rfl, rfl, rfl, fun g => rfl⟩

/-- **What a turn that goes on does**: it moves ahead in the field, or enters a field that has
not been looked at. -/
theorem turn_next {packet : DhcpPacket} {dhcpVerbose : ℕ} {code : ℤ} {s s' : Scan}
    (h : turn packet dhcpVerbose code s = .next s') :
    (∃ len : ℕ, 0 < len ∧ (len : ℤ) ≤ s.rem ∧ s'.field = s.field ∧ s'.off = s.off + len ∧
      s'.rem = s.rem - len ∧ ∀ g, s'.looked g = s.looked g) ∨
    ∃ f, s' = Scan.enter f s'.overload ∧ f ≠ .options ∧ s.looked f = false ∧
      s'.looked f = true ∧ ∀ g, g ≠ f → s'.looked g = s.looked g := by
  rw [turn] at h
  split at h
  · cases h
  · rename_i hrem
    cases hc : packet.byte s.field s.off with
    | none =>
      rw [hc] at h
      cases h
    | some c =>
      rw [hc] at h
      dsimp only at h
      split at h
      · cases h
        exact Or.inl ⟨1, Nat.one_pos, by omega, rfl, rfl, rfl, fun g => rfl⟩
      · split at h
        · exact Or.inr (atEnd_next h)
        · obtain ⟨len, h1, h2⟩ := atOption_next h
          exact Or.inl ⟨len, by omega, h2⟩

/-- Fields not looked at get fewer, or else bytes left in the field. -/
theorem turn_decreases {packet : DhcpPacket} {dhcpVerbose : ℕ} {code : ℤ} {s s' : Scan}
    (h : turn packet dhcpVerbose code s = .next s') :
    Prod.Lex (· < ·) (· < ·) (s'.unlooked, s'.rem.toNat) (s.unlooked, s.rem.toNat) := by
  rw [Prod.lex_def]
  rcases turn_next h with ⟨len, hpos, hle, -, -, hrem, hlooked⟩ | ⟨f, -, hne, hno, hyes, hsame⟩
  · right
    refine ⟨?_, ?_⟩
    · show s'.unlooked = s.unlooked
      rw [Scan.unlooked, hlooked, hlooked, Scan.unlooked]
    · show s'.rem.toNat < s.rem.toNat
      omega
  · left
    show s'.unlooked < s.unlooked
    cases f with
    | options => exact absurd rfl hne
    | file =>
      rw [Scan.unlooked, hyes, hsame .sname (by decide), Scan.unlooked, hno]
      exact Nat.add_lt_add_right Nat.one_pos _
    | sname =>
      rw [Scan.unlooked, hyes, hsame .file (by decide), Scan.unlooked, hno]
      exact Nat.add_lt_add_left Nat.one_pos _

/-- The loop of `udhcp_get_option`; there is no answer where it reads outside of a field. -/
def walk (packet : DhcpPacket) (dhcpVerbose : ℕ) (code : ℤ) (s : Scan) : Option Answer :=
  match _h : turn packet dhcpVerbose code s with
  | .next s' => walk packet dhcpVerbose code s'
  | .done a => some a
  | .outside => none
termination_by (s.unlooked, s.rem.toNat)
decreasing_by exact turn_decreases _h

theorem walk_next {packet : DhcpPacket} {dhcpVerbose : ℕ} {code : ℤ} {s s' : Scan}
    (h : turn packet dhcpVerbose code s = .next s') :
    walk packet dhcpVerbose code s = walk packet dhcpVerbose code s' := by
  rw [walk]
  split
  · rename_i hs
    rw [h] at hs
    cases hs
    rfl
  · rename_i hs
    rw [h] at hs
    cases hs
  · rename_i hs
    rw [h] at hs
    cases hs

theorem walk_done {packet : DhcpPacket} {dhcpVerbose : ℕ} {code : ℤ} {s : Scan} {a : Answer}
    (h : turn packet dhcpVerbose code s = .done a) :
    walk packet dhcpVerbose code s = some a := by
  rw [walk]
  split
  · rename_i hs
    rw [h] at hs
    cases hs
  · rename_i hs
    rw [h] at hs
    cases hs
    rfl
  · rename_i hs
    rw [h] at hs
    cases hs

def udhcpGetOption (packet : DhcpPacket) (dhcpVerbose : ℕ) (code : ℤ) : Option Answer :=
  walk packet dhcpVerbose code (.enter .options 0)

/-- `udhcp_get_option32`: the option, if its length is 4. -/
def udhcpGetOption32 (packet : DhcpPacket) (dhcpVerbose : ℕ) (code : ℤ) : Option Answer := do
  match ← udhcpGetOption packet dhcpVerbose code with
  | .found f off =>
    let l ← packet.byte f (off - 2 + 1)
    return if l ≠ 4 then .absent else .found f off
  | a => return a

/-! ### The walk is safe -/

/-- Where the walk is: `rem` counts the bytes up to the end of the field, and the field has been
noted. -/
structure Inside (s : Scan) : Prop where
  rest : s.off + s.rem = s.field.size
  noted : s.looked s.field = true

theorem inside_start : Inside (.enter .options 0) := ⟨by decide, rfl⟩

theorem Inside.step {packet : DhcpPacket} {dhcpVerbose : ℕ} {code : ℤ} {s s' : Scan}
    (hs : Inside s) (h : turn packet dhcpVerbose code s = .next s') : Inside s' := by
  have hrest := hs.rest
  rcases turn_next h with ⟨len, -, -, hfield, hoff, hrem, hlooked⟩ | ⟨f, heq, -, -, hyes, -⟩
  · refine ⟨?_, ?_⟩
    · rw [hfield, hoff, hrem]
      omega
    · rw [hfield, hlooked]
      exact hs.noted
  · refine ⟨?_, ?_⟩
    · rw [heq]
      show ((0 : ℕ) : ℤ) + (f.size : ℤ) = f.size
      omega
    · rw [heq] at hyes ⊢
      exact hyes

/-- The pointer is behind the code and the length of an option, all of which is in the field. -/
def Answer.Lies (packet : DhcpPacket) (code : ℤ) : Answer → Prop
  | .found f off => 2 ≤ off ∧ ∃ c l : UInt8, packet.byte f (off - 2) = some c ∧
      (c.toNat : ℤ) = code ∧ packet.byte f (off - 1) = some l ∧ off + l.toNat ≤ f.size
  | _ => True

theorem DhcpPacket.bytesAt_of_le (packet : DhcpPacket) {f : Field} {i n : ℕ}
    (h : i + n ≤ f.size) : ∃ bs, packet.bytesAt f i n = some bs := by
  induction n generalizing i with
  | zero => exact ⟨[], rfl⟩
  | succ n ih =>
    obtain ⟨b, hb⟩ := packet.byte_of_lt (show i < f.size by omega)
    obtain ⟨bs, hbs⟩ := ih (i := i + 1) (by omega)
    refine ⟨b :: bs, ?_⟩
    rw [DhcpPacket.bytesAt, hb, hbs]
    rfl

theorem atEnd_done {s : Scan} (packet : DhcpPacket) (code : ℤ) :
    atEnd s ≠ .outside ∧ ∀ a, atEnd s = .done a → a.Lies packet code := by
  rw [atEnd]
  split
  · exact ⟨Turn.noConfusion, fun a h => by cases h⟩
  · split
    · refine ⟨Turn.noConfusion, fun a h => ?_⟩
      cases h
      trivial
    · exact ⟨Turn.noConfusion, fun a h => by cases h⟩

/-- **The turn at an option** reads inside the field, and what it finds lies there. -/
theorem Inside.atOption {packet : DhcpPacket} {dhcpVerbose : ℕ} {code : ℤ} {s : Scan}
    (hs : Inside s) {c : UInt8} (hc : packet.byte s.field s.off = some c) :
    Dhcp.atOption packet dhcpVerbose code s c ≠ .outside ∧
      ∀ a, Dhcp.atOption packet dhcpVerbose code s c = .done a → a.Lies packet code := by
  have hrest := hs.rest
  rw [Dhcp.atOption]
  by_cases hrem1 : s.rem ≤ 1
  · rw [if_pos hrem1]
    refine ⟨Turn.noConfusion, fun a h => ?_⟩
    cases h
    trivial
  · obtain ⟨l, hl⟩ := packet.byte_of_lt (show s.off + 1 < s.field.size by omega)
    rw [if_neg hrem1, hl]
    dsimp only
    by_cases hrem : s.rem - ((2 + l.toNat : ℕ) : ℤ) < 0
    · rw [if_pos hrem]
      refine ⟨Turn.noConfusion, fun a h => ?_⟩
      cases h
      trivial
    · rw [if_neg hrem]
      have hdata : s.off + 2 + l.toNat ≤ s.field.size := by omega
      by_cases hcode : (c.toNat : ℤ) = code
      · rw [if_pos hcode]
        by_cases hl0 : l = 0
        · rw [if_pos hl0]
          refine ⟨Turn.noConfusion, fun a h => ?_⟩
          cases h
          trivial
        · have hfound : (Answer.found s.field (s.off + 2)).Lies packet code :=
            ⟨by omega, c, l, hc, hcode, hl, hdata⟩
          obtain ⟨bs, hbs⟩ := packet.bytesAt_of_le hdata
          rw [if_neg hl0, logOption, hbs]
          refine ⟨?_, fun a h => ?_⟩
          · split <;> exact Turn.noConfusion
          · split at h
            · cases h
              exact hfound
            · cases h
              exact hfound
      · rw [if_neg hcode]
        by_cases hover : c = optionOverload ∧ 3 ≤ 2 + l.toNat
        · obtain ⟨b, hb⟩ := packet.byte_of_lt (show s.off + 2 < s.field.size by omega)
          rw [if_pos hover, hb]
          exact ⟨Turn.noConfusion, fun a h => by cases h⟩
        · rw [if_neg hover]
          exact ⟨Turn.noConfusion, fun a h => by cases h⟩

/-- **Every turn** reads inside the field, and what it finds lies there. -/
theorem Inside.turn {packet : DhcpPacket} {dhcpVerbose : ℕ} {code : ℤ} {s : Scan}
    (hs : Inside s) :
    Dhcp.turn packet dhcpVerbose code s ≠ .outside ∧
      ∀ a, Dhcp.turn packet dhcpVerbose code s = .done a → a.Lies packet code := by
  have hrest := hs.rest
  rw [Dhcp.turn]
  by_cases hrem : s.rem ≤ 0
  · rw [if_pos hrem]
    refine ⟨Turn.noConfusion, fun a h => ?_⟩
    cases h
    trivial
  · obtain ⟨c, hc⟩ := packet.byte_of_lt (show s.off < s.field.size by omega)
    rw [if_neg hrem, hc]
    dsimp only
    by_cases hpad : c = padding
    · rw [if_pos hpad]
      exact ⟨Turn.noConfusion, fun a h => by cases h⟩
    · by_cases hend : c = endOption
      · rw [if_neg hpad, if_pos hend]
        exact atEnd_done packet code
      · rw [if_neg hpad, if_neg hend]
        exact hs.atOption hc

theorem Inside.walk {packet : DhcpPacket} {dhcpVerbose : ℕ} {code : ℤ} {s : Scan}
    (hs : Inside s) :
    ∃ a, Dhcp.walk packet dhcpVerbose code s = some a ∧ a.Lies packet code := by
  fun_induction Dhcp.walk packet dhcpVerbose code s with
  | case1 s s' h ih => exact ih (hs.step h)
  | case2 s a h => exact ⟨a, rfl, hs.turn.2 a h⟩
  | case3 s h => exact absurd h hs.turn.1

/-! ### Each field is scanned once -/

/-- One turn that goes on leads from `s` to `s'`. -/
def Goes (packet : DhcpPacket) (dhcpVerbose : ℕ) (code : ℤ) (s s' : Scan) : Prop :=
  turn packet dhcpVerbose code s = .next s'

theorem Inside.reaches {packet : DhcpPacket} {dhcpVerbose : ℕ} {code : ℤ} {s s' : Scan}
    (hs : Inside s) (h : Relation.ReflTransGen (Goes packet dhcpVerbose code) s s') :
    Inside s' := by
  induction h with
  | refl => exact hs
  | tail _ hgo ih => exact ih.step hgo

/-- **No field is scanned again**: later in the walk it is further on in the same field, or the
field is behind it for good. -/
theorem Inside.ahead {packet : DhcpPacket} {dhcpVerbose : ℕ} {code : ℤ} {s t : Scan}
    (hs : Inside s) (h : Relation.TransGen (Goes packet dhcpVerbose code) s t) :
    t.looked s.field = true ∧ (t.field = s.field → s.off < t.off) := by
  have hturn {s s' : Scan} (hs : Inside s) (hgo : Goes packet dhcpVerbose code s s') :
      (∀ g, s.looked g = true → s'.looked g = true) ∧
        (s'.field = s.field ∧ s.off < s'.off ∨ s.looked s'.field = false) := by
    rcases turn_next hgo with
      ⟨len, hpos, -, hfield, hoff, -, hlooked⟩ | ⟨f, heq, -, hno, hyes, hsame⟩
    · exact ⟨fun g hg => (hlooked g).trans hg, Or.inl ⟨hfield, by omega⟩⟩
    · refine ⟨fun g hg => ?_, Or.inr ?_⟩
      · by_cases hf : g = f
        · rw [hf]
          exact hyes
        · rw [hsame g hf]
          exact hg
      · rw [heq]
        exact hno
  induction h with
  | single hgo =>
    obtain ⟨hkeep, hwhere⟩ := hturn hs hgo
    refine ⟨hkeep _ hs.noted, fun hfield => ?_⟩
    rcases hwhere with ⟨-, hoff⟩ | hno
    · exact hoff
    · rw [hfield, hs.noted] at hno
      cases hno
  | @tail t u hst hgo ih =>
    obtain ⟨hlooked, hoff⟩ := ih
    obtain ⟨hkeep, hwhere⟩ := hturn (hs.reaches hst.to_reflTransGen) hgo
    refine ⟨hkeep _ hlooked, fun hfield => ?_⟩
    rcases hwhere with ⟨hsame, hlt⟩ | hno
    · exact Nat.lt_trans (hoff (hsame.symm.trans hfield)) hlt
    · rw [hfield, hlooked] at hno
      cases hno

/-- **Looking up an option is safe**, whatever the packet holds.  `udhcp_get_option` ends and
reads inside the fields only; what it finds lies inside one field with its code and its length;
and it goes through no field twice.  The same holds of `udhcp_get_option32`. -/
theorem udhcpGetOption_safe (packet : DhcpPacket) (dhcpVerbose : ℕ) (code : ℤ) :
    (∃ a, udhcpGetOption packet dhcpVerbose code = some a ∧ a.Lies packet code) ∧
      (∃ a, udhcpGetOption32 packet dhcpVerbose code = some a ∧ a.Lies packet code) ∧
      ∀ s t, Relation.ReflTransGen (Goes packet dhcpVerbose code) (.enter .options 0) s →
        Relation.TransGen (Goes packet dhcpVerbose code) s t → t.field = s.field →
          s.off < t.off := by
  have hwalk : ∃ a, udhcpGetOption packet dhcpVerbose code = some a ∧ a.Lies packet code :=
    inside_start.walk
  obtain ⟨a, hget, hlies⟩ := hwalk
  refine ⟨⟨a, hget, hlies⟩, ?_, fun s t hs hst => ((inside_start.reaches hs).ahead hst).2⟩
  rw [udhcpGetOption32, hget]
  cases a with
  | found f off =>
    obtain ⟨hoff, c, l, -, -, hl, -⟩ := id hlies
    have hl' : packet.byte f (off - 2 + 1) = some l := by
      rw [show off - 2 + 1 = off - 1 by omega]
      exact hl
    simp only [Option.bind_eq_bind, Option.bind_some, hl']
    by_cases h4 : l ≠ 4
    · exact ⟨.absent, by rw [if_pos h4]; rfl, trivial⟩
    · exact ⟨.found f off, by rw [if_neg h4]; rfl, hlies⟩
  | absent => exact ⟨.absent, rfl, trivial⟩
  | malformed => exact ⟨.malformed, rfl, trivial⟩

end Rustybox.Dhcp
