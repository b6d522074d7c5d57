import Rustybox.Dhcp.Packet
import Rustybox.Rust.Bytes

/-!
# Options of a DHCP packet: adding them

Options are put one behind the other from the start of the field `options`, and an end option is
kept behind the last of them.  An option that would reach past the first 308 bytes is refused.

`Laid`: what the field starts with.  `udhcp_end_option` and `udhcp_get_option` read that, and
adding an option puts it behind the others (`Laid.add`).

`addopt` points to the bytes of an option; what is behind them is there too, since a simple option
that is longer than its four bytes is copied with what follows the array.
-/

namespace Rustybox.Dhcp

open Rustybox.Rust

/-! ### The code -/

/-- The loop of `udhcp_end_option`; no result where it runs out of the field. -/
def endLoop (options : Vector UInt8 388) (i : ℕ) : Option ℕ :=
  if h : i < 388 then
    if options[i] ≠ endOption then
      if options[i] ≠ padding then
        match options[i + 1]? with
        | none => none
        | some l => endLoop options (i + (l.toNat + 2 - 1) + 1)
      else endLoop options (i + 1)
    else some i
  else none
termination_by 388 - i

def udhcpEndOption (options : Vector UInt8 388) : Option ℕ := endLoop options 0

/-- What a call reports. -/
inductive Report
  | added
  /-- `option 0x%02x did not fit into the packet` -/
  | didNotFit (code : UInt8)
  /-- `can't add option 0x%02x` -/
  | cannotAdd (code : UInt8)
deriving DecidableEq

/-- An option behind the others, and the end option behind it. -/
def writeOption (options : Vector UInt8 388) (pos len : ℕ) (addopt : ℕ → UInt8) :
    Vector UInt8 388 :=
  Vector.ofFn fun i =>
    if i = pos + len then endOption
    else if pos ≤ i ∧ i < pos + len then addopt (i - pos)
    else options[i]

/-- `udhcp_add_binary_option`; no result where the packet has no end option. -/
def udhcpAddBinaryOption (packet : DhcpPacket) (addopt : ℕ → UInt8) :
    Option (DhcpPacket × Report) := do
  let pos ← udhcpEndOption packet.options
  let len := 2 + (addopt 1).toNat
  -- end position + (option code/length + addopt length) + end option
  if 308 ≤ pos + len + 1 then return (packet, .didNotFit (addopt 0))
  else return ({ packet with options := writeOption packet.options pos len addopt }, .added)

inductive OptionType
  | ip
  | ipPair
  | string
  | stringHost
  | u8
  | u16
  | u32
  | s32
  | bin
  | staticRoutes
  | sixRd
  | dnsString
  | sipServers
deriving DecidableEq

/-- `dhcp_option_lengths`. -/
def OptionType.length : OptionType → UInt8
  | .ip => 4
  | .ipPair => 8
  | .string => 1
  | .stringHost => 1
  | .u8 => 1
  | .u16 => 2
  | .u32 => 4
  | .s32 => 4
  | .bin => 0
  | .staticRoutes => 5
  | .sixRd => 12
  | .dnsString => 1
  | .sipServers => 1

/-- `struct dhcp_optflag`: the type of an option and whether it is a list.  The flag
`OPTION_REQ` is for the client. -/
structure DhcpOptflag where
  code : UInt8
  type : OptionType
  list : Bool

def dhcpOptflags : List DhcpOptflag :=
  [⟨0x01, .ip, false⟩, ⟨0x02, .s32, false⟩, ⟨0x03, .ip, true⟩, ⟨0x06, .ip, true⟩,
    ⟨0x09, .ip, true⟩, ⟨0x0c, .stringHost, false⟩, ⟨0x0d, .u16, false⟩,
    ⟨0x0f, .stringHost, false⟩, ⟨0x10, .ip, false⟩, ⟨0x11, .string, false⟩, ⟨0x17, .u8, false⟩,
    ⟨0x1a, .u16, false⟩, ⟨0x1c, .ip, false⟩, ⟨0x21, .ipPair, true⟩, ⟨0x28, .stringHost, false⟩,
    ⟨0x29, .ip, true⟩, ⟨0x2a, .ip, true⟩, ⟨0x2c, .ip, true⟩, ⟨0x33, .u32, false⟩,
    ⟨0x36, .ip, false⟩, ⟨0x38, .string, false⟩, ⟨0x42, .stringHost, false⟩,
    ⟨0x43, .string, false⟩, ⟨0x64, .string, false⟩, ⟨0x65, .string, false⟩,
    ⟨0x77, .dnsString, true⟩, ⟨0x78, .sipServers, false⟩, ⟨0x79, .staticRoutes, true⟩,
    ⟨0x84, .u16, false⟩, ⟨0x85, .u8, false⟩, ⟨0xd1, .string, false⟩, ⟨0xd2, .string, false⟩,
    ⟨0xd3, .u32, false⟩, ⟨0xd4, .sixRd, false⟩, ⟨0xf9, .staticRoutes, true⟩,
    ⟨0xfc, .string, false⟩, ⟨0x32, .ip, false⟩, ⟨0x35, .u8, false⟩, ⟨0x39, .u16, false⟩]

/-- The array `option` of `udhcp_add_simple_option` with what is behind it in memory. -/
def simpleOption (code len : UInt8) (data : UInt32) (behind : ℕ → UInt8) : ℕ → UInt8
  | 0 => code
  | 1 => len
  | i + 2 => if i < 4 then (leBytes 4 data.toNat).getD i 0 else behind (i - 4)

def udhcpAddSimpleOption (packet : DhcpPacket) (code : UInt8) (data : UInt32)
    (behind : ℕ → UInt8) : Option (DhcpPacket × Report) :=
  match dhcpOptflags.find? (·.code = code) with
  | some dh => udhcpAddBinaryOption packet (simpleOption code dh.type.length data behind)
  | none => some (packet, .cannotAdd code)

/-- The packet of `udhcp_init_header`, before its option is added. -/
def blankHeader (type : BitVec 8) : DhcpPacket where
  -- DHCPOFFER, DHCPACK and DHCPNAK are replies
  op := if type = 2 ∨ type = 5 ∨ type = 6 then 2 else 1
  htype := 1
  hlen := 6
  hops := 0
  xid := 0
  secs := 0
  flags := 0
  ciaddr := 0
  yiaddr := 0
  siaddrNip := 0
  gatewayNip := 0
  chaddr := Vector.replicate 16 0
  sname := Vector.replicate 64 0
  file := Vector.replicate 128 0
  cookie := 0x63538263
  options := (Vector.replicate 388 0).set 0 endOption

/-- `udhcp_init_header`; the type of the message is a `c_char`. -/
def udhcpInitHeader (type : BitVec 8) (behind : ℕ → UInt8) : Option (DhcpPacket × Report) :=
  udhcpAddSimpleOption (blankHeader type) 0x35 (UInt32.ofBitVec (type.signExtend 32)) behind

/-! ### Options -/

/-- An option: its code is none of those with a meaning for the walk, and it has data. -/
structure Entry where
  code : UInt8
  data : List UInt8
  code_ne_padding : code ≠ padding
  code_ne_endOption : code ≠ endOption
  code_ne_optionOverload : code ≠ optionOverload
  data_pos : 0 < data.length
  data_lt : data.length < 256

/-- The option in a packet: its code, its length and its data. -/
def Entry.bytes (e : Entry) : List UInt8 := e.code :: UInt8.ofNat e.data.length :: e.data

theorem Entry.toNat_length (e : Entry) : (UInt8.ofNat e.data.length).toNat = e.data.length :=
  UInt8.toNat_ofNat_of_lt' e.data_lt

theorem Entry.length_bytes (e : Entry) : e.bytes.length = e.data.length + 2 := rfl

/-- What the field `options` holds when the options have been added. -/
def layout (es : List Entry) : List UInt8 := es.flatMap Entry.bytes ++ [endOption]

theorem layout_cons (e : Entry) (es : List Entry) : layout (e :: es) = e.bytes ++ layout es := by
  rw [layout, List.flatMap_cons, List.append_assoc, layout]

/-- The bytes of a field from `i` on. -/
def At (options : Vector UInt8 388) (i : ℕ) (bs : List UInt8) : Prop :=
  ∀ k, k < bs.length → options[i + k]? = bs[k]?

theorem at_cons {options : Vector UInt8 388} {i : ℕ} {b : UInt8} {bs : List UInt8} :
    At options i (b :: bs) ↔ options[i]? = some b ∧ At options (i + 1) bs := by
  constructor
  · intro h
    refine ⟨h 0 (Nat.succ_pos _), fun k hk => ?_⟩
    have hk' := h (k + 1) (Nat.succ_lt_succ hk)
    rw [List.getElem?_cons_succ] at hk'
    rw [← hk', Nat.add_assoc, Nat.add_comm 1 k]
  · rintro ⟨hb, hbs⟩ k hk
    cases k with
    | zero => exact hb
    | succ k =>
      rw [List.getElem?_cons_succ, ← hbs k (Nat.lt_of_succ_lt_succ hk), Nat.add_assoc,
        Nat.add_comm 1 k]

theorem at_append {options : Vector UInt8 388} {i : ℕ} {as bs : List UInt8} :
    At options i (as ++ bs) ↔ At options i as ∧ At options (i + as.length) bs := by
  induction as generalizing i with
  | nil => exact ⟨fun h => ⟨fun k hk => absurd hk (Nat.not_lt_zero k), h⟩, fun h => h.2⟩
  | cons a as ih =>
    rw [List.cons_append, at_cons, at_cons, ih, and_assoc, List.length_cons,
      Nat.add_assoc, Nat.add_comm 1]

theorem At.lt {options : Vector UInt8 388} {i : ℕ} {b : UInt8} (h : options[i]? = some b) :
    i < 388 := by
  by_contra hi
  rw [Vector.getElem?_eq_none (Nat.le_of_not_lt hi)] at h
  cases h

theorem At.layout_lt {options : Vector UInt8 388} {i : ℕ} {es : List Entry}
    (h : At options i (layout es)) : i < 388 := by
  cases es with
  | nil => exact At.lt (at_cons.mp h).1
  | cons e es =>
    rw [layout_cons, Entry.bytes, List.cons_append] at h
    exact At.lt (at_cons.mp h).1

theorem At.bytesAt {packet : DhcpPacket} {i : ℕ} {bs : List UInt8}
    (h : At packet.options i bs) : packet.bytesAt .options i bs.length = some bs := by
  induction bs generalizing i with
  | nil => rfl
  | cons b bs ih =>
    obtain ⟨hb, hbs⟩ := at_cons.mp h
    rw [List.length_cons, DhcpPacket.bytesAt, DhcpPacket.byte, hb, ih hbs]
    rfl

/-! ### Reading the options -/

/-- `udhcp_end_option` finds the end option behind the options. -/
theorem At.endLoop {options : Vector UInt8 388} {i : ℕ} {es : List Entry}
    (h : At options i (layout es)) :
    Dhcp.endLoop options i = some (i + (es.flatMap Entry.bytes).length) := by
  induction es generalizing i with
  | nil =>
    have hi := h.layout_lt
    have hend : options[i] = endOption := by
      have hend := (at_cons.mp h).1
      rw [Vector.getElem?_eq_getElem hi] at hend
      exact Option.some.inj hend
    rw [Dhcp.endLoop, dif_pos hi, if_neg (not_not.mpr hend)]
    rfl
  | cons e es ih =>
    have hi := h.layout_lt
    rw [layout_cons, at_append] at h
    obtain ⟨he, hes⟩ := h
    obtain ⟨hcode, hrest⟩ := at_cons.mp he
    have hlen := (at_cons.mp hrest).1
    rw [Vector.getElem?_eq_getElem hi] at hcode
    have hcode := Option.some.inj hcode
    rw [Dhcp.endLoop, dif_pos hi, if_pos (hcode ▸ e.code_ne_endOption),
      if_pos (hcode ▸ e.code_ne_padding), hlen]
    dsimp only
    rw [e.toNat_length, show i + (e.data.length + 2 - 1) + 1 = i + e.bytes.length by
      rw [e.length_bytes]; omega, ih hes, List.flatMap_cons, List.length_append, Nat.add_assoc]

/-- The walk of a lookup is in the field `options`, and no overload option has been seen. -/
def scanAt (i : ℕ) : Scan := { field := .options, off := i, rem := 388 - i, overload := 0 }

/-- **The turn at an option** finds it or goes on behind it. -/
theorem At.turn {packet : DhcpPacket} {dhcpVerbose i : ℕ} {code : ℤ} {e : Entry}
    {es : List Entry} (h : At packet.options i (layout (e :: es))) :
    Dhcp.turn packet dhcpVerbose code (scanAt i) =
      if (e.code.toNat : ℤ) = code then .done (.found .options (i + 2))
      else .next (scanAt (i + e.bytes.length)) := by
  rw [layout_cons, at_append] at h
  obtain ⟨he, hes⟩ := h
  have hlt := hes.layout_lt
  rw [e.length_bytes] at hlt
  obtain ⟨hcode, hrest⟩ := at_cons.mp he
  obtain ⟨hlen, hdata⟩ := at_cons.mp hrest
  have hpos := e.data_pos
  have hrem : ¬ (scanAt i).rem ≤ 0 := by
    show ¬ (388 - (i : ℤ)) ≤ 0
    omega
  have hrem1 : ¬ (scanAt i).rem ≤ 1 := by
    show ¬ (388 - (i : ℤ)) ≤ 1
    omega
  have hrem2 : ¬ (scanAt i).rem - ((2 + e.data.length : ℕ) : ℤ) < 0 := by
    show ¬ (388 - (i : ℤ)) - ((2 + e.data.length : ℕ) : ℤ) < 0
    omega
  have hc : packet.byte (scanAt i).field (scanAt i).off = some e.code := hcode
  have hl : packet.byte (scanAt i).field ((scanAt i).off + 1) =
      some (UInt8.ofNat e.data.length) := hlen
  have hl0 : UInt8.ofNat e.data.length ≠ 0 := by
    intro h0
    have h0' := e.toNat_length
    rw [h0] at h0'
    exact absurd h0'.symm (Nat.ne_of_gt hpos)
  rw [Dhcp.turn, if_neg hrem, hc]
  dsimp only
  rw [if_neg e.code_ne_padding, if_neg e.code_ne_endOption, atOption, if_neg hrem1, hl]
  dsimp only
  rw [e.toNat_length, if_neg hrem2]
  by_cases hfound : (e.code.toNat : ℤ) = code
  · rw [if_pos hfound, if_pos hfound, if_neg hl0, logOption]
    have hbytes : packet.bytesAt (scanAt i).field ((scanAt i).off + 2) e.data.length =
        some e.data := hdata.bytesAt
    rw [hbytes]
    split <;> rfl
  · rw [if_neg hfound, if_neg hfound, if_neg (fun h => e.code_ne_optionOverload h.1)]
    have hnext : (388 - (i : ℤ)) - ((2 + e.data.length : ℕ) : ℤ) =
        388 - ((i + e.bytes.length : ℕ) : ℤ) := by
      rw [e.length_bytes]
      omega
    rw [scanAt, hnext, Nat.add_comm 2, ← e.length_bytes]
    rfl

theorem At.turn_nil {packet : DhcpPacket} {dhcpVerbose i : ℕ} {code : ℤ}
    (h : At packet.options i (layout [])) :
    Dhcp.turn packet dhcpVerbose code (scanAt i) = .done .absent := by
  have hlt := h.layout_lt
  have hrem : ¬ (scanAt i).rem ≤ 0 := by
    show ¬ (388 - (i : ℤ)) ≤ 0
    omega
  have hc : packet.byte (scanAt i).field (scanAt i).off = some endOption := (at_cons.mp h).1
  rw [Dhcp.turn, if_neg hrem, hc]
  dsimp only
  have hfile : ¬ (0 : BitVec 32) &&& fileField101 = 1 := by decide
  have hsname : ¬ (0 : BitVec 32) &&& snameField101 = 2 := by decide
  rw [if_neg (by decide), if_pos rfl, atEnd, scanAt, if_neg hfile, if_pos hsname]

/-- What a lookup answers about a list of options: the data of the first with the code. -/
def Finds (packet : DhcpPacket) (code : ℤ) (es : List Entry) (a : Answer) : Prop :=
  match es.find? fun e => (e.code.toNat : ℤ) = code with
  | none => a = .absent
  | some e => ∃ off, a = .found .options off ∧
      packet.byte .options (off - 1) = some (UInt8.ofNat e.data.length) ∧
      packet.bytesAt .options off e.data.length = some e.data

theorem finds_cons_of_ne {packet : DhcpPacket} {code : ℤ} {e : Entry} {es : List Entry}
    {a : Answer} (hne : ¬ (e.code.toNat : ℤ) = code) (h : Finds packet code es a) :
    Finds packet code (e :: es) a := by
  rw [Finds, List.find?_cons_of_neg (by simpa using hne)]
  exact h

/-- **The walk** finds the first option with the code, if there is one. -/
theorem At.walk {packet : DhcpPacket} {dhcpVerbose i : ℕ} {code : ℤ} {es : List Entry}
    (h : At packet.options i (layout es)) :
    ∃ a, Dhcp.walk packet dhcpVerbose code (scanAt i) = some a ∧ Finds packet code es a := by
  induction es generalizing i with
  | nil => exact ⟨.absent, walk_done h.turn_nil, rfl⟩
  | cons e es ih =>
    have hturn : Dhcp.turn packet dhcpVerbose code (scanAt i) =
        if (e.code.toNat : ℤ) = code then .done (.found .options (i + 2))
        else .next (scanAt (i + e.bytes.length)) := h.turn
    rw [layout_cons, at_append] at h
    obtain ⟨he, hes⟩ := h
    by_cases hfound : (e.code.toNat : ℤ) = code
    · rw [if_pos hfound] at hturn
      refine ⟨.found .options (i + 2), walk_done hturn, ?_⟩
      obtain ⟨-, hrest⟩ := at_cons.mp he
      obtain ⟨hlen, hdata⟩ := at_cons.mp hrest
      rw [Finds, List.find?_cons_of_pos (by simpa using hfound)]
      exact ⟨i + 2, rfl, hlen, hdata.bytesAt⟩
    · rw [if_neg hfound] at hturn
      obtain ⟨a, hwalk, hfinds⟩ := ih hes
      exact ⟨a, (walk_next hturn).trans hwalk, finds_cons_of_ne hfound hfinds⟩

/-! ### Adding an option -/

/-- The options have been laid out from the start of the field, in its first 308 bytes. -/
structure Laid (options : Vector UInt8 388) (es : List Entry) : Prop where
  layout : At options 0 (layout es)
  fits : (es.flatMap Entry.bytes).length < 308

theorem Laid.udhcpEndOption {options : Vector UInt8 388} {es : List Entry}
    (h : Laid options es) :
    Dhcp.udhcpEndOption options = some (es.flatMap Entry.bytes).length := by
  have hend := h.layout.endLoop
  rw [Nat.zero_add] at hend
  exact hend

/-- `addopt` points to an option: its code is none of those with a meaning for the walk, and it
has data. -/
structure Points (addopt : ℕ → UInt8) : Prop where
  code_ne_padding : addopt 0 ≠ padding
  code_ne_endOption : addopt 0 ≠ endOption
  code_ne_optionOverload : addopt 0 ≠ optionOverload
  length_ne_zero : addopt 1 ≠ 0

/-- The option that `addopt` points to. -/
def Points.entry {addopt : ℕ → UInt8} (h : Points addopt) : Entry where
  code := addopt 0
  data := (List.range (addopt 1).toNat).map fun k => addopt (k + 2)
  code_ne_padding := h.code_ne_padding
  code_ne_endOption := h.code_ne_endOption
  code_ne_optionOverload := h.code_ne_optionOverload
  data_pos := by
    rw [List.length_map, List.length_range, Nat.pos_iff_ne_zero]
    exact fun h0 => h.length_ne_zero (UInt8.toNat_inj.mp h0)
  data_lt := by
    rw [List.length_map, List.length_range]
    exact (addopt 1).toNat_lt

/-- The bytes that `addopt` points to are those of an option. -/
def IsEntry (addopt : ℕ → UInt8) (e : Entry) : Prop :=
  (addopt 1).toNat = e.data.length ∧ ∀ k, k < e.bytes.length → e.bytes[k]? = some (addopt k)

theorem getElem_writeOption {options : Vector UInt8 388} {pos len : ℕ} {addopt : ℕ → UInt8}
    {i : ℕ} (hi : i < 388) :
    (writeOption options pos len addopt)[i]? = some
      (if i = pos + len then endOption
        else if pos ≤ i ∧ i < pos + len then addopt (i - pos) else options[i]) := by
  rw [Vector.getElem?_eq_getElem hi, writeOption, Vector.getElem_ofFn]
  rfl

theorem writeOption_of_lt {options : Vector UInt8 388} {pos len : ℕ} {addopt : ℕ → UInt8}
    {i : ℕ} (h : i < pos) : (writeOption options pos len addopt)[i]? = options[i]? := by
  by_cases hi : i < 388
  · rw [getElem_writeOption hi, if_neg (by omega), if_neg (by omega),
      Vector.getElem?_eq_getElem hi]
  · rw [Vector.getElem?_eq_none (Nat.le_of_not_lt hi),
      Vector.getElem?_eq_none (Nat.le_of_not_lt hi)]

theorem writeOption_of_mem {options : Vector UInt8 388} {pos len : ℕ} {addopt : ℕ → UInt8}
    {k : ℕ} (hk : k < len) (h : pos + len < 388) :
    (writeOption options pos len addopt)[pos + k]? = some (addopt k) := by
  rw [getElem_writeOption (by omega), if_neg (by omega), if_pos (by omega),
    Nat.add_sub_cancel_left]

theorem writeOption_end {options : Vector UInt8 388} {pos len : ℕ} {addopt : ℕ → UInt8}
    (h : pos + len < 388) :
    (writeOption options pos len addopt)[pos + len]? = some endOption := by
  rw [getElem_writeOption h, if_pos rfl]

/-- **Adding an option** puts it behind the others. -/
theorem Laid.write {options : Vector UInt8 388} {es : List Entry} (h : Laid options es)
    {addopt : ℕ → UInt8} {e : Entry} (he : IsEntry addopt e)
    (hfits : ¬ 308 ≤ (es.flatMap Entry.bytes).length + (2 + (addopt 1).toNat) + 1) :
    Laid (writeOption options (es.flatMap Entry.bytes).length (2 + (addopt 1).toNat) addopt)
      (es ++ [e]) := by
  have hlen : 2 + (addopt 1).toNat = e.bytes.length := by
    rw [he.1, e.length_bytes, Nat.add_comm]
  have hold : At options 0 (es.flatMap Entry.bytes) := (at_append.mp h.layout).1
  rw [hlen] at hfits ⊢
  refine ⟨?_, ?_⟩
  · rw [Dhcp.layout, List.flatMap_append, List.flatMap_singleton, List.append_assoc, at_append,
      at_append, Nat.zero_add]
    refine ⟨fun k hk => ?_, fun k hk => ?_, fun k hk => ?_⟩
    · rw [Nat.zero_add, writeOption_of_lt hk, ← hold k hk, Nat.zero_add]
    · rw [writeOption_of_mem hk (by omega), he.2 k hk]
    · rw [List.length_singleton, Nat.lt_one_iff] at hk
      rw [hk, Nat.add_zero, writeOption_end (by omega)]
      rfl
  · rw [List.flatMap_append, List.flatMap_singleton, List.length_append]
    omega

theorem Points.isEntry {addopt : ℕ → UInt8} (h : Points addopt) : IsEntry addopt h.entry := by
  have hlen : h.entry.data.length = (addopt 1).toNat := by
    rw [Points.entry, List.length_map, List.length_range]
  refine ⟨hlen.symm, fun k hk => ?_⟩
  rw [Entry.length_bytes, hlen] at hk
  match k with
  | 0 => rfl
  | 1 =>
    rw [Entry.bytes, hlen, UInt8.ofNat_toNat]
    rfl
  | k + 2 =>
    rw [Entry.bytes, List.getElem?_cons_succ, List.getElem?_cons_succ, Points.entry,
      List.getElem?_map, List.getElem?_range (by omega)]
    rfl

theorem simpleOption_points {code : UInt8} {dh : DhcpOptflag}
    (h : dhcpOptflags.find? (·.code = code) = some dh) (data : UInt32) (behind : ℕ → UInt8) :
    Points (simpleOption code dh.type.length data behind) := by
  have hall : ∀ dh ∈ dhcpOptflags, dh.code ≠ padding ∧ dh.code ≠ endOption ∧
      dh.code ≠ optionOverload ∧ dh.type.length ≠ 0 := by decide
  have hcode : dh.code = code := by simpa using List.find?_some h
  obtain ⟨h1, h2, h3, h4⟩ := hall dh (List.mem_of_find?_eq_some h)
  rw [hcode] at h1 h2 h3
  exact ⟨h1, h2, h3, h4⟩

/-- A call that adds an option. -/
inductive Call
  | binary (addopt : ℕ → UInt8) (h : Points addopt)
  | simple (code : UInt8) (data : UInt32) (behind : ℕ → UInt8)

def Call.run (packet : DhcpPacket) : Call → Option (DhcpPacket × Report)
  | .binary addopt _ => udhcpAddBinaryOption packet addopt
  | .simple code data behind => udhcpAddSimpleOption packet code data behind

/-- The option that a call adds, if there is one with the code. -/
def Call.entry : Call → Option Entry
  | .binary _ h => some h.entry
  | .simple code data behind =>
    match h : dhcpOptflags.find? (·.code = code) with
    | some _ => some (simpleOption_points h data behind).entry
    | none => none

/-- Calls one after the other, with what each of them reports. -/
def addAll (packet : DhcpPacket) : List Call → Option (DhcpPacket × List (Call × Report))
  | [] => some (packet, [])
  | c :: cs => do
    let (packet₁, r) ← c.run packet
    let (packet₂, rs) ← addAll packet₁ cs
    return (packet₂, (c, r) :: rs)

def added (rs : List (Call × Report)) : List Entry :=
  rs.filterMap fun cr => if cr.2 = .added then cr.1.entry else none

theorem added_cons {c : Call} {e : Entry} (he : c.entry = some e) (rs : List (Call × Report)) :
    added ((c, .added) :: rs) = e :: added rs :=
  List.filterMap_cons_some (by rw [if_pos rfl]; exact he)

theorem added_cons_of_ne {c : Call} {r : Report} (hr : r ≠ .added)
    (rs : List (Call × Report)) : added ((c, r) :: rs) = added rs :=
  List.filterMap_cons_none (if_neg hr)

theorem added_append (rs rs' : List (Call × Report)) :
    added (rs ++ rs') = added rs ++ added rs' :=
  List.filterMap_append

theorem Laid.addBinary {packet : DhcpPacket} {es : List Entry} (h : Laid packet.options es)
    {addopt : ℕ → UInt8} (hp : Points addopt) :
    ∃ packet' r, udhcpAddBinaryOption packet addopt = some (packet', r) ∧
      (r = .added ∧ Laid packet'.options (es ++ [hp.entry]) ∨
        r = .didNotFit (addopt 0) ∧ packet' = packet ∧
          308 ≤ (es.flatMap Entry.bytes).length + (2 + (addopt 1).toNat) + 1) := by
  rw [udhcpAddBinaryOption, h.udhcpEndOption]
  simp only [Option.bind_eq_bind, Option.bind_some]
  by_cases hfits : 308 ≤ (es.flatMap Entry.bytes).length + (2 + (addopt 1).toNat) + 1
  · rw [if_pos hfits]
    exact ⟨_, _, rfl, Or.inr ⟨rfl, rfl, hfits⟩⟩
  · rw [if_neg hfits]
    exact ⟨_, _, rfl, Or.inl ⟨rfl, h.write hp.isEntry hfits⟩⟩

/-- **One call** adds its option behind the others, or it leaves the packet as it is. -/
theorem Laid.run {packet : DhcpPacket} {es : List Entry} (h : Laid packet.options es)
    (c : Call) :
    ∃ packet' r, c.run packet = some (packet', r) ∧
      (r = .added ∧ (∃ e, c.entry = some e ∧ Laid packet'.options (es ++ [e])) ∨
        r ≠ .added ∧ packet' = packet) := by
  cases c with
  | binary addopt hp =>
    obtain ⟨packet', r, hrun, ⟨hr, hlaid⟩ | ⟨hr, hsame, -⟩⟩ := h.addBinary hp
    · exact ⟨packet', r, hrun, Or.inl ⟨hr, _, rfl, hlaid⟩⟩
    · exact ⟨packet', r, hrun, Or.inr ⟨by rw [hr]; exact Report.noConfusion, hsame⟩⟩
  | simple code data behind =>
    rw [Call.run, udhcpAddSimpleOption, Call.entry]
    split
    · rename_i dh hfind
      obtain ⟨packet', r, hrun, ⟨hr, hlaid⟩ | ⟨hr, hsame, -⟩⟩ :=
        h.addBinary (simpleOption_points hfind data behind)
      · refine ⟨packet', r, hrun, Or.inl ⟨hr, _, ?_, hlaid⟩⟩
        split
        · rename_i dh' hfind'
          rw [hfind] at hfind'
          cases hfind'
          rfl
        · rename_i hnone
          rw [hfind] at hnone
          cases hnone
      · exact ⟨packet', r, hrun, Or.inr ⟨by rw [hr]; exact Report.noConfusion, hsame⟩⟩
    · exact ⟨packet, _, rfl, Or.inr ⟨Report.noConfusion, rfl⟩⟩

/-- **Calls one after the other** leave the options that they have added behind the others. -/
theorem Laid.addAll {packet : DhcpPacket} {es : List Entry} (h : Laid packet.options es)
    (cs : List Call) :
    ∃ packet' rs, Dhcp.addAll packet cs = some (packet', rs) ∧ rs.map Prod.fst = cs ∧
      Laid packet'.options (es ++ added rs) := by
  induction cs generalizing packet es with
  | nil =>
    refine ⟨packet, [], rfl, rfl, ?_⟩
    rw [added, List.filterMap_nil, List.append_nil]
    exact h
  | cons c cs ih =>
    obtain ⟨packet₁, r, hrun, hcase⟩ := h.run c
    obtain ⟨packet₂, rs, hall, hcalls, hlaid⟩ : ∃ packet₂ rs,
        Dhcp.addAll packet₁ cs = some (packet₂, rs) ∧ rs.map Prod.fst = cs ∧
          Laid packet₂.options (es ++ added ((c, r) :: rs)) := by
      rcases hcase with ⟨hr, e, he, hlaid₁⟩ | ⟨hr, hsame⟩
      · obtain ⟨packet₂, rs, hall, hcalls, hlaid⟩ := ih hlaid₁
        refine ⟨packet₂, rs, hall, hcalls, ?_⟩
        rw [List.append_assoc] at hlaid
        rw [hr, added_cons he]
        exact hlaid
      · rw [hsame]
        obtain ⟨packet₂, rs, hall, hcalls, hlaid⟩ := ih h
        refine ⟨packet₂, rs, hall, hcalls, ?_⟩
        rw [added_cons_of_ne hr]
        exact hlaid
    refine ⟨packet₂, (c, r) :: rs, ?_, ?_, hlaid⟩
    · rw [Dhcp.addAll, hrun]
      simp only [Option.bind_eq_bind, Option.bind_some, hall]
      rfl
    · rw [List.map_cons, hcalls]

/-! ### The built packet -/

/-- The call of `udhcp_init_header`. -/
def messageType (type : BitVec 8) (behind : ℕ → UInt8) : Call :=
  .simple 0x35 (UInt32.ofBitVec (type.signExtend 32)) behind

theorem blankHeader_laid (type : BitVec 8) : Laid (blankHeader type).options [] := by
  refine ⟨at_cons.mpr ⟨?_, fun k hk => absurd hk (Nat.not_lt_zero k)⟩, by decide⟩
  rw [blankHeader, Vector.getElem?_set_self]

theorem udhcpInitHeader_laid (type : BitVec 8) (behind : ℕ → UInt8) :
    ∃ header, udhcpInitHeader type behind = some (header, .added) ∧
      Laid header.options (added [(messageType type behind, .added)]) := by
  have hfind : dhcpOptflags.find? (·.code = 0x35) = some ⟨0x35, .u8, false⟩ := by rfl
  have hpoints := simpleOption_points hfind (UInt32.ofBitVec (type.signExtend 32)) behind
  have hentry : (messageType type behind).entry = some hpoints.entry := by
    rw [messageType, Call.entry]
    split
    · rename_i dh hfind'
      rw [hfind] at hfind'
      cases hfind'
      rfl
    · rename_i hnone
      rw [hfind] at hnone
      cases hnone
  obtain ⟨header, r, hadd, ⟨hr, hlaid⟩ | ⟨-, -, hfits⟩⟩ :=
    (blankHeader_laid type).addBinary hpoints
  · refine ⟨header, ?_, ?_⟩
    · rw [udhcpInitHeader, udhcpAddSimpleOption, hfind, ← hr]
      exact hadd
    · rw [added_cons hentry]
      exact hlaid
  · have hlen : (simpleOption 0x35 1 (UInt32.ofBitVec (type.signExtend 32)) behind 1).toNat = 1 :=
      rfl
    have hnone : (([] : List Entry).flatMap Entry.bytes).length = 0 := rfl
    rw [OptionType.length, hlen, hnone] at hfits
    omega

/-- **Building options.**  However calls follow each other after `udhcp_init_header`, the end
option is in the first 308 bytes, where `udhcp_end_option` finds it; a call that does not add its
option leaves the packet as it is; and a lookup finds the data of the first option that was added
with the code, or nothing if none was. -/
theorem options_built (type : BitVec 8) (behind : ℕ → UInt8) (calls : List Call) :
    ∃ header, udhcpInitHeader type behind = some (header, .added) ∧
      ∃ packet rs, addAll header calls = some (packet, rs) ∧ rs.map Prod.fst = calls ∧
        (∃ pos, udhcpEndOption packet.options = some pos ∧ pos < 308 ∧
          packet.byte .options pos = some endOption) ∧
        (∀ c : Call, ∃ packet' r, c.run packet = some (packet', r) ∧
          (r ≠ .added → packet' = packet)) ∧
        ∀ (dhcpVerbose : ℕ) (code : ℤ), ∃ a, udhcpGetOption packet dhcpVerbose code = some a ∧
          Finds packet code (added ((messageType type behind, .added) :: rs)) a := by
  obtain ⟨header, hheader, hlaid⟩ := udhcpInitHeader_laid type behind
  obtain ⟨packet, rs, hall, hcalls, hbuilt⟩ := hlaid.addAll calls
  have hend : At packet.options _ [endOption] := (at_append.mp hbuilt.layout).2
  rw [Nat.zero_add] at hend
  refine ⟨header, hheader, packet, rs, hall, hcalls,
    ⟨_, hbuilt.udhcpEndOption, hbuilt.fits, (at_cons.mp hend).1⟩, fun c => ?_,
    fun dhcpVerbose code => ?_⟩
  · obtain ⟨packet', r, hrun, ⟨hr, -⟩ | ⟨-, hsame⟩⟩ := hbuilt.run c
    · exact ⟨packet', r, hrun, fun hno => absurd hr hno⟩
    · exact ⟨packet', r, hrun, fun _ => hsame⟩
  · have hwalk : ∃ a, walk packet dhcpVerbose code (scanAt 0) = some a ∧
        Finds packet code (added [(messageType type behind, .added)] ++ added rs) a :=
      hbuilt.layout.walk
    rw [← added_append] at hwalk
    exact hwalk

end Rustybox.Dhcp
