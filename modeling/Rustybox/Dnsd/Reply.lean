import Rustybox.Dnsd.Message
import Rustybox.Rust.Bytes
import Rustybox.Rust.CStr
import Rustybox.Rust.Memory

/-!
# The server's reply

`process_packet` of dnsd builds the reply over the query, in the buffer that the query was received
in.  The sixteen bit fields of a message are compared with swapped constants, so they are read with
the high byte first here.

A reply is right when it reads as a message that repeats the query's first question, when it fits,
and when it is the same whatever was in the buffer before.  The code takes the first NUL byte for
the end of the question's name, and never looks at how long the datagram is.
-/

namespace Rustybox.Dnsd

open Rustybox.Rust

/-! ### The table -/

/-- `dns_entry`: an address as it lies in memory, and the names with their lengths in place of the
dots. -/
structure DnsEntry where
  ip : UInt32
  rip : Str
  name : Str

def reqPtr : UInt16 := 12
def reqA : UInt16 := 1
def maxPackLen : ℕ := 512

def tolower (b : UInt8) : UInt8 := if 65 ≤ b ∧ b ≤ 90 then b + 32 else b

/-- The name `*`, which any host has. -/
def DnsEntry.isWildcard (d : DnsEntry) : Bool := d.name.head? == some 1 && d.name[1]? == some star

/-- `table_lookup`: the bytes from the answer on. -/
def tableLookup (type : UInt16) (queryString : Str) : List DnsEntry → Option (List UInt8)
  | [] => none
  | d :: next =>
    if type = reqA then
      -- search by host name
      if d.isWildcard || d.name.map tolower == queryString.map tolower then
        some (leBytes 4 d.ip.toNat)
      else tableLookup type queryString next
    -- search by IP-address
    else if !d.isWildcard && (isPrefixedWith queryString d.rip).isSome then some (d.name ++ [0])
    else tableLookup type queryString next

/-! ### The buffer -/

/-- A field of sixteen bits. -/
def load16 (mem : Memory) (off : ℕ) : UInt16 :=
  (mem off).toUInt16 <<< 8 ||| (mem (off + 1)).toUInt16

def store16 (mem : Memory) (off : ℕ) (v : UInt16) : Memory :=
  store mem off [(v >>> 8).toUInt8, v.toUInt8]

/-- The length of the query string, without its NUL. -/
def queryLength (mem : Memory) : ℕ := strlen mem 12 maxPackLen

/-- Where the answer is appended: behind the name, type and class. -/
def answb (mem : Memory) : ℕ := 12 + (queryLength mem + 1) + 4

/-- What is done with the query. -/
inductive Outcome where
  | error (errMsg : String) (outrFlags : UInt16)
  | found (answstr : List UInt8) (outrRlen : UInt16)

/-- The checks of the query, and the lookup. -/
def lookUp (confData : List DnsEntry) (mem : Memory) : Outcome :=
  let query := load mem 12 (queryLength mem)
  let type := load16 mem (answb mem - 4)
  let class' := load16 mem (answb mem - 2)
  -- OPCODE != 0 "standard query"?
  if load16 mem 2 &&& 0x7800 ≠ 0 then .error "opcode != 0" 0x8004
  -- not class INET?
  else if class' ≠ 1 then .error "class != 1" 0x8004
  else if type ≠ reqA ∧ type ≠ reqPtr then .error "type is !REQ_A and !REQ_PTR" 0x8004
  else
    match tableLookup type query confData with
    | none => .error "name is not found" 0x8403
    | some answstr =>
      -- returning a host name, of this length with its NUL, or an address
      let outrRlen := if type = reqPtr then UInt16.ofNat answstr.length else 4
      if answb mem + (answb mem - 12) + 4 + 2 + outrRlen.toNat > maxPackLen then
        .error "name is not found" 0x8403
      else .found answstr outrRlen

/-- The header of any reply. -/
def finish (mem : Memory) (outrFlags : UInt16) : Memory :=
  let mem := store16 mem 2 (load16 mem 2 ||| outrFlags)
  let mem := store16 mem 10 0
  let mem := store16 mem 8 0
  store16 mem 4 1

/-- `process_packet`: the length of the reply, which is 0 if none is sent, and the buffer. -/
def processPacket (confData : List DnsEntry) (confTtl : UInt32) (silent : Bool) (mem : Memory) :
    ℕ × Memory :=
  -- packet has 0 queries, ignored
  if load16 mem 4 = 0 then (0, mem)
  -- response packet, ignored
  else if load16 mem 2 &&& 0x8000 ≠ 0 then (0, mem)
  else
    match lookUp confData mem with
    | .error _ outrFlags => if silent then (0, mem) else (answb mem, finish mem outrFlags)
    | .found answstr outrRlen =>
      let queryLen := answb mem - 12
      let end' := answb mem + queryLen
      -- name, type, class
      let buf := store mem (answb mem) (load mem 12 queryLen)
      let buf := store buf end' (beBytes 4 confTtl.toNat)
      let buf := store16 buf (end' + 4) outrRlen
      let buf := store buf (end' + 6) (answstr.take outrRlen.toNat)
      -- we have one answer
      (end' + 6 + outrRlen.toNat, finish (store16 buf 6 1) 0x8400)

/-! ### The receive loop -/

/-- A datagram that is not ignored for its size. -/
structure Datagram where
  bytes : List UInt8
  header : 12 ≤ bytes.length
  fits : bytes.length ≤ maxPackLen

/-- `recv_from_to` into the buffer, and the NUL behind what was received. -/
def receive (mem : Memory) (d : Datagram) : Memory :=
  store (store mem 0 d.bytes) d.bytes.length [0]

def reply (confData : List DnsEntry) (confTtl : UInt32) (silent : Bool) (mem : Memory)
    (d : Datagram) : Option (List UInt8) :=
  match processPacket confData confTtl silent (receive mem d) with
  | (0, _) => none
  | (r, buf) => some (load buf 0 r)

/-- The receive loop: what is sent for each of the datagrams, all with the same buffer. -/
def serve (confData : List DnsEntry) (confTtl : UInt32) (silent : Bool) :
    Memory → List Datagram → List (Option (List UInt8))
  | _, [] => []
  | mem, d :: ds =>
    reply confData confTtl silent mem d ::
      serve confData confTtl silent (processPacket confData confTtl silent (receive mem d)).2 ds

/-! ## What a reply says -/

/-! ### The fields of a header -/

theorem toUInt8_load16 (mem : Memory) (off : ℕ) : (load16 mem off).toUInt8 = mem (off + 1) := by
  rw [load16]
  apply UInt8.toBitVec_inj.mp
  ext i hi
  simp

theorem load16_congr {mem mem' : Memory} {off : ℕ} (h : mem off = mem' off)
    (h' : mem (off + 1) = mem' (off + 1)) : load16 mem off = load16 mem' off := by
  rw [load16, load16, h, h']

theorem finish_low {mem : Memory} {flags : UInt16} {i : ℕ} (hi : i < 2) :
    finish mem flags i = mem i := by
  simp only [finish, store16]
  rw [store_before (by omega), store_before (by omega), store_before (by omega),
    store_before (by omega)]

theorem finish_count {mem : Memory} {flags : UInt16} {i : ℕ} (hi : i = 6 ∨ i = 7) :
    finish mem flags i = mem i := by
  simp only [finish, store16]
  rw [store_after (by simp; omega), store_before (by omega), store_before (by omega),
    store_after (by simp; omega)]

theorem finish_high {mem : Memory} {flags : UInt16} {i : ℕ} (hi : 12 ≤ i) :
    finish mem flags i = mem i := by
  simp only [finish, store16]
  rw [store_after (by simp; omega), store_after (by simp; omega), store_after (by simp; omega),
    store_after (by simp; omega)]

theorem finish_counts (mem : Memory) (flags : UInt16) :
    finish mem flags 4 = 0 ∧ finish mem flags 5 = 1 ∧ finish mem flags 8 = 0 ∧
      finish mem flags 9 = 0 ∧ finish mem flags 10 = 0 ∧ finish mem flags 11 = 0 := by
  have hone : ((1 : UInt16) >>> 8).toUInt8 = 0 := by decide
  simp [finish, store16, store, hone]

theorem be16_drop_load {buf : Memory} {r k : ℕ} (hk : k + 2 ≤ r) :
    be16 ((load buf 0 r).drop k) = (buf k).toNat * 256 + (buf (k + 1)).toNat := by
  have hsize : r - k = 2 + (r - k - 2) := by omega
  rw [drop_load buf 0 (by omega), hsize, load_add, Nat.zero_add]
  rfl

/-! ### Reading a reply -/

/-- The number of records that a header with these bytes promises. -/
def ancount (buf : Memory) : ℕ := (buf 6).toNat * 256 + (buf 7).toNat

/-- **A finished reply** has one question, and as many records as its header says. -/
theorem parseMessage_finish {mem : Memory} {flags : UInt16} {r : ℕ} {m : Message} (hr : 12 ≤ r) :
    parseMessage (load (finish mem flags) 0 r) = some m ↔
      ∃ q s answers, takeQuestion (load mem 12 (r - 12)) = some (q, s) ∧
        takeMany takeRecord (ancount mem) s = some (answers, []) ∧
        m = ⟨load mem 0 2, [q], answers, [], []⟩ := by
  obtain ⟨h4, h5, h8, h9, h10, h11⟩ := finish_counts mem flags
  have hbody : (load (finish mem flags) 0 r).drop 12 = load mem 12 (r - 12) := by
    rw [drop_load _ _ hr]
    exact load_congr fun i hi _ => finish_high (by omega)
  have hid : (load (finish mem flags) 0 r).take 2 = load mem 0 2 := by
    rw [take_load _ _ (by omega)]
    exact load_congr fun i _ hi => finish_low (by omega)
  have hone : be16 ((load (finish mem flags) 0 r).drop 4) = 1 := by
    rw [be16_drop_load (by omega), h4, h5]
    rfl
  have hcount : be16 ((load (finish mem flags) 0 r).drop 6) = ancount mem := by
    rw [be16_drop_load (by omega), finish_count (by simp), finish_count (by simp), ancount]
  have hauth : be16 ((load (finish mem flags) 0 r).drop 8) = 0 := by
    rw [be16_drop_load (by omega), h8, h9]
    rfl
  have hadd : be16 ((load (finish mem flags) 0 r).drop 10) = 0 := by
    rw [be16_drop_load (by omega), h10, h11]
    rfl
  rw [parseMessage, hone, hbody, hcount, hauth, hadd, hid]
  constructor
  · intro h
    split at h
    · cases h
    rename_i questions s hquestions
    obtain ⟨q, hq, rfl⟩ := takeMany_one_some hquestions
    split at h
    · cases h
    rename_i answers rest hanswers
    simp only [takeMany] at h
    cases rest with
    | nil => exact ⟨q, s, answers, hq, hanswers, (Option.some.inj h).symm⟩
    | cons b rest => cases h
  · rintro ⟨q, s, answers, hq, hanswers, rfl⟩
    rw [takeMany_one hq]
    dsimp only
    rw [hanswers]
    rfl

/-- **The reply to a query** with so many answers: it has the query's ID and first question, and
nothing else. -/
def Echoes (d : Datagram) (rep : List UInt8) (count : ℕ) : Prop :=
  ∃ m q, parseMessage rep = some m ∧ m.id = d.bytes.take 2 ∧ firstQuestion d.bytes = some q ∧
    m.questions = [q] ∧ m.answers.length = count ∧ m.authority = [] ∧ m.additional = []

theorem echoes_finish {d : Datagram} {mem : Memory} {flags : UInt16} {r count : ℕ} (hr : 12 ≤ r)
    (hid : load mem 0 2 = d.bytes.take 2) : Echoes d (load (finish mem flags) 0 r) count ↔
      ancount mem = count ∧ ∃ q s answers, firstQuestion d.bytes = some q ∧
        takeQuestion (load mem 12 (r - 12)) = some (q, s) ∧
        takeMany takeRecord count s = some (answers, []) := by
  constructor
  · rintro ⟨m, q, hm, -, hq, hqs, hcount, -, -⟩
    obtain ⟨q', s, answers, hq', hanswers, rfl⟩ := (parseMessage_finish hr).mp hm
    cases hqs
    have hlen := length_takeMany hanswers
    have hsame : ancount mem = count := hlen.symm.trans hcount
    exact ⟨hsame, q, s, answers, hq, hq', hsame ▸ hanswers⟩
  · rintro ⟨hcount, q, s, answers, hq, hq', hanswers⟩
    refine ⟨_, q, (parseMessage_finish hr).mpr ⟨q, s, answers, hq', hcount ▸ hanswers, rfl⟩, hid,
      hq, rfl, length_takeMany hanswers, rfl, rfl⟩

/-! ### What is received -/

theorem receive_low {mem : Memory} {d : Datagram} {i : ℕ} (hi : i < d.bytes.length) :
    receive mem d i = store mem 0 d.bytes i := store_before hi

theorem receive_nul (mem : Memory) (d : Datagram) : receive mem d d.bytes.length = 0 := by
  simp [receive, store]

theorem receive_high {mem : Memory} {d : Datagram} {i : ℕ} (hi : d.bytes.length < i) :
    receive mem d i = mem i := by
  rw [receive, store_after (Nat.succ_le_of_lt hi), store_after (by omega)]

/-- Up to its NUL, what is received is the datagram alone. -/
theorem receive_congr (mem mem' : Memory) {d : Datagram} {i : ℕ} (hi : i ≤ d.bytes.length) :
    receive mem d i = receive mem' d i := by
  rcases Nat.lt_or_eq_of_le hi with hlt | heq
  · rw [receive_low hlt, receive_low hlt]
    exact store_inside (Nat.zero_le _) (by omega)
  · rw [heq, receive_nul, receive_nul]

theorem load_receive {mem : Memory} {d : Datagram} {off len : ℕ}
    (h : off + len ≤ d.bytes.length) :
    load (receive mem d) off len = (d.bytes.drop off).take len := by
  have hall : load (receive mem d) 0 d.bytes.length = d.bytes := by
    have hsame : load (receive mem d) 0 d.bytes.length =
        load (store mem 0 d.bytes) 0 d.bytes.length := by
      refine load_congr fun i _ hi => receive_low ?_
      omega
    exact hsame.trans (load_store mem 0 d.bytes)
  conv_rhs => rw [← hall]
  rw [drop_load _ _ (by omega), take_load _ _ (by omega), Nat.zero_add]

/-- The query string ends in the datagram, or at the NUL behind it. -/
theorem queryLength_le (mem : Memory) (d : Datagram) :
    12 + queryLength (receive mem d) ≤ d.bytes.length := by
  have h := d.header
  have hzero : receive mem d (12 + (d.bytes.length - 12)) = 0 := by
    rw [Nat.add_sub_cancel' h, receive_nul]
  have hle : queryLength (receive mem d) ≤ d.bytes.length - 12 := strlen_le_of_zero hzero
  omega

theorem queryLength_congr (mem mem' : Memory) (d : Datagram) :
    queryLength (receive mem d) = queryLength (receive mem' d) := by
  have hle := queryLength_le mem' d
  rw [queryLength] at hle
  exact strlen_congr fun i _ hi => receive_congr _ _ (by omega)

theorem answb_congr (mem mem' : Memory) (d : Datagram) :
    answb (receive mem d) = answb (receive mem' d) := by
  rw [answb, answb, queryLength_congr mem mem' d]

end Rustybox.Dnsd
