import Mathlib.Data.List.Basic
import Rustybox.Lib.Machine

/-!
# The TFTP state machine

`tftp_protocol` waits in `poll` for a packet or for the end of its wait time; everything else it does
is the answer to one of these.  A party is what its variables are while it waits.  Times are left
out: a wait may end at any moment.

Every packet that was ever sent may still come, any number of times, in any order, or never.  The
one thing that the network does not do is to deliver a packet when the party is more than 65535
blocks further on: the numbers of the blocks have sixteen bits.
-/

namespace Rustybox.Tftp

/-! ### Packets -/

/-- The packets.  Options are given by what they say; `tsize` is the size of the file, which is for
the progress bar only. -/
inductive Packet where
  | request (write : Bool) (blksize : Option ℕ) (tsize : Bool)
  | data (blk : UInt16) (bytes : List UInt8)
  | ack (blk : UInt16)
  | error (code : UInt16) (msg : String)
  | oack (blksize : Option ℕ) (tsize : Bool)
  deriving DecidableEq

def Packet.opcode : Packet → UInt16
  | request write _ _ => if write then 2 else 1
  | data _ _ => 3
  | ack _ => 4
  | error _ _ => 5
  | oack _ _ => 6

/-- A packet as it is read into a buffer of `ioBufsize` bytes. -/
def Packet.read (ioBufsize : ℕ) : Packet → Packet
  | data blk bytes => data blk (bytes.take (ioBufsize - 4))
  | packet => packet

/-! ### Parties -/

/-- The variables of `tftp_protocol`.  `put`: does it send the file (`TFTP_OPT_PUT`) or receive it
(`TFTP_OPT_GET`)?  `file` is what is not read yet, or what is written.  `result` is what it returned.
`blocks` counts the blocks that were read or written; the code has no such variable. -/
structure Party where
  put : Bool
  blksize : ℕ
  ioBufsize : ℕ
  expectOack : Bool
  finished : Bool
  opcode : UInt16
  blockNr : UInt16
  retries : ℕ
  xbuf : Packet
  file : List UInt8
  result : Option ℕ
  blocks : ℕ
  deriving DecidableEq

/-- What becomes of a party, and the packets it sends. -/
abbrev Reaction := Party × List Packet

/-- `return finished == 0`: returns 1 on failure. -/
def Party.ret (p : Party) : Party := { p with result := some (if p.finished then 0 else 1) }

/-- Send an error packet, and give up. -/
def Party.fail (p : Party) (code : UInt16) (msg : String) : Reaction :=
  ({ p with result := some 1 }, [.error code msg])

/-- Send, or resend, the packet in `xbuf`.  Was it final ACK? then exit. -/
def Party.emit (p : Party) : Reaction :=
  (if p.finished = true ∧ p.opcode = 4 then p.ret else p, [p.xbuf])

def Party.send (p : Party) : Reaction := Party.emit { p with retries := 12 }

/-- Build ACK or DATA, and send it.  `io`: could the file be read? -/
def Party.build (p : Party) (io : Bool) : Reaction :=
  let built := { p with blockNr := p.blockNr + 1 }
  if p.put then
    if io then
      let bytes := p.file.take p.blksize
      Party.send { built with
        xbuf := .data p.blockNr bytes
        opcode := 3
        finished := p.finished || decide (bytes.length ≠ p.blksize)
        file := p.file.drop p.blksize
        blocks := p.blocks + 1 }
    else Party.fail { built with opcode := 3 } 0 "read error"
  else Party.send { built with xbuf := .ack p.blockNr, opcode := 4 }

/-- `tftp_blksize_check`. -/
def blksizeCheck (blksize maxsize : ℕ) : Option ℕ :=
  if blksize < 24 ∨ blksize > maxsize then none else some blksize

/-- The first packet of the server acknowledges options. -/
def Party.negotiate (p : Party) (io : Bool) (blksize : Option ℕ) : Reaction :=
  match blksize with
  | none => Party.build (if p.put then p else { p with blockNr := 0 }) io
  | some n =>
    match blksizeCheck n p.blksize with
    | none => p.fail 8 ""
    | some n =>
      let p := { p with blksize := n, ioBufsize := n + 4 }
      -- we'll send ACK for OACK, such ACK has "block no" of 0
      Party.build (if p.put then p else { p with blockNr := 0 }) io

/-- DATA for the receiver, or ACK for the sender.  `io`: could the file be written, or read? -/
def Party.transfer (p : Party) (io : Bool) : Packet → Reaction
  | .data recvBlk bytes =>
    if p.put = false ∧ recvBlk = p.blockNr then
      if io then
        Party.build { p with
          file := p.file ++ bytes
          finished := p.finished || decide (bytes.length ≠ p.blksize)
          blocks := p.blocks + 1 } io
      else p.fail 3 "write error"
    else (p, [])
  | .ack recvBlk =>
    -- did peer ACK our last DATA pkt?
    if p.put = true ∧ recvBlk = p.blockNr - 1 then
      if p.finished then (p.ret, []) else p.build io
    else (p, [])
  | _ => (p, [])

/-- A packet that is not an error packet; `p` has its opcode already. -/
def Party.process (p : Party) (io : Bool) (packet : Packet) : Reaction :=
  if p.expectOack then
    match packet with
    | .oack blksize _ => Party.negotiate { p with expectOack := false } io blksize
    -- an option not acknowledged is ignored as if it were never requested
    | _ => Party.transfer { p with expectOack := false, blksize := 512, ioBufsize := 516 } io packet
  else p.transfer io packet

def Party.receive (p : Party) (io : Bool) (packet : Packet) : Reaction :=
  let packet := packet.read p.ioBufsize
  let p := { p with opcode := packet.opcode }
  match packet with
  | .error _ _ => (p.ret, [])
  | packet => p.process io packet

/-- The wait ends without a packet. -/
def Party.timeout (p : Party) : Reaction :=
  if p.retries - 1 = 0 then (p.ret, []) else Party.emit { p with retries := p.retries - 1 }

/-- `poll` fails. -/
def Party.pollFails (p : Party) : Reaction := (p.ret, [])

/-! ### The first packet -/

/-- The options of a request or an OACK. -/
def blksizeOption (blksize : ℕ) : Option ℕ := if blksize ≠ 512 then some blksize else none

/-- Does the request fit into `xbuf`? -/
def requestFits (nameLength blksize : ℕ) (wantTransferSize : Bool) : Bool :=
  2 + (nameLength + 1) + 6 < blksize + 4 &&
    (blksize == 512 && !wantTransferSize ||
      21 + 24 ≤ blksize + 4 - 1 - (2 + (nameLength + 1) + 6))

/-- tftp: the request. -/
def client (upload : Bool) (nameLength blksize : ℕ) (wantTransferSize : Bool) (file : List UInt8) :
    Reaction :=
  let p : Party := {
    put := upload
    blksize := blksize
    ioBufsize := blksize + 4
    expectOack := decide (blksize ≠ 512) || wantTransferSize
    finished := false
    opcode := if upload then 2 else 1
    blockNr := 1
    retries := 12
    xbuf := .request upload (blksizeOption blksize) wantTransferSize
    file := if upload then file else []
    result := none
    blocks := 0 }
  if requestFits nameLength blksize wantTransferSize then p.send else (p.ret, [])

/-- tftpd, before it answers.  There is nothing in `xbuf` yet. -/
def serverParty (write : Bool) (blksize : ℕ) (file : List UInt8) : Party where
  put := !write
  blksize := blksize
  ioBufsize := blksize + 4
  expectOack := false
  finished := false
  opcode := 0
  blockNr := 1
  retries := 12
  xbuf := .error 0 ""
  file := if write then [] else file
  result := none
  blocks := 0

/-- tftpd: the answer to a request.  `opens`: could the file be opened? -/
def server (write : Bool) (blksizeOpt : Option ℕ) (tsize opens io : Bool) (file : List UInt8) :
    Reaction :=
  let blksize := blksizeOpt.getD 512
  let wantTransferSize := !write && tsize
  let p := serverParty write blksize file
  match blksizeOpt.map fun n => blksizeCheck n 65564 with
  | some none => p.fail 8 ""
  | _ =>
    if opens then
      if blksize ≠ 512 ∨ wantTransferSize = true then
        Party.send { p with
          opcode := 6
          xbuf := .oack (blksizeOption blksize) wantTransferSize }
      -- we must ACK 1st packet (with filename) as if it is "block 0"
      else Party.build (if write then { p with blockNr := 0 } else p) io
    else p.fail 1 "can't open file"

/-! ## Two parties and a network -/

/-- A transfer: what is to be sent, and how the client asks for it. -/
structure Transfer where
  file : List UInt8
  upload : Bool
  nameLength : ℕ
  blksize : ℕ
  wantTransferSize : Bool

/-- A packet that was sent, to one of the parties; `block` is the block that it is about. -/
structure Sent where
  toSender : Bool
  packet : Packet
  block : ℕ
  deriving DecidableEq

/-- The parties that were started, and all packets that were sent. -/
structure State where
  sender : Option Party
  receiver : Option Party
  net : List Sent
  deriving DecidableEq

/-- The sender, or the receiver. -/
def State.party (s : State) (put : Bool) : Option Party := if put then s.sender else s.receiver

/-- One of the parties reacts. -/
def State.act (s : State) (put : Bool) (r : Reaction) : State where
  sender := if put then some r.1 else s.sender
  receiver := if put then s.receiver else some r.1
  net := s.net ++ r.2.map fun packet => ⟨!put, packet, r.1.blocks⟩

def Transfer.init (t : Transfer) : State :=
  State.act ⟨none, none, []⟩ t.upload
    (client t.upload t.nameLength t.blksize t.wantTransferSize t.file)

/-- The block that a party waits for: an ACK of it, or its DATA. -/
def Party.waitsFor (p : Party) : ℕ := if p.put then p.blocks else p.blocks + 1

/-- What can happen: the server starts, a packet of the network comes, a wait ends, or `poll`
fails. -/
inductive Event where
  | start (i : ℕ) (opens io : Bool)
  | deliver (put : Bool) (i : ℕ) (io : Bool)
  | timeout (put : Bool)
  | pollFails (put : Bool)

def Transfer.step (t : Transfer) (s : State) : Event → Option State
  | .start i opens io =>
    match s.party (!t.upload), s.net[i]? with
    | none, some ⟨_, .request write blksize tsize, _⟩ =>
      some (s.act (!t.upload) (server write blksize tsize opens io t.file))
    | _, _ => none
  | .deliver put i io =>
    match s.party put, s.net[i]? with
    | some p, some m =>
      if p.result = none ∧ m.toSender = put ∧ p.waitsFor ≤ m.block + 65535 then
        some (s.act put (p.receive io m.packet))
      else none
    | _, _ => none
  | .timeout put =>
    match s.party put with
    | some p => if p.result = none then some (s.act put p.timeout) else none
    | none => none
  | .pollFails put =>
    match s.party put with
    | some p => if p.result = none then some (s.act put p.pollFails) else none
    | none => none

/-! ### Safety -/

/-- The number of blocks.  The last one is shorter than the others, and may be empty. -/
def Transfer.total (t : Transfer) : ℕ := t.file.length / t.blksize + 1

/-- **A safe state.**  What is written is the beginning of the file, up to the end of a block; a
receiver that returns 0 has written all of it, and when the sender returns 0 the receiver has
received the last block. -/
structure Safe (t : Transfer) (s : State) : Prop where
  written : ∀ r, s.receiver = some r → ∃ n ≤ t.total, r.file = t.file.take (n * t.blksize)
  received : ∀ r, s.receiver = some r → r.result = some 0 → r.file = t.file
  sent : ∀ p, s.sender = some p → p.result = some 0 →
    ∃ r, s.receiver = some r ∧ r.finished = true ∧ r.file = t.file

/-- The sender stops waiting, gets an error packet or cannot wait, or it sends its packet again after
an ACK. -/
def GivesUp (s : State) (p : Party) : Event → Prop
  | .timeout put => put = true ∧ (p.retries ≤ 1 ∨ p.opcode = 4)
  | .pollFails put => put = true
  | .deliver put i _ => put = true ∧
      ∃ code msg block, s.net[i]? = some ⟨true, .error code msg, block⟩
  | .start _ _ _ => False

/-- **A false success.**  The sender has sent its last block, which the receiver does not have, and
gives up. -/
def FalseSuccess (s : State) (ev : Event) : Prop :=
  ∃ p, s.sender = some p ∧ p.finished = true ∧ (∀ r, s.receiver = some r → r.finished = false) ∧
    GivesUp s p ev

end Rustybox.Tftp
