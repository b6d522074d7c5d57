import Rustybox.Udhcp.Table

/-!
# The messages of udhcpd

`handle` is the body of the main loop of `udhcpd_main` for one received packet.  The options
of a packet are taken as they are found by `udhcp_get_option`.

What the server does not decide itself comes with the packet: the answers to the ARP requests
it sends while it looks for a free address, in their order, each with the seconds that passed
until it was decided.  Between packets the clock ticks.

The `log` is not part of the source: it records what has been sent and what was agreed on,
newest first, so that a property of a whole run can be said of its last state.
-/

namespace Rustybox.Udhcp

/-- `server_data_t`, as far as leases are concerned. -/
structure Config where
  startIp : ℕ
  endIp : ℕ
  serverNip : ℕ
  staticLeases : List (Mac × ℕ)
  maxLeases : ℕ
  offerTime : ℕ
  declineTime : ℕ
  conflictTime : ℕ
  minLeaseSec : ℕ
  maxLeaseSec : ℕ

structure Packet where
  op : ℕ := 1
  hlen : ℕ := 6
  chaddr : Mac
  ciaddr : ℕ := 0
  messageType : Option ℕ
  serverId : Option ℕ := none
  requestedIp : Option ℕ := none
  leaseTime : Option ℕ := none
  hostName : Option (List UInt8) := none

/-- The answer to an ARP request: whether nobody has the address, and the seconds it took. -/
structure ArpAnswer where
  nobody : Bool
  seconds : ℕ := 0

/-- What the server has sent, and what it has taken note of. -/
inductive Entry where
  | offer (mac : Mac) (yiaddr : ℕ)
  | ack (mac : Mac) (yiaddr leaseTimeSec : ℕ)
  | nak (mac : Mac)
  | inform (mac : Mac)
  | conflict (nip sec : ℕ)
  | decline (mac : Mac) (nip sec : ℕ)
  | release (mac : Mac) (nip : ℕ)
  deriving DecidableEq

/-- An entry of the log with the time it was made. -/
structure Record where
  time : ℕ
  entry : Entry
  deriving DecidableEq

structure Server where
  leases : List Slot
  now : ℕ
  log : List Record

def Server.note (s : Server) (e : Entry) : Server := { s with log := ⟨s.now, e⟩ :: s.log }

/-- `add_lease` on the table of the server. -/
def Server.add (s : Server) (chaddr : Option Mac) (yiaddr lt : ℕ)
    (hostname : Option (List UInt8)) : Server :=
  { s with leases := (addLease s.now chaddr yiaddr lt hostname s.leases).2 }

section Config

variable (cfg : Config)

def getStaticNipByMac (mac : Mac) : ℕ :=
  ((cfg.staticLeases.find? (fun st => st.1 = mac)).map Prod.snd).getD 0

def isNipReservedAsStatic (nip : ℕ) : Bool := cfg.staticLeases.any (fun st => st.2 = nip)

/-- Whether an address is in the range of the server. -/
def inRange (nip : ℕ) : Bool := cfg.startIp ≤ nip && nip ≤ cfg.endIp

/-! ### Looking for an address -/

def nobodyRespondsToArp (nip : ℕ) (s : Server) (answers : List ArpAnswer) :
    Bool × Server × List ArpAnswer :=
  let answer := answers.headD ⟨true, 0⟩
  let s := { s with now := s.now + answer.seconds }
  if answer.nobody then (true, s, answers.tail)
  else
    (false, (s.add none nip cfg.conflictTime none).note (.conflict nip cfg.conflictTime),
      answers.tail)

/-- The variables of the loop of `find_free_or_expired_nip`. -/
structure Search where
  server : Server
  answers : List ArpAnswer
  oldestLease : Option ℕ

def Server.slot (s : Server) (i : ℕ) : Slot := s.leases.getD i Slot.empty

/-- Whether a lease goes before the oldest one found so far. -/
def Search.older (st : Search) (i : ℕ) : Bool :=
  match st.oldestLease with
  | none => true
  | some o => (st.server.slot i).expires < (st.server.slot o).expires

/-- The body of the loop for one address; `some` when the loop is left with it. -/
def freeStep (addr : ℕ) (st : Search) : Option ℕ × Search :=
  if addr % 256 = 0 ∨ addr % 256 = 255 then (none, st)
  else if addr = cfg.serverNip then (none, st)
  else if isNipReservedAsStatic cfg addr then (none, st)
  else
    match findLeaseByNip addr st.server.leases with
    | none =>
      let r := nobodyRespondsToArp cfg addr st.server st.answers
      (if r.1 then some addr else none, { st with server := r.2.1, answers := r.2.2 })
    | some i => (none, { st with oldestLease := if st.older i then some i else st.oldestLease })

/-- The loop over the addresses. -/
def freeLoop : List ℕ → Search → Option ℕ × Search
  | [], st => (none, st)
  | addr :: addrs, st =>
    match freeStep cfg addr st with
    | (some nip, st) => (some nip, st)
    | (none, st) => freeLoop addrs st

/-- The addresses of the loop: from `start_ip` until the one after `end_ip` comes up, with
`u32` arithmetic. -/
def addrs : List ℕ :=
  let count := (cfg.endIp + 1 + (2 ^ 32 - cfg.startIp % 2 ^ 32)) % 2 ^ 32
  (List.range (if count = 0 then 2 ^ 32 else count)).map (fun k => (cfg.startIp + k) % 2 ^ 32)

/-- `find_free_or_expired_nip`: the address, or zero. -/
def findFreeOrExpiredNip (s : Server) (answers : List ArpAnswer) : ℕ × Server :=
  match freeLoop cfg (addrs cfg) ⟨s, answers, none⟩ with
  | (some nip, st) => (nip, st.server)
  | (none, st) =>
    match st.oldestLease with
    | none => (0, st.server)
    | some i =>
      if (st.server.slot i).isExpired st.server.now then
        let r := nobodyRespondsToArp cfg (st.server.slot i).nip st.server st.answers
        (if r.1 then (r.2.1.slot i).nip else 0, r.2.1)
      else (0, st.server)

/-! ### The answers of the server -/

def selectLeaseTime (p : Packet) : ℕ :=
  match p.leaseTime with
  | none => cfg.maxLeaseSec
  | some sec =>
    let sec := if sec > cfg.maxLeaseSec then cfg.maxLeaseSec else sec
    if sec < cfg.minLeaseSec then cfg.minLeaseSec else sec

/-- Whether `send_offer` takes the address the client asks for. -/
def requestedIsFree (s : Server) (requested : ℕ) : Bool :=
  requested ≠ 0 && inRange cfg requested &&
    match findLeaseByNip requested s.leases with
    | none => true
    | some j => (s.slot j).isExpired s.now

/-- The address `send_offer` chooses for a client without a static lease. -/
def offerAddress (s : Server) (p : Packet) (answers : List ArpAnswer) : ℕ × Server :=
  match findLeaseByMac p.chaddr s.leases with
  | some i => ((s.slot i).nip, s)
  | none =>
    if requestedIsFree cfg s (p.requestedIp.getD 0) then (p.requestedIp.getD 0, s)
    else findFreeOrExpiredNip cfg s answers

def sendOffer (s : Server) (p : Packet) (answers : List ArpAnswer) : Server :=
  let staticNip := getStaticNipByMac cfg p.chaddr
  if staticNip ≠ 0 then s.note (.offer p.chaddr staticNip)
  else
    let r := offerAddress cfg s p answers
    if r.1 = 0 then r.2
    else
      match addLease r.2.now (some p.chaddr) r.1 cfg.offerTime p.hostName r.2.leases with
      | (none, leases) => { r.2 with leases := leases }
      | (some _, leases) => { r.2 with leases := leases }.note (.offer p.chaddr r.1)

/-- `send_ACK`: the packet is sent, then the lease is entered. -/
def sendAck (s : Server) (p : Packet) (yiaddr : ℕ) : Server :=
  let sec := selectLeaseTime cfg p
  (s.note (.ack p.chaddr yiaddr sec)).add (some p.chaddr) yiaddr sec p.hostName

/-- `(*lease).lease_nip` where the main loop has found a lease, static or not. -/
def leaseNip (s : Server) (p : Packet) : Option ℕ :=
  let staticNip := getStaticNipByMac cfg p.chaddr
  if staticNip ≠ 0 then some staticNip
  else (findLeaseByMac p.chaddr s.leases).map (fun i => (s.slot i).nip)

/-- A write to the lease the main loop has found.  For a static lease that is a copy on the
stack. -/
def Server.updateLease (s : Server) (p : Packet) (f : Slot → Slot) : Server :=
  if getStaticNipByMac cfg p.chaddr ≠ 0 then s
  else
    match findLeaseByMac p.chaddr s.leases with
    | none => s
    | some i => { s with leases := s.leases.set i (f (s.slot i)) }

def request (s : Server) (p : Packet) : Server :=
  if p.requestedIp = none ∧ p.ciaddr = 0 then s
  else if leaseNip cfg s p = some (p.requestedIp.getD p.ciaddr) then
    sendAck cfg s p (p.requestedIp.getD p.ciaddr)
  else if p.serverId.isSome ∨ p.requestedIp.isSome then s.note (.nak p.chaddr)
  else s

def decline (s : Server) (p : Packet) : Server :=
  match p.requestedIp with
  | none => s
  | some nip =>
    if p.serverId.isSome ∧ leaseNip cfg s p = some nip then
      (s.updateLease cfg p (fun l =>
        { l with mac := zeroMac, expires := leasetime (s.now + cfg.declineTime) })).note
          (.decline p.chaddr nip cfg.declineTime)
    else s

def release (s : Server) (p : Packet) : Server :=
  if p.serverId.isSome ∧ leaseNip cfg s p = some p.ciaddr then
    (s.updateLease cfg p (fun l => { l with expires := leasetime s.now })).note
      (.release p.chaddr p.ciaddr)
  else s

/-- The packets the main loop does not ignore. -/
def heard (p : Packet) : Bool :=
  p.hlen = 6 && p.op = 1 && p.messageType.any (fun t => 1 ≤ t && t ≤ 8) &&
    p.serverId.all (fun id => id = cfg.serverNip)

def handle (s : Server) (p : Packet) (answers : List ArpAnswer) : Server :=
  if !heard cfg p then s
  else
    match p.messageType with
    | some 1 => sendOffer cfg s p answers
    | some 3 => request cfg s p
    | some 4 => decline cfg s p
    | some 7 => release cfg s p
    | some 8 => s.note (.inform p.chaddr)
    | _ => s

/-- What happens to the server. -/
inductive Label where
  | tick (seconds : ℕ)
  | packet (p : Packet) (answers : List ArpAnswer)

def step (s : Server) : Label → Option Server
  | .tick seconds => some { s with now := s.now + seconds }
  | .packet p answers => some (handle cfg s p answers)

end Config

end Rustybox.Udhcp
