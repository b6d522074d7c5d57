import Rustybox.Rust.Bytes
import Rustybox.Udhcp.Server

/-!
# The lease file of udhcpd, and how long a lease lasts

`write_leases` stores the slots that have an address, each with the time it is still good
for, and `read_leases` puts them back when the server starts.  A record of the file is the
memory of a `dyn_lease`; its `expires` and the time of writing are stored with the high byte
first.

`send_ACK` announces a lease time of up to `2 ^ 32 - 1` seconds, and `add_lease` adds it to the
clock and keeps the sum as a `u32`.  A deadline past the range of the `u32` wraps around to a time
that is over already.

* `lease_lasts_iff`: so the table keeps a lease for the announced time if and only if it ends
  before the `u32` clock does.
-/

namespace Rustybox.Udhcp

open Rustybox.Rust

/-- A `dyn_lease` as it lies in the file. -/
structure FileLease where
  expires : ℕ
  nip : ℕ
  mac : Mac
  hostname : List UInt8

structure LeaseFile where
  writtenAt : ℕ
  leases : List FileLease

/-- The number of a `u32` seen as a `signed_leasetime_t` is negative. -/
def isNegative (t : ℕ) : Bool := 2 ^ 31 ≤ t

/-- The relative time `write_leases` stores for a slot. -/
def relativeTime (now : ℕ) (l : Slot) : ℕ :=
  let t := (l.expires + (2 ^ 32 - leasetime now)) % 2 ^ 32
  if isNegative t then 0 else t

def writeLeases (now : ℕ) (leases : List Slot) : LeaseFile where
  writtenAt := swapBytes 8 now
  leases := (leases.filter (fun l => l.nip ≠ 0)).map (fun l =>
    { expires := swapBytes 4 (relativeTime now l)
      nip := l.nip
      mac := l.mac
      hostname := l.hostname.bytes })

section

variable (cfg : Config)

/-- The seconds that are left of a lease read from the file. -/
def secondsLeft (timePassed : ℕ) (l : FileLease) : ℕ :=
  let t := (swapBytes 4 l.expires + (2 ^ 32 - timePassed)) % 2 ^ 32
  if isNegative t then 0 else t

def readLoop (now timePassed : ℕ) : List FileLease → List Slot → List Slot
  | [], leases => leases
  | l :: file, leases =>
    if !inRange cfg l.nip then readLoop now timePassed file leases
    else if getStaticNipByMac cfg l.mac ≠ 0 then readLoop now timePassed file leases
    else if isNipReservedAsStatic cfg l.nip then readLoop now timePassed file leases
    else
      match addLease now (some l.mac) l.nip (secondsLeft timePassed l) (some l.hostname) leases with
      | (none, leases) => leases   -- too many leases
      | (some _, leases) => readLoop now timePassed file leases

/-- The number of slots: `max_leases`, but no more than there are addresses. -/
def tableSize : ℕ :=
  min cfg.maxLeases ((cfg.endIp + 1 + (2 ^ 32 - cfg.startIp % 2 ^ 32)) % 2 ^ 32)

/-- The table of a server that starts, from its lease file if it can be opened. -/
def readLeases (now : ℕ) (file : Option LeaseFile) : List Slot :=
  let leases := List.replicate (tableSize cfg) Slot.empty
  match file with
  | none => leases
  | some file =>
    let timePassed := (now + (2 ^ 64 - swapBytes 8 file.writtenAt)) % 2 ^ 64
    if timePassed > 12 * 60 * 60 then leases else readLoop cfg now timePassed file.leases leases

/-- The server at its start. -/
def boot (now : ℕ) (file : Option LeaseFile) : Server :=
  { leases := readLeases cfg now file, now := now, log := [] }

end

/-! ## How long a lease lasts -/

/-- An entry of a table is not taken for an expired one for some seconds, as long as the clock is
a `u32`: not on its own, and not in any table it stands in. -/
def Slot.Lasts (l : Slot) (now sec : ℕ) : Prop :=
  ∀ t, now ≤ t → t < now + sec → t < 2 ^ 32 →
    l.isExpired t = false ∧
      ∀ (leases : List Slot) (i : ℕ), leases[i]? = some l → oldestExpiredLease t leases ≠ some i

/-- The lease that a client gets ends before the `u32` clock does. -/
def EndsInTime (cfg : Config) (p : Packet) (now : ℕ) : Prop :=
  match p.leaseTime with
  | none => now + cfg.maxLeaseSec < 2 ^ 32
  | some sec =>
    now + cfg.minLeaseSec < 2 ^ 32 ∧ (now + sec < 2 ^ 32 ∨ now + cfg.maxLeaseSec < 2 ^ 32)

section

variable {cfg : Config} {s : Server} {p : Packet} {yiaddr i : ℕ}

theorem endsInTime_iff (cfg : Config) (p : Packet) (now : ℕ) :
    EndsInTime cfg p now ↔ now + selectLeaseTime cfg p < 2 ^ 32 := by
  rw [EndsInTime, selectLeaseTime]
  cases p.leaseTime with
  | none => exact Iff.rfl
  | some sec =>
    dsimp only
    split
    · split <;> omega
    · split <;> omega

theorem selectLeaseTime_lt (hmin : cfg.minLeaseSec < 2 ^ 32) (hmax : cfg.maxLeaseSec < 2 ^ 32) :
    selectLeaseTime cfg p < 2 ^ 32 := by
  rw [selectLeaseTime]
  cases p.leaseTime with
  | none => exact hmax
  | some sec =>
    dsimp only
    split
    · split <;> omega
    · split <;> omega

/-- **A deadline holds if and only if it has not wrapped around.** -/
theorem lasts_iff {l : Slot} {now sec : ℕ} (hl : l.expires = leasetime (now + sec))
    (hnow : now < 2 ^ 32) (hsec : sec < 2 ^ 32) : l.Lasts now sec ↔ now + sec < 2 ^ 32 := by
  constructor
  · intro h
    by_contra hge
    -- what has wrapped around is before now
    have hwrap : l.expires < leasetime now := by
      rw [hl, leasetime, leasetime]
      omega
    have hlast := (h now (Nat.le_refl _) (by omega) hnow).1
    rw [isExpired_iff.mpr hwrap] at hlast
    cases hlast
  · intro hfits t ht hlt ht'
    have hexpires : l.expires = now + sec := by
      rw [hl, leasetime, Nat.mod_eq_of_lt hfits]
    have htime : leasetime t = t := Nat.mod_eq_of_lt ht'
    refine ⟨isExpired_eq_false_iff.mpr (by omega), fun leases i hi hold => ?_⟩
    obtain ⟨l', hl', husable⟩ := isUsable_of_oldest hold
    rw [hi, Option.some.injEq] at hl'
    subst hl'
    have := isUsable_iff.mp husable
    omega

theorem slot_sendAck (hi : (addLease s.now (some p.chaddr) yiaddr (selectLeaseTime cfg p)
      p.hostName s.leases).1 = some i) :
    (sendAck cfg s p yiaddr).slot i =
      newSlot s.now (some p.chaddr) yiaddr (selectLeaseTime cfg p) p.hostName := by
  rcases addLease_cases s.now (some p.chaddr) yiaddr (selectLeaseTime cfg p) p.hostName s.leases
    with ⟨k, l, -, hk, -, he⟩ | ⟨-, he⟩
  · rw [he, Option.some.injEq] at hi
    subst hi
    show (addLease s.now (some p.chaddr) yiaddr (selectLeaseTime cfg p) p.hostName
      s.leases).2.getD k Slot.empty = _
    rw [he, List.getD_eq_getElem?_getD, List.getElem?_set_self
      (List.getElem?_eq_some_iff.mp hk).1]
    rfl
  · rw [he] at hi
    cases hi

/-- **A lease lasts for the time that is announced if and only if** it ends before the `u32` clock
does. -/
theorem lease_lasts_iff (hnow : s.now < 2 ^ 32) (hmin : cfg.minLeaseSec < 2 ^ 32)
    (hmax : cfg.maxLeaseSec < 2 ^ 32)
    (hi : (addLease s.now (some p.chaddr) yiaddr (selectLeaseTime cfg p)
      p.hostName s.leases).1 = some i) :
    ⟨s.now, .ack p.chaddr yiaddr (selectLeaseTime cfg p)⟩ ∈ (sendAck cfg s p yiaddr).log ∧
      (((sendAck cfg s p yiaddr).slot i).Lasts s.now (selectLeaseTime cfg p) ↔
        EndsInTime cfg p s.now) := by
  refine ⟨List.mem_cons_self, ?_⟩
  rw [slot_sendAck hi, endsInTime_iff]
  exact lasts_iff rfl hnow (selectLeaseTime_lt hmin hmax)

end

/-- A lease of ten days, asked for in 2023. -/
theorem lease_lasts_iff_ten_days :
    let cfg : Config :=
      { startIp := 1, endIp := 5, serverNip := 9, staticLeases := [], maxLeases := 5,
        offerTime := 60, declineTime := 3600, conflictTime := 3600, minLeaseSec := 60,
        maxLeaseSec := 864000 }
    let p : Packet :=
      { chaddr := Vector.replicate 6 8, messageType := some 3, requestedIp := some 3,
        leaseTime := some 4294967295 }
    let s : Server := handle cfg (boot cfg 1700000000 none) { p with messageType := some 1 } []
    ((sendAck cfg s p 3).slot 4).Lasts s.now (selectLeaseTime cfg p) := by
  intro cfg p s
  exact (@lease_lasts_iff cfg s p _ _ (by decide) (by decide) (by decide)
    (by decide)).2.mpr ⟨by decide, .inr (by decide)⟩

/-- Where leases may be infinite, the lease of a client that asks for one is over at once. -/
theorem infinite_lease_is_over :
    ¬ ∀ (cfg : Config) (s : Server) (p : Packet) (yiaddr i : ℕ), s.now < 2 ^ 32 →
      cfg.minLeaseSec < 2 ^ 32 → cfg.maxLeaseSec < 2 ^ 32 →
      (∀ sec, p.leaseTime = some sec → sec < 2 ^ 32) →
      (addLease s.now (some p.chaddr) yiaddr (selectLeaseTime cfg p) p.hostName s.leases).1 =
        some i →
      ((sendAck cfg s p yiaddr).slot i).Lasts s.now (selectLeaseTime cfg p) := by
  intro h
  let cfg : Config :=
    { startIp := 1, endIp := 5, serverNip := 9, staticLeases := [], maxLeases := 5,
      offerTime := 60, declineTime := 3600, conflictTime := 3600, minLeaseSec := 60,
      maxLeaseSec := 4294967295 }
  let p : Packet :=
    { chaddr := Vector.replicate 6 8, messageType := some 3, requestedIp := some 3,
      leaseTime := some 4294967295 }
  let s : Server := handle cfg (boot cfg 1700000000 none) { p with messageType := some 1 } []
  have hleft := (h cfg s p 3 4 (by decide) (by decide) (by decide)
    (fun sec hsec => by cases hsec; decide) (by decide) 1700000000 (by decide) (by decide)
    (by decide)).1
  exact absurd hleft (by decide)

end Rustybox.Udhcp
