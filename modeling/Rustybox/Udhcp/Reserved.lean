import Rustybox.Udhcp.Unique

/-!
# Addresses that are reserved by static leases

`find_free_or_expired_nip` passes over the addresses of static leases, and `read_leases`
drops them, but `send_offer` takes the address a client asks for without looking.  Such a
request is the only way for a reserved address to get to somebody else: `reserved_exclusive`.
-/

namespace Rustybox.Udhcp

/-- The client and the address of an OFFER or an ACK. -/
def Entry.carries : Entry → Option (Mac × ℕ)
  | .offer mac yiaddr => some (mac, yiaddr)
  | .ack mac yiaddr _ => some (mac, yiaddr)
  | _ => none

/-- A DISCOVER that makes `send_offer` take a reserved address the client asks for. -/
def asksForReserved (cfg : Config) (s : Server) (p : Packet) : Bool :=
  heard cfg p && p.messageType = some 1 && getStaticNipByMac cfg p.chaddr = 0 &&
    findLeaseByMac p.chaddr s.leases = none &&
    requestedIsFree cfg s (p.requestedIp.getD 0) &&
    isNipReservedAsStatic cfg (p.requestedIp.getD 0)

/-- The moves in which nobody asks for a reserved address. -/
def KeepsReserved (cfg : Config) (s : Server) : Label → Prop
  | .tick _ => True
  | .packet p _ => asksForReserved cfg s p = false

/-- Reserved addresses stand in the table for their own clients only. -/
def SlotsReserved (cfg : Config) (leases : List Slot) : Prop :=
  ∀ l ∈ leases, l.nip ≠ 0 → isNipReservedAsStatic cfg l.nip = true →
    getStaticNipByMac cfg l.mac = l.nip

/-- Reserved addresses have been sent to their own clients only. -/
def LogReserved (cfg : Config) (log : List Record) : Prop :=
  ∀ r ∈ log, ∀ mac nip, r.entry.carries = some (mac, nip) → nip ≠ 0 →
    isNipReservedAsStatic cfg nip = true → getStaticNipByMac cfg mac = nip

structure ReservedOk (cfg : Config) (s : Server) : Prop where
  slots : SlotsReserved cfg s.leases
  log : LogReserved cfg s.log

section

variable {cfg : Config} {s s₁ s' : Server} {p : Packet} {answers : List ArpAnswer} {nip : ℕ}

theorem SlotsReserved.addLease {leases : List Slot} (h : SlotsReserved cfg leases) (now : ℕ)
    (chaddr : Option Mac) (yiaddr lt : ℕ) (hostname : Option (List UInt8))
    (hnew : isNipReservedAsStatic cfg yiaddr = true →
      getStaticNipByMac cfg (chaddr.getD zeroMac) = yiaddr) :
    SlotsReserved cfg (addLease now chaddr yiaddr lt hostname leases).2 := by
  intro l hl h0 hres
  rcases mem_addLease hl with rfl | rfl | ⟨hl, -⟩
  · exact hnew hres
  · exact absurd rfl h0
  · exact h l hl h0 hres

theorem LogReserved.cons {log : List Record} (h : LogReserved cfg log) {r : Record}
    (hr : ∀ mac nip, r.entry.carries = some (mac, nip) → nip ≠ 0 →
      isNipReservedAsStatic cfg nip = true → getStaticNipByMac cfg mac = nip) :
    LogReserved cfg (r :: log) := by
  intro r' hr'
  rcases List.mem_cons.mp hr' with rfl | hr'
  · exact hr
  · exact h r' hr'

theorem ReservedOk.note {e : Entry} (h : ReservedOk cfg s)
    (he : ∀ mac nip, e.carries = some (mac, nip) → nip ≠ 0 →
      isNipReservedAsStatic cfg nip = true → getStaticNipByMac cfg mac = nip) :
    ReservedOk cfg (s.note e) := ⟨h.slots, h.log.cons he⟩

theorem ReservedOk.note_other {e : Entry} (h : ReservedOk cfg s) (he : e.carries = none) :
    ReservedOk cfg (s.note e) := h.note fun _ _ hc => by rw [he] at hc; cases hc

theorem pingKeeps_reserved (cfg : Config) : PingKeeps cfg (fun s _ => ReservedOk cfg s) := by
  intro s answers nip h hres _ _
  rcases nobodyRespondsToArp_cases cfg nip s answers with ⟨-, he⟩ | ⟨-, he⟩
  · rw [he]
    exact ⟨h.slots, h.log⟩
  · rw [he]
    refine ReservedOk.note_other ⟨?_, h.log⟩ rfl
    exact h.slots.addLease _ _ _ _ _ fun hr => by rw [hres] at hr; cases hr

theorem Chosen.reservedOk (hc : Chosen cfg s p answers s₁ nip) (h : ReservedOk cfg s) :
    ReservedOk cfg s₁ := by
  cases hc with
  | known => exact h
  | requested => exact h
  | free => exact (search_rule (pingKeeps_reserved cfg) s answers h).1.choose_spec

/-- The address of an offer is not reserved, unless it was asked for. -/
theorem Chosen.not_reserved (hc : Chosen cfg s p answers s₁ nip) (h : SlotsReserved cfg s.leases)
    (hh : heard cfg p = true) (ht : p.messageType = some 1)
    (hst : getStaticNipByMac cfg p.chaddr = 0) (h0 : nip ≠ 0)
    (hask : asksForReserved cfg s p = false) : isNipReservedAsStatic cfg nip = false := by
  cases hc with
  | known hi =>
    obtain ⟨l, hl, hmac⟩ := findLeaseByMac_some hi
    rw [slot_eq hl] at h0 ⊢
    by_contra hres
    have heq := h l (List.mem_of_getElem? hl) h0 (by simpa using hres)
    rw [hmac, hst] at heq
    exact h0 heq.symm
  | requested hm hr =>
    simpa [asksForReserved, hh, ht, hst, hm, hr] using hask
  | free hm =>
    have hkeep : PingKeeps cfg (fun _ _ => True) := fun _ _ _ _ _ _ _ => trivial
    exact ((search_rule hkeep s answers trivial).2 h0).1

theorem ReservedOk.offer (h : ReservedOk cfg s) (hres : isNipReservedAsStatic cfg nip = false) :
    ReservedOk cfg (s.offer cfg p nip) := by
  have hadd : ReservedOk cfg (s.add (some p.chaddr) nip cfg.offerTime p.hostName) :=
    ⟨h.slots.addLease _ _ _ _ _ (fun hr => by rw [hres] at hr; cases hr), h.log⟩
  unfold Server.offer
  split
  · exact hadd
  · refine hadd.note fun mac x hc _ hr => ?_
    simp only [Entry.carries, Option.some.injEq, Prod.mk.injEq] at hc
    rw [← hc.2, hres] at hr
    cases hr

theorem ReservedOk.sendAck (h : ReservedOk cfg s)
    (hres : nip ≠ 0 → isNipReservedAsStatic cfg nip = true →
      getStaticNipByMac cfg p.chaddr = nip) :
    ReservedOk cfg (sendAck cfg s p nip) := by
  have hnote : ReservedOk cfg (s.note (.ack p.chaddr nip (selectLeaseTime cfg p))) := by
    refine h.note fun mac x hc h0 hr => ?_
    simp only [Entry.carries, Option.some.injEq, Prod.mk.injEq] at hc
    obtain ⟨rfl, rfl⟩ := hc
    exact hres h0 hr
  refine ⟨?_, hnote.log⟩
  intro l hl h0 hr
  rcases mem_addLease hl with rfl | rfl | ⟨hl, -⟩
  · exact hres h0 hr
  · exact absurd rfl h0
  · exact h.slots l hl h0 hr

theorem SlotsReserved.set {leases : List Slot} (h : SlotsReserved cfg leases) {i : ℕ} {l' : Slot}
    (hl' : l'.nip ≠ 0 → isNipReservedAsStatic cfg l'.nip = true →
      getStaticNipByMac cfg l'.mac = l'.nip) : SlotsReserved cfg (leases.set i l') := by
  intro l hl
  rcases List.mem_or_eq_of_mem_set hl with hl | rfl
  · exact h l hl
  · exact hl'

theorem Effect.reservedOk (he : Effect cfg s p answers s') (hask : asksForReserved cfg s p = false)
    (h : ReservedOk cfg s) : ReservedOk cfg s' := by
  cases he with
  | quiet => exact h
  | nak | inform | declineStatic | releaseStatic => exact h.note_other rfl
  | offerStatic =>
    refine h.note fun mac x hc _ _ => ?_
    simp only [Entry.carries, Option.some.injEq, Prod.mk.injEq] at hc
    rw [← hc.1, hc.2]
  | noOffer _ _ _ hc => exact hc.reservedOk h
  | offer hh ht hst hc h0 =>
    exact (hc.reservedOk h).offer (hc.not_reserved h.slots hh ht hst h0 hask)
  | ackStatic => exact h.sendAck fun _ _ => rfl
  | ack _ _ hst hi _ =>
    obtain ⟨l, hl, hmac⟩ := findLeaseByMac_some hi
    rw [slot_eq hl]
    refine h.sendAck fun h0 hr => ?_
    rw [← hmac]
    exact h.slots l (List.mem_of_getElem? hl) h0 hr
  | decline _ _ hst hi =>
    obtain ⟨l, hl, hmac⟩ := findLeaseByMac_some hi
    refine ReservedOk.note_other ⟨?_, h.log⟩ rfl
    rw [slot_eq hl]
    refine h.slots.set fun h0 hr => ?_
    -- the client has no static lease, so the address it declines is not reserved
    have heq := h.slots l (List.mem_of_getElem? hl) h0 hr
    rw [hmac, hst] at heq
    exact absurd heq.symm h0
  | release _ _ hst hi =>
    obtain ⟨l, hl, hmac⟩ := findLeaseByMac_some hi
    refine ReservedOk.note_other ⟨?_, h.log⟩ rfl
    rw [slot_eq hl]
    exact h.slots.set fun h0 hr => h.slots l (List.mem_of_getElem? hl) h0 hr

end

/-! ### From the start -/

theorem slotsReserved_readLoop (cfg : Config) (now timePassed : ℕ) (file : List FileLease)
    {leases : List Slot} (h : SlotsReserved cfg leases) :
    SlotsReserved cfg (readLoop cfg now timePassed file leases) := by
  induction file generalizing leases with
  | nil => exact h
  | cons l file ih =>
    rw [readLoop]
    split
    · exact ih h
    split
    · exact ih h
    split
    · exact ih h
    next _ _ hres =>
    have hadd := h.addLease now (some l.mac) l.nip (secondsLeft timePassed l) (some l.hostname)
      (fun hr => absurd hr hres)
    split
    · next he =>
      rw [he] at hadd
      exact hadd
    · next he =>
      rw [he] at hadd
      exact ih hadd

theorem slotsReserved_replicate_empty (cfg : Config) (n : ℕ) :
    SlotsReserved cfg (List.replicate n Slot.empty) := by
  intro l hl h0
  rw [List.eq_of_mem_replicate hl] at h0
  exact absurd rfl h0

theorem reservedOk_boot (cfg : Config) (now : ℕ) (file : Option LeaseFile) :
    ReservedOk cfg (boot cfg now file) := by
  have h := slotsReserved_replicate_empty cfg (tableSize cfg)
  refine ⟨?_, by simp [LogReserved, boot]⟩
  simp only [boot, readLeases]
  split
  · exact h
  · split
    · exact h
    · exact slotsReserved_readLoop cfg _ _ _ h

theorem mem_staticLeases {cfg : Config} {mac : Mac} {nip : ℕ}
    (h : getStaticNipByMac cfg mac = nip) (h0 : nip ≠ 0) : (mac, nip) ∈ cfg.staticLeases := by
  unfold getStaticNipByMac at h
  cases hf : cfg.staticLeases.find? (fun st => st.1 = mac) with
  | none =>
    rw [hf] at h
    exact absurd h.symm h0
  | some st =>
    have hmac : st.1 = mac := by simpa using List.find?_some hf
    rw [hf] at h
    have hnip : st.2 = nip := h
    rw [← hmac, ← hnip]
    exact List.mem_of_find?_eq_some hf

theorem isNipReservedAsStatic_getStaticNipByMac {cfg : Config} {mac : Mac}
    (h : getStaticNipByMac cfg mac ≠ 0) :
    isNipReservedAsStatic cfg (getStaticNipByMac cfg mac) = true :=
  List.any_eq_true.mpr ⟨_, mem_staticLeases rfl h, by simp⟩

/-- **Reserved addresses go to their clients only**, as long as nobody is offered one because
it asked for it.  The address zero is no address: `get_static_nip_by_mac` gives it for a client
without a static lease. -/
theorem reserved_exclusive (cfg : Config) (now : ℕ) (file : Option LeaseFile)
    (labels : List Label)
    (hgood : ∀ m ∈ Machine.moves (step cfg) (boot cfg now file) labels,
      KeepsReserved cfg m.1 m.2) :
    ∀ s ∈ Machine.states (step cfg) (boot cfg now file) labels,
      ∀ r ∈ s.log, ∀ mac nip, r.entry.carries = some (mac, nip) → nip ≠ 0 →
        (∃ m, (m, nip) ∈ cfg.staticLeases) → (mac, nip) ∈ cfg.staticLeases := by
  intro s hs r hr mac nip hc h0 ⟨m, hm⟩
  have hok : ReservedOk cfg s := run_rule (I := ReservedOk cfg) (G := KeepsReserved cfg)
    (fun _ _ h => ⟨h.slots, h.log⟩) (fun _ _ _ _ he hl h => he.reservedOk hl h)
    (reservedOk_boot cfg now file) labels hgood s hs
  have hres : isNipReservedAsStatic cfg nip = true :=
    List.any_eq_true.mpr ⟨(m, nip), hm, by simp⟩
  exact mem_staticLeases (hok.log r hr mac nip hc h0 hres) h0

/-- A client that asks for the address reserved for another one is offered it. -/
theorem not_reserved_exclusive :
    ¬ ∀ (cfg : Config) (now : ℕ) (file : Option LeaseFile) (labels : List Label),
      ∀ s ∈ Machine.states (step cfg) (boot cfg now file) labels,
        ∀ r ∈ s.log, ∀ mac nip, r.entry.carries = some (mac, nip) → nip ≠ 0 →
          (∃ m, (m, nip) ∈ cfg.staticLeases) → (mac, nip) ∈ cfg.staticLeases := by
  intro h
  let cfg : Config :=
    { startIp := 1, endIp := 5, serverNip := 9, staticLeases := [(Vector.replicate 6 7, 3)],
      maxLeases := 5, offerTime := 60, declineTime := 3600, conflictTime := 3600,
      minLeaseSec := 60, maxLeaseSec := 864000 }
  let p : Packet := { chaddr := Vector.replicate 6 8, messageType := some 1, requestedIp := some 3 }
  let s : Server := handle cfg (boot cfg 100 none) p []
  have hs : s ∈ Machine.states (step cfg) (boot cfg 100 none) [.packet p []] :=
    List.mem_cons_of_mem _ List.mem_cons_self
  have hlog : s.log = [⟨100, .offer (Vector.replicate 6 8) 3⟩] := by decide
  have hmem := h cfg 100 none [.packet p []] s hs ⟨100, .offer (Vector.replicate 6 8) 3⟩
    (by rw [hlog]; exact List.mem_cons_self) (Vector.replicate 6 8) 3 rfl (by decide)
    ⟨Vector.replicate 6 7, by decide⟩
  exact absurd hmem (by decide)

/-- The client the address is reserved for is offered it. -/
theorem reserved_exclusive_own_client :
    let cfg : Config :=
      { startIp := 1, endIp := 5, serverNip := 9, staticLeases := [(Vector.replicate 6 7, 3)],
        maxLeases := 5, offerTime := 60, declineTime := 3600, conflictTime := 3600,
        minLeaseSec := 60, maxLeaseSec := 864000 }
    let p : Packet := { chaddr := Vector.replicate 6 7, messageType := some 1 }
    let s : Server := handle cfg (boot cfg 100 none) p []
    s.log = [⟨100, .offer (Vector.replicate 6 7) 3⟩] ∧
      ∀ r ∈ s.log, ∀ mac nip, r.entry.carries = some (mac, nip) → nip ≠ 0 →
        (∃ m, (m, nip) ∈ cfg.staticLeases) → (mac, nip) ∈ cfg.staticLeases := by
  intro cfg p s
  refine ⟨by decide, reserved_exclusive cfg 100 none [.packet p []] ?_ s
    (List.mem_cons_of_mem _ List.mem_cons_self)⟩
  intro m hm
  rw [List.mem_singleton.mp hm]
  show asksForReserved cfg (boot cfg 100 none) p = false
  decide

end Rustybox.Udhcp
