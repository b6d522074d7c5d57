import Rustybox.Udhcp.Reserved

/-!
# Addresses in quarantine

An address that a client has declined, or that somebody answers an ARP request for, is kept out
of use by a slot with the zero MAC.  The server knows such a slot from a lease by nothing but
its MAC, so that a client that comes with the zero MAC is given the slot as its own and clears
all others; the slot of a static lease that is declined is a copy on the stack; and the marker
for a conflict is dropped where the table is full.  `MarkersKept` are the moves without that.
-/

namespace Rustybox.Udhcp

/-- The address an entry of the log puts in quarantine, and the seconds. -/
def Entry.marks : Entry → Option (ℕ × ℕ)
  | .conflict nip sec => some (nip, sec)
  | .decline _ nip sec => some (nip, sec)
  | _ => none

/-- Every OFFER and every ACK carries an address whose quarantines have run out.  The log has
the newest entry first. -/
def Respects (log : List Record) : Prop :=
  log.Pairwise (fun r m => ∀ mac nip sec, r.entry.carries = some (mac, nip) → nip ≠ 0 →
    m.entry.marks = some (nip, sec) → m.time + sec ≤ r.time)

/-- The slots that are free or expired. -/
def Server.room (s : Server) : ℕ := s.leases.countP (fun l => l.isUsable s.now)

/-- The answers that say an address is in use. -/
def conflicts (answers : List ArpAnswer) : ℕ := answers.countP (fun a => !a.nobody)

/-- The seconds that pass until all answers are there. -/
def waiting (answers : List ArpAnswer) : ℕ := (answers.map ArpAnswer.seconds).sum

/-- There is a slot for every conflict the search for a free address meets, and the markers end
within the `u32` range. -/
def SearchRoom (cfg : Config) (s : Server) (answers : List ArpAnswer) : Prop :=
  conflicts answers ≤ s.room ∧ s.now + waiting answers + cfg.conflictTime < 2 ^ 32

instance (cfg : Config) (s : Server) (answers : List ArpAnswer) :
    Decidable (SearchRoom cfg s answers) :=
  inferInstanceAs (Decidable (conflicts answers ≤ s.room ∧
    s.now + waiting answers + cfg.conflictTime < 2 ^ 32))

/-- A DISCOVER comes from a MAC that is not zero, and finds room for the conflicts. -/
def DiscoverMarks (cfg : Config) (s : Server) (p : Packet) (answers : List ArpAnswer) : Prop :=
  getStaticNipByMac cfg p.chaddr = 0 → p.chaddr ≠ zeroMac ∧
    (findLeaseByMac p.chaddr s.leases = none →
      requestedIsFree cfg s (p.requestedIp.getD 0) = false → SearchRoom cfg s answers)

/-- An ACK goes to a MAC that is not zero. -/
def RequestMarks (cfg : Config) (s : Server) (p : Packet) : Prop :=
  leaseNip cfg s p = some (p.requestedIp.getD p.ciaddr) → p.chaddr ≠ zeroMac

/-- A DECLINE that is accepted is for a slot of a MAC that is not zero. -/
def DeclineMarks (cfg : Config) (s : Server) (p : Packet) : Prop :=
  p.serverId.isSome = true → leaseNip cfg s p = p.requestedIp →
    getStaticNipByMac cfg p.chaddr = 0 ∧ p.chaddr ≠ zeroMac ∧ s.now + cfg.declineTime < 2 ^ 32

/-- A RELEASE that is accepted is from a MAC that is not zero, or for a static lease. -/
def ReleaseMarks (cfg : Config) (s : Server) (p : Packet) : Prop :=
  p.serverId.isSome = true → leaseNip cfg s p = some p.ciaddr →
    getStaticNipByMac cfg p.chaddr = 0 → p.chaddr ≠ zeroMac

/-- The moves that leave the markers alone and make the markers they should. -/
def MarkersKept (cfg : Config) (s : Server) : Label → Prop
  | .tick _ => True
  | .packet p answers =>
    asksForReserved cfg s p = false ∧
      (heard cfg p = true →
        (p.messageType = some 1 → DiscoverMarks cfg s p answers) ∧
        (p.messageType = some 3 → RequestMarks cfg s p) ∧
        (p.messageType = some 4 → DeclineMarks cfg s p) ∧
        (p.messageType = some 7 → ReleaseMarks cfg s p))

instance (cfg : Config) (s : Server) (p : Packet) (answers : List ArpAnswer) :
    Decidable (DiscoverMarks cfg s p answers) :=
  inferInstanceAs (Decidable (_ = 0 → _ ≠ zeroMac ∧ (_ = none → _ = false → SearchRoom _ _ _)))

instance (cfg : Config) (s : Server) (p : Packet) : Decidable (RequestMarks cfg s p) :=
  inferInstanceAs (Decidable (_ = some _ → _ ≠ zeroMac))

instance (cfg : Config) (s : Server) (p : Packet) : Decidable (DeclineMarks cfg s p) :=
  inferInstanceAs (Decidable (_ = true → _ = p.requestedIp → _ = 0 ∧ _ ≠ zeroMac ∧ _ < 2 ^ 32))

instance (cfg : Config) (s : Server) (p : Packet) : Decidable (ReleaseMarks cfg s p) :=
  inferInstanceAs (Decidable (_ = true → _ = some _ → _ = 0 → _ ≠ zeroMac))

instance (cfg : Config) (s : Server) : DecidablePred (MarkersKept cfg s)
  | .tick _ => isTrue trivial
  | .packet p answers => inferInstanceAs (Decidable (_ = false ∧ (_ = true →
      (_ = some 1 → DiscoverMarks cfg s p answers) ∧ (_ = some 3 → RequestMarks cfg s p) ∧
      (_ = some 4 → DeclineMarks cfg s p) ∧ (_ = some 7 → ReleaseMarks cfg s p))))

/-- Addresses in quarantine are not reserved, and the table has a marker for them. -/
def Marked (cfg : Config) (s : Server) : Prop :=
  ∀ r ∈ s.log, ∀ nip sec, r.entry.marks = some (nip, sec) → nip ≠ 0 →
    isNipReservedAsStatic cfg nip = false ∧
      (s.now < r.time + sec →
        r.time + sec < 2 ^ 32 ∧ Keeps s.leases zeroMac nip (r.time + sec))

structure MarkersOk (cfg : Config) (s : Server) : Prop where
  unique : Unique s.leases
  reserved : ReservedOk cfg s
  marked : Marked cfg s
  respects : Respects s.log

/-! ### Room for markers -/

theorem isUsable_mono {now d : ℕ} {l : Slot} (h32 : now + d < 2 ^ 32)
    (h : l.isUsable now = true) : l.isUsable (now + d) = true := by
  rw [isUsable_iff, leasetime, Nat.mod_eq_of_lt (by omega)] at h
  rw [isUsable_iff, leasetime, Nat.mod_eq_of_lt h32]
  omega

theorem room_tick {s : Server} {d : ℕ} (h32 : s.now + d < 2 ^ 32) :
    s.room ≤ { s with now := s.now + d }.room :=
  List.countP_mono_left fun _ _ h => isUsable_mono h32 h

theorem room_add (s : Server) (chaddr : Option Mac) (yiaddr lt : ℕ)
    (hostname : Option (List UInt8)) : s.room ≤ (s.add chaddr yiaddr lt hostname).room + 1 := by
  have hclear : s.room ≤ (clearLeases chaddr yiaddr s.leases).countP (·.isUsable s.now) := by
    rw [clearLeases, List.countP_map]
    refine List.countP_mono_left fun l _ hl => ?_
    show Slot.isUsable s.now (if _ then _ else _) = true
    split
    · rfl
    · exact hl
  refine Nat.le_trans hclear ?_
  show _ ≤ (addLease s.now chaddr yiaddr lt hostname s.leases).2.countP (·.isUsable s.now) + 1
  rcases addLease_cases s.now chaddr yiaddr lt hostname s.leases with ⟨i, l, -, hi, -, he⟩ | ⟨-, he⟩
  · rw [he, List.countP_set (List.getElem?_eq_some_iff.mp hi).1]
    split
    · omega
    · omega
  · rw [he]
    exact Nat.le_succ _

theorem conflicts_eq (answers : List ArpAnswer) :
    conflicts answers =
      (if (answers.headD ⟨true, 0⟩).nobody then 0 else 1) + conflicts answers.tail := by
  cases answers with
  | nil => rfl
  | cons a answers =>
    simp only [conflicts, List.countP_cons, List.headD_cons, List.tail_cons]
    by_cases ha : a.nobody = true
    · simp [ha]
    · simp [ha, Nat.add_comm]

theorem waiting_eq (answers : List ArpAnswer) :
    waiting answers = (answers.headD ⟨true, 0⟩).seconds + waiting answers.tail := by
  cases answers with
  | nil => rfl
  | cons a answers => simp [waiting]

/-! ### The invariant -/

section

variable {cfg : Config} {s s₁ s' : Server} {p : Packet} {answers : List ArpAnswer} {nip : ℕ}

theorem Marked.mono (h : Marked cfg s)
    (hlog : ∀ r ∈ s'.log, r.entry.marks ≠ none → r ∈ s.log) (hnow : s.now ≤ s'.now)
    (hkeep : ∀ x u, x ≠ 0 → isNipReservedAsStatic cfg x = false → s'.now < u → u < 2 ^ 32 →
      Keeps s.leases zeroMac x u → Keeps s'.leases zeroMac x u) : Marked cfg s' := by
  intro r hr x sec hm h0
  obtain ⟨hres, hk⟩ := h r (hlog r hr (by rw [hm]; simp)) x sec hm h0
  refine ⟨hres, fun hlt => ?_⟩
  obtain ⟨h32, hk⟩ := hk (Nat.lt_of_le_of_lt hnow hlt)
  exact ⟨h32, hkeep x _ h0 hres hlt h32 hk⟩

theorem Marked.note {e : Entry} (h : Marked cfg s) (he : e.marks = none) :
    Marked cfg (s.note e) := by
  refine h.mono (fun r hr hm => ?_) (Nat.le_refl _) fun _ _ _ _ _ _ hk => hk
  rcases List.mem_cons.mp hr with rfl | hr
  · exact absurd he hm
  · exact hr

theorem Marked.note_mark {e : Entry} {sec : ℕ} (h : Marked cfg s)
    (he : e.marks = some (nip, sec)) (hnew : nip ≠ 0 → isNipReservedAsStatic cfg nip = false ∧
      s.now + sec < 2 ^ 32 ∧ Keeps s.leases zeroMac nip (s.now + sec)) :
    Marked cfg (s.note e) := by
  intro r hr x sec' hm h0
  rcases List.mem_cons.mp hr with rfl | hr
  · rw [he, Option.some.injEq, Prod.mk.injEq] at hm
    obtain ⟨rfl, rfl⟩ := hm
    obtain ⟨hres, h32, hk⟩ := hnew h0
    exact ⟨hres, fun _ => ⟨h32, hk⟩⟩
  · exact h r hr x sec' hm h0

theorem Marked.tick (h : Marked cfg s) (d : ℕ) : Marked cfg { s with now := s.now + d } :=
  h.mono (fun _ hr _ => hr) (Nat.le_add_right _ _) fun _ _ _ _ _ _ hk => hk

theorem Respects.note {e : Entry} (h : Respects s.log) (he : e.carries = none) :
    Respects (s.note e).log := by
  refine List.pairwise_cons.mpr ⟨fun m _ mac x sec hc => ?_, h⟩
  rw [he] at hc
  cases hc

/-- An address may be sent when no marker in force is for it. -/
theorem Respects.note_carries {e : Entry} {mac : Mac} (h : Respects s.log) (hm : Marked cfg s)
    (he : e.carries = some (mac, nip))
    (hfree : nip ≠ 0 → isNipReservedAsStatic cfg nip = false →
      ∀ u, s.now < u → u < 2 ^ 32 → ¬ Keeps s.leases zeroMac nip u) :
    Respects (s.note e).log := by
  refine List.pairwise_cons.mpr ⟨fun m hmem mac' x sec hc h0 hmark => ?_, h⟩
  rw [he, Option.some.injEq, Prod.mk.injEq] at hc
  obtain ⟨rfl, rfl⟩ := hc
  obtain ⟨hres, hk⟩ := hm m hmem nip sec hmark h0
  by_contra hlt
  obtain ⟨h32, hk⟩ := hk (Nat.lt_of_not_le hlt)
  exact hfree h0 hres _ (Nat.lt_of_not_le hlt) h32 hk

theorem Idle.tick (h : Idle s nip) (d : ℕ) : Idle { s with now := s.now + d } nip := by
  rcases h with h | ⟨l, hl, t, ht, he⟩
  · exact Or.inl h
  · exact Or.inr ⟨l, hl, t, Nat.le_trans ht (Nat.le_add_right _ _), he⟩

/-- With room in the table a conflict gets its marker, and the other markers stay. -/
theorem Marked.conflict (hm : Marked cfg s) (hu : Unique s.leases) (hroom : 0 < s.room)
    (h32 : s.now + cfg.conflictTime < 2 ^ 32) (hres : isNipReservedAsStatic cfg nip = false)
    (hidle : Idle s nip) :
    Marked cfg ((s.add none nip cfg.conflictTime none).note (.conflict nip cfg.conflictTime)) := by
  obtain ⟨l, hl, hlu⟩ := List.countP_pos_iff.mp hroom
  obtain ⟨i, hi⟩ : ∃ i, (addLease s.now none nip cfg.conflictTime none s.leases).1 = some i :=
    addLease_isSome hl (Or.inr hlu)
  have hnew : Keeps (s.add none nip cfg.conflictTime none).leases zeroMac nip
      (s.now + cfg.conflictTime) :=
    ⟨_, newSlot_mem_addLease hi, rfl, rfl, (Nat.mod_eq_of_lt h32).ge⟩
  have hold : Marked cfg (s.add none nip cfg.conflictTime none) := by
    refine hm.mono (fun _ hr _ => hr) (Nat.le_refl _) fun x u hx0 _ hlt h32 hk => ?_
    exact hk.addLease hlt h32 (by simp) (hk.ne_of_idle hidle hu hlt h32 hx0) _ _
  exact hold.note_mark rfl fun _ => ⟨hres, h32, hnew⟩

/-- The property that goes through the search: there stays room for the answers to come. -/
structure SearchMarked (cfg : Config) (s : Server) (answers : List ArpAnswer) : Prop where
  unique : Unique s.leases
  marked : Marked cfg s
  respects : Respects s.log
  room : SearchRoom cfg s answers

theorem pingKeeps_marked (cfg : Config) : PingKeeps cfg (SearchMarked cfg) := by
  intro s answers nip h hres h0 hidle
  have hun := pingKeeps_unique cfg s answers nip h.unique hres h0 hidle
  obtain ⟨hroom, h32⟩ := h.room
  rw [waiting_eq answers] at h32
  rw [conflicts_eq answers] at hroom
  generalize hd : (answers.headD ⟨true, 0⟩).seconds = d at h32
  have htick : s.room ≤ { s with now := s.now + d }.room := room_tick (by omega)
  have hm := h.marked.tick d
  have hidle := hidle.tick d
  rcases nobodyRespondsToArp_cases cfg nip s answers with ⟨hn, he⟩ | ⟨hn, he⟩
  · rw [he, hd] at hun ⊢
    rw [hn, if_pos rfl, Nat.zero_add] at hroom
    refine ⟨hun, hm, h.respects, Nat.le_trans hroom htick, ?_⟩
    show s.now + d + waiting answers.tail + _ < 2 ^ 32
    omega
  · rw [he, hd] at hun ⊢
    rw [hn, if_neg Bool.false_ne_true] at hroom
    have hadd := room_add { s with now := s.now + d } none nip cfg.conflictTime none
    have hpos : 0 < { s with now := s.now + d }.room := by omega
    have hend : s.now + d + cfg.conflictTime < 2 ^ 32 := by omega
    refine ⟨hun, hm.conflict h.unique hpos hend hres hidle, Respects.note h.respects rfl, ?_, ?_⟩
    · show _ ≤ ({ s with now := s.now + d }.add none nip cfg.conflictTime none).room
      simp only
      omega
    · show s.now + d + waiting answers.tail + _ < 2 ^ 32
      omega

theorem Chosen.markersOk (hc : Chosen cfg s p answers s₁ nip) (h : MarkersOk cfg s)
    (hroom : findLeaseByMac p.chaddr s.leases = none →
      requestedIsFree cfg s (p.requestedIp.getD 0) = false → SearchRoom cfg s answers) :
    MarkersOk cfg s₁ := by
  have hun := hc.unique h.unique
  have hres := hc.reservedOk h.reserved
  cases hc with
  | known => exact h
  | requested => exact h
  | free hm hr =>
    have hs := (search_rule (pingKeeps_marked cfg) s answers
      ⟨h.unique, h.marked, h.respects, hroom hm hr⟩).1.choose_spec
    exact ⟨hun, hres, hs.marked, hs.respects⟩

/-- A lease for a client with a MAC of its own, for an address that is not in quarantine. -/
theorem Marked.add (hm : Marked cfg s) (hz : p.chaddr ≠ zeroMac)
    (hfree : ∀ x u, x ≠ 0 → isNipReservedAsStatic cfg x = false → s.now < u → u < 2 ^ 32 →
      Keeps s.leases zeroMac x u → nip ≠ x) (sec : ℕ) :
    Marked cfg (s.add (some p.chaddr) nip sec p.hostName) := by
  refine hm.mono (fun _ hr _ => hr) (Nat.le_refl _) fun x u hx0 hres hlt h32 hk => ?_
  exact hk.addLease hlt h32 (fun he => hz (Option.some.inj he)) (hfree x u hx0 hres hlt h32 hk) _ _

theorem Keeps.ne_of_slot {l : Slot} {x u : ℕ} (hk : Keeps s.leases zeroMac x u)
    (hu : Unique s.leases) (hx0 : x ≠ 0) (hl : l ∈ s.leases) (hmac : l.mac = p.chaddr)
    (hz : p.chaddr ≠ zeroMac) : l.nip ≠ x := by
  intro hx
  have := hk.mac_eq hu hx0 hl hx
  exact hz (hmac.symm.trans this)

theorem Chosen.ne_marked (hc : Chosen cfg s p answers s₁ nip) (h0 : nip ≠ 0)
    (hu : Unique s₁.leases) (hz : p.chaddr ≠ zeroMac) {x u : ℕ} (hx0 : x ≠ 0) (hlt : s₁.now < u)
    (h32 : u < 2 ^ 32) (hk : Keeps s₁.leases zeroMac x u) : nip ≠ x := by
  rcases hc.known_or_idle h0 with ⟨rfl, l, hl, hmac, hnip⟩ | ⟨hidle, -⟩
  · rw [← hnip]
    exact hk.ne_of_slot hu hx0 hl hmac hz
  · exact hk.ne_of_idle hidle hu hlt h32 hx0

theorem Marked.offer (hc : Chosen cfg s p answers s₁ nip) (h0 : nip ≠ 0) (h : MarkersOk cfg s₁)
    (hz : p.chaddr ≠ zeroMac) :
    Marked cfg (s₁.offer cfg p nip) ∧ Respects (s₁.offer cfg p nip).log := by
  have hadd := h.marked.add hz
    (fun _ _ hx0 _ hlt h32 hk => hc.ne_marked h0 h.unique hz hx0 hlt h32 hk) cfg.offerTime
  unfold Server.offer
  split
  · exact ⟨hadd, h.respects⟩
  · refine ⟨hadd.note rfl, ?_⟩
    exact h.respects.note_carries (e := .offer p.chaddr nip) h.marked rfl
      fun _ _ u hlt h32 hk => hc.ne_marked h0 h.unique hz h0 hlt h32 hk rfl

theorem Marked.sendAck (h : MarkersOk cfg s) (hz : p.chaddr ≠ zeroMac)
    (hfree : ∀ x u, x ≠ 0 → isNipReservedAsStatic cfg x = false → s.now < u → u < 2 ^ 32 →
      Keeps s.leases zeroMac x u → nip ≠ x) :
    Marked cfg (sendAck cfg s p nip) ∧ Respects (sendAck cfg s p nip).log := by
  have hnote : Marked cfg (s.note (.ack p.chaddr nip (selectLeaseTime cfg p))) :=
    h.marked.note rfl
  refine ⟨hnote.add hz hfree _, ?_⟩
  exact h.respects.note_carries (e := .ack p.chaddr nip (selectLeaseTime cfg p)) h.marked rfl
    fun h0 hres u hlt h32 hk => hfree nip u h0 hres hlt h32 hk rfl

theorem static_ne {mac : Mac} (hst : getStaticNipByMac cfg mac ≠ 0) {x : ℕ}
    (hx : isNipReservedAsStatic cfg x = false) : getStaticNipByMac cfg mac ≠ x := by
  rintro rfl
  rw [isNipReservedAsStatic_getStaticNipByMac hst] at hx
  cases hx

/-- Every move of `MarkersKept` keeps the invariant. -/
theorem Effect.markersOk (he : Effect cfg s p answers s')
    (hl : MarkersKept cfg s (.packet p answers)) (h : MarkersOk cfg s) : MarkersOk cfg s' := by
  obtain ⟨hask, hgood⟩ := hl
  have hun := he.unique h.unique
  have hres := he.reservedOk hask h.reserved
  suffices hm : Marked cfg s' ∧ Respects s'.log from ⟨hun, hres, hm.1, hm.2⟩
  cases he with
  | quiet => exact ⟨h.marked, h.respects⟩
  | nak | inform | releaseStatic => exact ⟨h.marked.note rfl, h.respects.note rfl⟩
  | offerStatic _ _ hst =>
    refine ⟨h.marked.note rfl, h.respects.note_carries h.marked rfl fun _ hx => ?_⟩
    exact absurd rfl (static_ne hst hx)
  | noOffer hh ht hst hc =>
    have hok := hc.markersOk h ((hgood hh).1 ht hst).2
    exact ⟨hok.marked, hok.respects⟩
  | offer hh ht hst hc h0 =>
    obtain ⟨hz, hroom⟩ := (hgood hh).1 ht hst
    exact Marked.offer hc h0 (hc.markersOk h hroom) hz
  | ackStatic hh ht hst hreq =>
    have hz := (hgood hh).2.1 ht (hreq ▸ leaseNip_of_static hst)
    exact Marked.sendAck h hz fun _ _ _ hx _ _ _ => static_ne hst hx
  | ack hh ht hst hi hreq =>
    have hz := (hgood hh).2.1 ht (hreq ▸ leaseNip_of_slot hst hi)
    obtain ⟨l, hl, hmac⟩ := findLeaseByMac_some hi
    rw [slot_eq hl]
    exact Marked.sendAck h hz fun x u hx0 _ _ _ hk =>
      hk.ne_of_slot h.unique hx0 (List.mem_of_getElem? hl) hmac hz
  | declineStatic hh ht hst hid hreq =>
    obtain ⟨h0, -, -⟩ := (hgood hh).2.2.1 ht hid (hreq ▸ leaseNip_of_static hst)
    exact absurd h0 hst
  | decline hh ht hst hi hid hreq =>
    obtain ⟨-, hz, h32⟩ := (hgood hh).2.2.1 ht hid (hreq ▸ leaseNip_of_slot hst hi)
    obtain ⟨l, hl, hmac⟩ := findLeaseByMac_some hi
    rw [slot_eq hl]
    have hset : Marked cfg { s with leases := s.leases.set _ { l with
        mac := zeroMac, expires := leasetime (s.now + cfg.declineTime) } } :=
      h.marked.mono (fun _ hr _ => hr) (Nat.le_refl _)
        fun _ _ _ _ _ _ hk => hk.set hl (by rwa [hmac]) _
    refine ⟨hset.note_mark rfl fun h0 => ⟨?_, h32, ?_⟩, Respects.note h.respects rfl⟩
    -- the client has no static lease, so its address is not reserved
    · by_contra hr
      have heq := h.reserved.slots l (List.mem_of_getElem? hl) h0 (by simpa using hr)
      rw [hmac, hst] at heq
      exact h0 heq.symm
    · exact ⟨_, List.mem_set (List.getElem?_eq_some_iff.mp hl).1 _, rfl, rfl,
        (Nat.mod_eq_of_lt h32).ge⟩
  | release hh ht hst hi hid hreq =>
    have hz := (hgood hh).2.2.2 ht hid (hreq ▸ leaseNip_of_slot hst hi) hst
    obtain ⟨l, hl, hmac⟩ := findLeaseByMac_some hi
    refine ⟨Marked.note ?_ rfl, Respects.note h.respects rfl⟩
    exact h.marked.mono (fun _ hr _ => hr) (Nat.le_refl _)
      fun _ _ _ _ _ _ hk => hk.set hl (by rwa [hmac]) _

end

theorem markersOk_boot (cfg : Config) (now : ℕ) (file : Option LeaseFile) :
    MarkersOk cfg (boot cfg now file) where
  unique := unique_readLeases cfg now file
  reserved := reservedOk_boot cfg now file
  marked := by
    intro r hr
    cases hr
  respects := List.Pairwise.nil

/-- **Quarantine holds** as long as the markers are made and left alone. -/
theorem quarantine_respected (cfg : Config) (now : ℕ) (file : Option LeaseFile)
    (labels : List Label)
    (hgood : ∀ m ∈ Machine.moves (step cfg) (boot cfg now file) labels,
      MarkersKept cfg m.1 m.2) :
    ∀ s ∈ Machine.states (step cfg) (boot cfg now file) labels, Respects s.log := by
  intro s hs
  have hok : MarkersOk cfg s := run_rule (I := MarkersOk cfg) (G := MarkersKept cfg)
    (fun _ d h => ⟨h.unique, ⟨h.reserved.slots, h.reserved.log⟩, h.marked.tick d, h.respects⟩)
    (fun _ _ _ _ he hl h => he.markersOk hl h) (markersOk_boot cfg now file) labels hgood s hs
  exact hok.respects

/-- The only slot is declined, and then offered to a client that comes with the zero MAC. -/
theorem not_quarantine_respected :
    ¬ ∀ (cfg : Config) (now : ℕ) (file : Option LeaseFile) (labels : List Label),
      ∀ s ∈ Machine.states (step cfg) (boot cfg now file) labels, Respects s.log := by
  intro h
  let cfg : Config :=
    { startIp := 1, endIp := 5, serverNip := 9, staticLeases := [], maxLeases := 1,
      offerTime := 60, declineTime := 3600, conflictTime := 3600, minLeaseSec := 60,
      maxLeaseSec := 864000 }
  let p : Packet := { chaddr := Vector.replicate 6 8, messageType := some 1, requestedIp := some 3 }
  let q : Packet :=
    { chaddr := Vector.replicate 6 8, messageType := some 4, requestedIp := some 3,
      serverId := some 9 }
  let r : Packet := { chaddr := zeroMac, messageType := some 1 }
  let s : Server := handle cfg (handle cfg (handle cfg (boot cfg 100 none) p []) q []) r []
  have hs : s ∈ Machine.states (step cfg) (boot cfg 100 none)
      [.packet p [], .packet q [], .packet r []] :=
    List.mem_cons_of_mem _ (List.mem_cons_of_mem _ (List.mem_cons_of_mem _ List.mem_cons_self))
  have hlog : s.log = [⟨100, .offer zeroMac 3⟩, ⟨100, .decline (Vector.replicate 6 8) 3 3600⟩,
      ⟨100, .offer (Vector.replicate 6 8) 3⟩] := by decide
  have hrespects := h cfg 100 none _ s hs
  rw [hlog] at hrespects
  have hle := (List.pairwise_cons.mp hrespects).1 _ List.mem_cons_self zeroMac 3 3600 rfl
    (by decide) rfl
  exact absurd hle (by decide)

/-- A declined address is not given to the next client, even where it asks for it. -/
theorem quarantine_respected_declined :
    let cfg : Config :=
      { startIp := 1, endIp := 5, serverNip := 9, staticLeases := [], maxLeases := 5,
        offerTime := 60, declineTime := 3600, conflictTime := 3600, minLeaseSec := 60,
        maxLeaseSec := 864000 }
    let p : Packet :=
      { chaddr := Vector.replicate 6 8, messageType := some 1, requestedIp := some 3 }
    let q : Packet :=
      { chaddr := Vector.replicate 6 8, messageType := some 4, requestedIp := some 3,
        serverId := some 9 }
    let r : Packet :=
      { chaddr := Vector.replicate 6 7, messageType := some 1, requestedIp := some 3 }
    let s : Server := handle cfg (handle cfg (handle cfg (boot cfg 100 none) p []) q []) r []
    s.log = [⟨100, .offer (Vector.replicate 6 7) 1⟩, ⟨100, .decline (Vector.replicate 6 8) 3 3600⟩,
      ⟨100, .offer (Vector.replicate 6 8) 3⟩] ∧ Respects s.log := by
  intro cfg p q r s
  refine ⟨by decide, quarantine_respected cfg 100 none [.packet p [], .packet q [], .packet r []]
    ?_ s ?_⟩
  · decide
  · exact List.mem_cons_of_mem _ (List.mem_cons_of_mem _
      (List.mem_cons_of_mem _ List.mem_cons_self))

end Rustybox.Udhcp
