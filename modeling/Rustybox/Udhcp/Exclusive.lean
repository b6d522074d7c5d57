import Rustybox.Udhcp.Reserved

/-!
# One address, one client

An ACK grants an address for a time, and the client may give it back before.  That no two
clients hold one address at once rests on the table: as long as a grant to a client without a
static lease runs, the table keeps the address for that client (`Backed`), and a grant to a
client with a static lease is for the reserved address.

The table forgets a running grant where a slot is given an earlier `expires`: the DISCOVER of a
client that has a lease turns it into an offer, a REQUEST may renew a lease for a shorter time,
and a time past the `u32` range wraps around.  `LeasesKept` are the moves without that.
-/

namespace Rustybox.Udhcp

/-- When the leases of an address end that a client has been sent and has not given back. -/
def grants (mac : Mac) (nip : ℕ) : List Record → List ℕ
  | [] => []
  | r :: log =>
    match r.entry with
    | .ack m x sec =>
      if m = mac ∧ x = nip then (r.time + sec) :: grants mac nip log else grants mac nip log
    | .release m x => if m = mac ∧ x = nip then [] else grants mac nip log
    | .decline m x _ => if m = mac ∧ x = nip then [] else grants mac nip log
    | _ => grants mac nip log

/-- A client holds an address: a lease it was sent has not run out, and it has not given the
address back. -/
def Server.holds (s : Server) (mac : Mac) (nip : ℕ) : Bool :=
  (grants mac nip s.log).any (fun u => s.now < u)

/-- No address is reserved for two clients. -/
def StaticDistinct (cfg : Config) : Prop :=
  ∀ a b, getStaticNipByMac cfg a ≠ 0 → getStaticNipByMac cfg a = getStaticNipByMac cfg b → a = b

/-- A DISCOVER leaves the lease of the client in force at least as long as it was. -/
def DiscoverKeeps (cfg : Config) (s : Server) (p : Packet) : Prop :=
  p.chaddr ≠ zeroMac → ∀ l ∈ s.leases, l.mac = p.chaddr → l.isExpired s.now = false →
    l.expires ≤ leasetime (s.now + cfg.offerTime)

/-- An ACK goes to a MAC that is not zero, for a lease that ends within the `u32` range and no
earlier than the one it replaces. -/
def RequestKeeps (cfg : Config) (s : Server) (p : Packet) : Prop :=
  ∀ l ∈ s.leases, l.mac = p.chaddr → l.nip = p.requestedIp.getD p.ciaddr →
    p.chaddr ≠ zeroMac ∧ s.now + selectLeaseTime cfg p < 2 ^ 32 ∧
      (l.isExpired s.now = false → l.expires ≤ s.now + selectLeaseTime cfg p)

/-- The moves in which the table forgets no running lease. -/
def LeasesKept (cfg : Config) (s : Server) : Label → Prop
  | .tick _ => True
  | .packet p _ =>
    asksForReserved cfg s p = false ∧
      (heard cfg p = true → getStaticNipByMac cfg p.chaddr = 0 →
        (p.messageType = some 1 → DiscoverKeeps cfg s p) ∧
        (p.messageType = some 3 → RequestKeeps cfg s p))

instance (cfg : Config) (s : Server) (p : Packet) : Decidable (DiscoverKeeps cfg s p) :=
  inferInstanceAs (Decidable (p.chaddr ≠ zeroMac → ∀ l ∈ s.leases, l.mac = p.chaddr →
    l.isExpired s.now = false → l.expires ≤ leasetime (s.now + cfg.offerTime)))

instance (cfg : Config) (s : Server) (p : Packet) : Decidable (RequestKeeps cfg s p) :=
  inferInstanceAs (Decidable (∀ l ∈ s.leases, l.mac = p.chaddr →
    l.nip = p.requestedIp.getD p.ciaddr →
    p.chaddr ≠ zeroMac ∧ s.now + selectLeaseTime cfg p < 2 ^ 32 ∧
      (l.isExpired s.now = false → l.expires ≤ s.now + selectLeaseTime cfg p)))

instance (cfg : Config) (s : Server) : DecidablePred (LeasesKept cfg s)
  | .tick _ => isTrue trivial
  | .packet p _ => inferInstanceAs (Decidable (asksForReserved cfg s p = false ∧
      (heard cfg p = true → getStaticNipByMac cfg p.chaddr = 0 →
        (p.messageType = some 1 → DiscoverKeeps cfg s p) ∧
        (p.messageType = some 3 → RequestKeeps cfg s p))))

/-- The table keeps the addresses of the running leases of clients without a static lease. -/
def Backed (cfg : Config) (s : Server) : Prop :=
  ∀ mac nip u, getStaticNipByMac cfg mac = 0 → nip ≠ 0 → u ∈ grants mac nip s.log → s.now < u →
    u < 2 ^ 32 ∧ mac ≠ zeroMac ∧ Keeps s.leases mac nip u

/-- Clients with a static lease have been sent their address only. -/
def StaticGrants (cfg : Config) (log : List Record) : Prop :=
  ∀ mac nip u, getStaticNipByMac cfg mac ≠ 0 → u ∈ grants mac nip log →
    nip = getStaticNipByMac cfg mac

structure LeasesOk (cfg : Config) (s : Server) : Prop where
  unique : Unique s.leases
  reserved : ReservedOk cfg s
  backed : Backed cfg s
  static : StaticGrants cfg s.log

/-! ### Grants -/

theorem grants_ack (mac m : Mac) (nip x t sec : ℕ) (log : List Record) :
    grants mac nip (⟨t, .ack m x sec⟩ :: log) =
      if m = mac ∧ x = nip then (t + sec) :: grants mac nip log else grants mac nip log := rfl

theorem mem_grants_of_cons {mac : Mac} {nip u : ℕ} {r : Record} {log : List Record}
    (h : u ∈ grants mac nip (r :: log)) (hr : ∀ m x sec, r.entry ≠ .ack m x sec) :
    u ∈ grants mac nip log := by
  unfold grants at h
  split at h
  · next he => exact absurd he (hr _ _ _)
  · split at h
    · cases h
    · exact h
  · split at h
    · cases h
    · exact h
  · exact h

theorem grants_decline (mac : Mac) (nip t sec : ℕ) (log : List Record) :
    grants mac nip (⟨t, .decline mac nip sec⟩ :: log) = [] := by
  simp [grants]

theorem grants_release (mac : Mac) (nip t : ℕ) (log : List Record) :
    grants mac nip (⟨t, .release mac nip⟩ :: log) = [] := by
  simp [grants]

theorem mem_grants_of_holds {s : Server} {mac : Mac} {nip : ℕ} (h : s.holds mac nip = true) :
    ∃ u ∈ grants mac nip s.log, s.now < u := by
  simpa [Server.holds] using h

/-! ### The invariant -/

section

variable {cfg : Config} {s s₁ s' : Server} {p : Packet} {answers : List ArpAnswer} {nip : ℕ}

theorem Backed.mono (h : Backed cfg s)
    (hlog : ∀ mac nip u, u ∈ grants mac nip s'.log → u ∈ grants mac nip s.log)
    (hnow : s.now ≤ s'.now)
    (hkeep : ∀ mac nip u, getStaticNipByMac cfg mac = 0 → nip ≠ 0 → mac ≠ zeroMac →
      u ∈ grants mac nip s'.log → s'.now < u → u < 2 ^ 32 → Keeps s.leases mac nip u →
      Keeps s'.leases mac nip u) : Backed cfg s' := by
  intro mac nip u hst h0 hu hlt
  obtain ⟨h32, hz, hk⟩ := h mac nip u hst h0 (hlog mac nip u hu) (Nat.lt_of_le_of_lt hnow hlt)
  exact ⟨h32, hz, hkeep mac nip u hst h0 hz hu hlt h32 hk⟩

theorem StaticGrants.mono {log log' : List Record} (h : StaticGrants cfg log)
    (hlog : ∀ mac nip u, u ∈ grants mac nip log' → u ∈ grants mac nip log) :
    StaticGrants cfg log' := fun mac nip u hst hu => h mac nip u hst (hlog mac nip u hu)

theorem Backed.note {e : Entry} (h : Backed cfg s) (he : ∀ m x sec, e ≠ .ack m x sec) :
    Backed cfg (s.note e) :=
  h.mono (fun _ _ _ hu => mem_grants_of_cons hu he) (Nat.le_refl _)
    fun _ _ _ _ _ _ _ _ _ hk => hk

theorem StaticGrants.note {e : Entry} (h : StaticGrants cfg s.log)
    (he : ∀ m x sec, e ≠ .ack m x sec) : StaticGrants cfg (s.note e).log :=
  h.mono fun _ _ _ hu => mem_grants_of_cons hu he

theorem Backed.tick (h : Backed cfg s) (d : ℕ) : Backed cfg { s with now := s.now + d } :=
  h.mono (fun _ _ _ hu => hu) (Nat.le_add_right _ _) fun _ _ _ _ _ _ _ _ _ hk => hk

theorem pingKeeps_backed (cfg : Config) :
    PingKeeps cfg (fun s _ => Unique s.leases ∧ Backed cfg s ∧ StaticGrants cfg s.log) := by
  intro s answers nip h hres h0 hidle
  have hu := pingKeeps_unique cfg s answers nip h.1 hres h0 hidle
  obtain ⟨hun, hb, hst⟩ := h
  rcases nobodyRespondsToArp_cases cfg nip s answers with ⟨-, he⟩ | ⟨-, he⟩
  · rw [he] at hu ⊢
    exact ⟨hu, hb.tick _, hst⟩
  · rw [he] at hu ⊢
    refine ⟨hu, Backed.note ?_ (by simp), StaticGrants.note hst (by simp)⟩
    refine hb.mono (fun _ _ _ hu => hu) (Nat.le_add_right _ _) ?_
    intro mac x u _ hx0 _ _ hlt h32 hk
    have hlt : s.now + (answers.headD ⟨true, 0⟩).seconds < u := hlt
    exact hk.addLease hlt h32 (by simp)
      (hk.ne_of_idle hidle hun (Nat.lt_of_le_of_lt (Nat.le_add_right _ _) hlt) h32 hx0) _ _

theorem Chosen.leasesOk (hc : Chosen cfg s p answers s₁ nip) (h : LeasesOk cfg s) :
    LeasesOk cfg s₁ := by
  have hun := hc.unique h.unique
  have hres := hc.reservedOk h.reserved
  cases hc with
  | known => exact h
  | requested => exact h
  | free =>
    obtain ⟨-, hb, hst⟩ := (search_rule (pingKeeps_backed cfg) s answers
      ⟨h.unique, h.backed, h.static⟩).1.choose_spec
    exact ⟨hun, hres, hb, hst⟩

theorem Backed.offer (hc : Chosen cfg s p answers s₁ nip) (h0 : nip ≠ 0) (hok : LeasesOk cfg s₁)
    (hd : DiscoverKeeps cfg s p) : Backed cfg (s₁.offer cfg p nip) := by
  have hadd : Backed cfg (s₁.add (some p.chaddr) nip cfg.offerTime p.hostName) := by
    refine hok.backed.mono (fun _ _ _ hu => hu) (Nat.le_refl _) ?_
    intro mac x u _ hx0 hz _ hlt h32 hk
    have hlt : s₁.now < u := hlt
    show Keeps (addLease s₁.now (some p.chaddr) nip cfg.offerTime p.hostName s₁.leases).2 mac x u
    rcases hc.known_or_idle h0 with ⟨rfl, l, hl, hmac, hnip⟩ | ⟨hidle, hnone⟩
    · by_cases hm : l.mac = mac
      -- the client of the running lease itself: the lease becomes an offer
      · obtain ⟨hlx, hlu⟩ := hk.nip_eq hok.unique hz hl hm
        have hexp : l.isExpired s₁.now = false := by
          rw [isExpired_eq_false_iff, leasetime, Nat.mod_eq_of_lt (by omega)]
          omega
        have hle := hd (by rwa [← hmac, hm]) l hl hmac hexp
        rw [← hmac, hm, ← hnip, hlx]
        exact keeps_renew hl hm (Nat.le_trans hlu hle) _
      · refine hk.addLease hlt h32 ?_ ?_ _ _
        · rw [← hmac]
          exact fun he => hm (Option.some.inj he)
        · rw [← hnip]
          exact fun he => hm (hk.mac_eq hok.unique hx0 hl he)
    · have hne : p.chaddr ≠ mac := by
        rintro rfl
        obtain ⟨l, hl, hmac, -, -⟩ := hk
        exact hnone hz l hl hmac
      exact hk.addLease hlt h32 (fun he => hne (Option.some.inj he))
        (hk.ne_of_idle hidle hok.unique hlt h32 hx0) _ _
  unfold Server.offer
  split
  · exact hadd
  · exact hadd.note (by simp)

/-- The reserved address of a client is not in force for a client without a static lease. -/
theorem Keeps.ne_static {mac : Mac} {u : ℕ} (hk : Keeps s.leases mac nip u)
    (hres : SlotsReserved cfg s.leases) (hst : getStaticNipByMac cfg mac = 0) (h0 : nip ≠ 0)
    (m : Mac) (hm : getStaticNipByMac cfg m ≠ 0) : getStaticNipByMac cfg m ≠ nip := by
  rintro rfl
  obtain ⟨l, hl, rfl, hnip, -⟩ := hk
  have heq := hres l hl (hnip ▸ h0) (hnip ▸ isNipReservedAsStatic_getStaticNipByMac hm)
  rw [hst, hnip] at heq
  exact h0 heq.symm

theorem Backed.ackStatic (h : LeasesOk cfg s) (hst : getStaticNipByMac cfg p.chaddr ≠ 0) :
    Backed cfg (sendAck cfg s p (getStaticNipByMac cfg p.chaddr)) := by
  have hne : ∀ mac, getStaticNipByMac cfg mac = 0 → p.chaddr ≠ mac := by
    rintro mac hmac rfl
    exact hst hmac
  intro mac x u hmac hx0 hu hlt
  have hu : u ∈ grants mac x s.log := by
    rw [show (sendAck cfg s p (getStaticNipByMac cfg p.chaddr)).log = ⟨s.now, .ack p.chaddr
      (getStaticNipByMac cfg p.chaddr) (selectLeaseTime cfg p)⟩ :: s.log from rfl, grants_ack,
      if_neg (fun he => hne mac hmac he.1)] at hu
    exact hu
  have hlt : s.now < u := hlt
  obtain ⟨h32, hz, hk⟩ := h.backed mac x u hmac hx0 hu hlt
  exact ⟨h32, hz, hk.addLease hlt h32 (fun he => hne mac hmac (Option.some.inj he))
    (hk.ne_static h.reserved.slots hmac hx0 p.chaddr hst) _ _⟩

theorem Backed.ack {l : Slot} (h : LeasesOk cfg s) (hl : l ∈ s.leases)
    (hmac : l.mac = p.chaddr) (hz : p.chaddr ≠ zeroMac)
    (h32 : s.now + selectLeaseTime cfg p < 2 ^ 32)
    (hle : l.isExpired s.now = false → l.expires ≤ s.now + selectLeaseTime cfg p) :
    Backed cfg (sendAck cfg s p l.nip) := by
  have hsec : leasetime (s.now + selectLeaseTime cfg p) = s.now + selectLeaseTime cfg p :=
    Nat.mod_eq_of_lt h32
  intro mac x u hst hx0 hu hlt
  have hlt : s.now < u := hlt
  show _ ∧ _ ∧ Keeps (addLease s.now (some p.chaddr) l.nip _ _ s.leases).2 mac x u
  rw [show (sendAck cfg s p l.nip).log = ⟨s.now, .ack p.chaddr l.nip (selectLeaseTime cfg p)⟩ ::
    s.log from rfl, grants_ack] at hu
  split at hu
  · next he =>
    obtain ⟨rfl, rfl⟩ := he
    rcases List.mem_cons.mp hu with rfl | hu
    · exact ⟨h32, hz, keeps_renew hl hmac hsec.ge _⟩
    · obtain ⟨h32', -, hk⟩ := h.backed p.chaddr l.nip u hst hx0 hu hlt
      have hlu := (hk.nip_eq h.unique hz hl hmac).2
      have hexp : l.isExpired s.now = false := by
        rw [isExpired_eq_false_iff, leasetime, Nat.mod_eq_of_lt (by omega)]
        omega
      exact ⟨h32', hz, keeps_renew hl hmac
        (hsec.symm ▸ Nat.le_trans hlu (hle hexp)) _⟩
  · next hne =>
    obtain ⟨h32', hz', hk⟩ := h.backed mac x u hst hx0 hu hlt
    have hm : l.mac ≠ mac := by
      intro hm
      exact hne ⟨by rw [← hmac, hm], (hk.nip_eq h.unique hz' hl hm).1⟩
    refine ⟨h32', hz', hk.addLease hlt h32' ?_ (fun he => hm (hk.mac_eq h.unique hx0 hl he)) _ _⟩
    rw [← hmac]
    exact fun he => hm (Option.some.inj he)

/-- A client gives its address back, and its slot is changed in whatever way. -/
theorem Backed.giveBack {e : Entry} {i : ℕ} {l l' : Slot} (h : LeasesOk cfg s)
    (hl : s.leases[i]? = some l) (he : ∀ m x sec, e ≠ .ack m x sec)
    (hback : ∀ t log, grants l.mac l.nip (⟨t, e⟩ :: log) = []) :
    Backed cfg ({ s with leases := s.leases.set i l' }.note e) := by
  refine h.backed.mono (fun _ _ _ hu => mem_grants_of_cons hu he) (Nat.le_refl _) ?_
  intro mac x u _ _ hz hu _ _ hk
  refine hk.set hl ?_ l'
  rintro rfl
  -- the running lease would be the one that is given back
  have hx := (hk.nip_eq h.unique hz (List.mem_of_getElem? hl) rfl).1
  subst hx
  have hu : u ∈ grants l.mac l.nip (⟨s.now, e⟩ :: s.log) := hu
  rw [hback] at hu
  cases hu

theorem StaticGrants.sendAck (h : StaticGrants cfg s.log)
    (hnip : getStaticNipByMac cfg p.chaddr ≠ 0 → nip = getStaticNipByMac cfg p.chaddr) :
    StaticGrants cfg (sendAck cfg s p nip).log := by
  intro mac x u hst hu
  rw [show (Udhcp.sendAck cfg s p nip).log = ⟨s.now, .ack p.chaddr nip (selectLeaseTime cfg p)⟩ ::
    s.log from rfl, grants_ack] at hu
  split at hu
  · next he =>
    obtain ⟨rfl, rfl⟩ := he
    exact hnip hst
  · exact h mac x u hst hu

theorem Effect.staticGrants (he : Effect cfg s p answers s') (h : LeasesOk cfg s) :
    StaticGrants cfg s'.log := by
  have hst := h.static
  cases he with
  | quiet => exact hst
  | nak | inform | offerStatic | declineStatic | releaseStatic => exact hst.note (by simp)
  | noOffer _ _ _ hc => exact (hc.leasesOk h).static
  | offer _ _ _ hc =>
    unfold Server.offer
    split
    · exact (hc.leasesOk h).static
    · exact StaticGrants.note (hc.leasesOk h).static (by simp)
  | ackStatic => exact hst.sendAck fun _ => rfl
  | ack _ _ h0 => exact hst.sendAck fun h => absurd h0 h
  | decline | release => exact StaticGrants.note hst (by simp)

/-- Every move of `LeasesKept` keeps the invariant. -/
theorem Effect.leasesOk (he : Effect cfg s p answers s')
    (hl : LeasesKept cfg s (.packet p answers)) (h : LeasesOk cfg s) : LeasesOk cfg s' := by
  obtain ⟨hask, hgood⟩ := hl
  refine ⟨he.unique h.unique, he.reservedOk hask h.reserved, ?_, he.staticGrants h⟩
  cases he with
  | quiet => exact h.backed
  | nak | inform | offerStatic | declineStatic | releaseStatic => exact h.backed.note (by simp)
  | noOffer _ _ _ hc => exact (hc.leasesOk h).backed
  | offer hh ht hst hc h0 => exact Backed.offer hc h0 (hc.leasesOk h) ((hgood hh hst).1 ht)
  | ackStatic _ _ hst => exact Backed.ackStatic h hst
  | ack hh ht hst hi hnip =>
    obtain ⟨l, hl, hmac⟩ := findLeaseByMac_some hi
    rw [slot_eq hl] at hnip ⊢
    have hmem := List.mem_of_getElem? hl
    obtain ⟨hz, h32, hle⟩ := (hgood hh hst).2 ht l hmem hmac hnip
    exact Backed.ack h hmem hmac hz h32 hle
  | decline _ _ _ hi =>
    obtain ⟨l, hl, hmac⟩ := findLeaseByMac_some hi
    rw [slot_eq hl, ← hmac]
    exact Backed.giveBack h hl (by simp) fun t log => grants_decline _ _ _ _ _
  | release _ _ _ hi =>
    obtain ⟨l, hl, hmac⟩ := findLeaseByMac_some hi
    rw [slot_eq hl, ← hmac]
    exact Backed.giveBack h hl (by simp) fun t log => grants_release _ _ _ _

end

theorem leasesOk_boot (cfg : Config) (now : ℕ) (file : Option LeaseFile) :
    LeasesOk cfg (boot cfg now file) where
  unique := unique_readLeases cfg now file
  reserved := reservedOk_boot cfg now file
  backed := by
    intro mac nip u _ _ hu
    cases hu
  static := by
    intro mac nip u _ hu
    cases hu

theorem LeasesOk.holds {cfg : Config} {s : Server} (h : LeasesOk cfg s) {mac : Mac} {nip : ℕ}
    (h0 : nip ≠ 0) (hh : s.holds mac nip = true) :
    (getStaticNipByMac cfg mac = 0 ∧ ∃ u, Keeps s.leases mac nip u) ∨
      (getStaticNipByMac cfg mac ≠ 0 ∧ nip = getStaticNipByMac cfg mac) := by
  obtain ⟨u, hu, hlt⟩ := mem_grants_of_holds hh
  by_cases hst : getStaticNipByMac cfg mac = 0
  · exact Or.inl ⟨hst, u, (h.backed mac nip u hst h0 hu hlt).2.2⟩
  · exact Or.inr ⟨hst, h.static mac nip u hst hu⟩

theorem LeasesOk.exclusive {cfg : Config} {s : Server} (h : LeasesOk cfg s)
    (hcfg : StaticDistinct cfg) {a b : Mac} {nip : ℕ} (h0 : nip ≠ 0)
    (ha : s.holds a nip = true) (hb : s.holds b nip = true) : a = b := by
  rcases h.holds h0 ha with ⟨hsa, u, hka⟩ | ⟨hsa, hna⟩
  · rcases h.holds h0 hb with ⟨-, v, l, hl, hmac, hnip, -⟩ | ⟨hsb, hnb⟩
    · exact (hka.mac_eq h.unique h0 hl hnip).symm.trans hmac
    · exact absurd hnb.symm (hka.ne_static h.reserved.slots hsa h0 b hsb)
  · rcases h.holds h0 hb with ⟨hsb, v, hkb⟩ | ⟨-, hnb⟩
    · exact absurd hna.symm (hkb.ne_static h.reserved.slots hsb h0 a hsa)
    · exact hcfg a b hsa (hna.symm.trans hnb)

/-- **No address is leased to two clients**, as long as no reserved address is given to a
client that asks for it and the table forgets no running lease. -/
theorem lease_exclusive (cfg : Config) (hcfg : StaticDistinct cfg) (now : ℕ)
    (file : Option LeaseFile) (labels : List Label)
    (hgood : ∀ m ∈ Machine.moves (step cfg) (boot cfg now file) labels,
      LeasesKept cfg m.1 m.2) :
    ∀ s ∈ Machine.states (step cfg) (boot cfg now file) labels,
      ∀ a b nip, nip ≠ 0 → s.holds a nip = true → s.holds b nip = true → a = b := by
  intro s hs a b nip h0 ha hb
  have hok : LeasesOk cfg s := run_rule (I := LeasesOk cfg) (G := LeasesKept cfg)
    (fun _ d h => ⟨h.unique, ⟨h.reserved.slots, h.reserved.log⟩, h.backed.tick d, h.static⟩)
    (fun _ _ _ _ he hl h => he.leasesOk hl h) (leasesOk_boot cfg now file) labels hgood s hs
  exact hok.exclusive hcfg h0 ha hb

/-- A client asks for the address reserved for another one and is sent an ACK for it, and so is
the other one. -/
theorem not_lease_exclusive :
    ¬ ∀ (cfg : Config), cfg.startIp ≤ cfg.endIp →
      ∀ (now : ℕ) (file : Option LeaseFile) (labels : List Label),
      ∀ s ∈ Machine.states (step cfg) (boot cfg now file) labels,
        ∀ a b nip, nip ≠ 0 → s.holds a nip = true → s.holds b nip = true → a = b := by
  intro h
  let cfg : Config :=
    { startIp := 1, endIp := 5, serverNip := 9, staticLeases := [(Vector.replicate 6 7, 3)],
      maxLeases := 5, offerTime := 60, declineTime := 3600, conflictTime := 3600,
      minLeaseSec := 60, maxLeaseSec := 864000 }
  let p : Packet := { chaddr := Vector.replicate 6 8, messageType := some 1, requestedIp := some 3 }
  let q : Packet := { chaddr := Vector.replicate 6 8, messageType := some 3, requestedIp := some 3 }
  let r : Packet := { chaddr := Vector.replicate 6 7, messageType := some 3, requestedIp := some 3 }
  let s₁ : Server := handle cfg (boot cfg 100 none) p []
  let s₂ : Server := handle cfg s₁ q []
  let s₃ : Server := handle cfg s₂ r []
  have hs : s₃ ∈ Machine.states (step cfg) (boot cfg 100 none)
      [.packet p [], .packet q [], .packet r []] :=
    List.mem_cons_of_mem _ (List.mem_cons_of_mem _ (List.mem_cons_of_mem _ List.mem_cons_self))
  have heq := h cfg (by decide) 100 none _ s₃ hs (Vector.replicate 6 8) (Vector.replicate 6 7) 3
    (by decide) (by decide) (by decide)
  exact absurd heq (by decide)

/-- After an ACK, whoever holds the address is the client it was sent to. -/
theorem lease_exclusive_one_client :
    let cfg : Config :=
      { startIp := 1, endIp := 5, serverNip := 9, staticLeases := [], maxLeases := 5,
        offerTime := 60, declineTime := 3600, conflictTime := 3600, minLeaseSec := 60,
        maxLeaseSec := 864000 }
    let p : Packet :=
      { chaddr := Vector.replicate 6 8, messageType := some 1, requestedIp := some 3 }
    let q : Packet :=
      { chaddr := Vector.replicate 6 8, messageType := some 3, requestedIp := some 3 }
    let s : Server := handle cfg (handle cfg (boot cfg 100 none) p []) q []
    s.holds (Vector.replicate 6 8) 3 = true ∧
      ∀ b, s.holds b 3 = true → Vector.replicate 6 8 = b := by
  intro cfg p q s
  have hholds : s.holds (Vector.replicate 6 8) 3 = true := by decide
  have hcfg : StaticDistinct cfg := fun a b ha => absurd rfl ha
  refine ⟨hholds, fun b hb => ?_⟩
  refine lease_exclusive cfg hcfg 100 none [.packet p [], .packet q []] ?_ s
    (List.mem_cons_of_mem _ (List.mem_cons_of_mem _ List.mem_cons_self)) _ b 3 (by decide)
    hholds hb
  decide

end Rustybox.Udhcp
