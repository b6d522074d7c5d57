import Rustybox.Udhcp.Effects
import Rustybox.Udhcp.LeaseFile

/-!
# The lease table holds no address and no client twice

`Unique` is the invariant of the table: two slots never have one address, and never one MAC
but the zero MAC.  It comes out of the reading of any lease file and survives every packet.
-/

namespace Rustybox.Udhcp

open Distinct Rustybox.Rust

/-- No address and no client stands in two slots. -/
structure Unique (leases : List Slot) : Prop where
  nip : But 0 (leases.map Slot.nip)
  mac : But zeroMac (leases.map Slot.mac)

theorem Unique.replicate_empty (n : ℕ) : Unique (List.replicate n Slot.empty) where
  nip := by
    rw [List.map_replicate]
    exact But.replicate _ n
  mac := by
    rw [List.map_replicate]
    exact But.replicate _ n

theorem Unique.eq_of_nip_eq {leases : List Slot} (h : Unique leases) {a b : Slot}
    (ha : a ∈ leases) (hb : b ∈ leases) (hab : a.nip = b.nip) (h0 : a.nip ≠ 0) : a = b := by
  obtain ⟨i, hi⟩ := List.getElem?_of_mem ha
  obtain ⟨j, hj⟩ := List.getElem?_of_mem hb
  have hij : i = j := h.nip.place_eq (a := a.nip) (by rw [List.getElem?_map, hi]; rfl)
    (by rw [List.getElem?_map, hj, hab]; rfl) h0
  rw [hij, hj, Option.some.injEq] at hi
  exact hi.symm

theorem Unique.eq_of_mac_eq {leases : List Slot} (h : Unique leases) {a b : Slot}
    (ha : a ∈ leases) (hb : b ∈ leases) (hab : a.mac = b.mac) (h0 : a.mac ≠ zeroMac) : a = b := by
  obtain ⟨i, hi⟩ := List.getElem?_of_mem ha
  obtain ⟨j, hj⟩ := List.getElem?_of_mem hb
  have hij : i = j := h.mac.place_eq (a := a.mac) (by rw [List.getElem?_map, hi]; rfl)
    (by rw [List.getElem?_map, hj, hab]; rfl) h0
  rw [hij, hj, Option.some.injEq] at hi
  exact hi.symm

theorem Unique.clearLeases {leases : List Slot} (h : Unique leases) (chaddr : Option Mac)
    (yiaddr : ℕ) : Unique (clearLeases chaddr yiaddr leases) := by
  refine ⟨?_, ?_⟩
  · rw [Udhcp.clearLeases, List.map_map]
    refine h.nip.map_of_eq_or fun l _ => ?_
    by_cases hm : l.matchesLease chaddr yiaddr = true
    · exact Or.inr (by simp only [Function.comp_apply, hm, if_true]; rfl)
    · exact Or.inl (by simp only [Function.comp_apply, hm]; rfl)
  · rw [Udhcp.clearLeases, List.map_map]
    refine h.mac.map_of_eq_or fun l _ => ?_
    by_cases hm : l.matchesLease chaddr yiaddr = true
    · exact Or.inr (by simp only [Function.comp_apply, hm, if_true]; rfl)
    · exact Or.inl (by simp only [Function.comp_apply, hm]; rfl)

theorem Unique.addLease {leases : List Slot} (h : Unique leases) (now : ℕ) (chaddr : Option Mac)
    (yiaddr lt : ℕ) (hostname : Option (List UInt8)) :
    Unique (addLease now chaddr yiaddr lt hostname leases).2 := by
  have hc := h.clearLeases chaddr yiaddr
  rcases addLease_cases now chaddr yiaddr lt hostname leases with ⟨i, m, -, -, -, he⟩ | ⟨-, he⟩
  · rw [he]
    refine ⟨?_, ?_⟩
    · rw [List.map_set]
      refine hc.nip.set fun j a _ ha hax => ?_
      rw [List.getElem?_map, Option.map_eq_some_iff] at ha
      obtain ⟨l, hl, rfl⟩ := ha
      show yiaddr = 0
      have hax : l.nip = yiaddr := hax
      rcases mem_clearLeases (List.mem_of_getElem? hl) with rfl | ⟨-, hm⟩
      · exact hax.symm
      · simp only [Slot.matchesLease, hax, Bool.or_eq_false_iff] at hm
        simpa using hm.2
    · rw [List.map_set]
      refine hc.mac.set fun j a _ ha hax => ?_
      rw [List.getElem?_map, Option.map_eq_some_iff] at ha
      obtain ⟨l, hl, rfl⟩ := ha
      show chaddr.getD zeroMac = zeroMac
      have hax : l.mac = chaddr.getD zeroMac := hax
      cases chaddr with
      | none => rfl
      | some mac =>
        rcases mem_clearLeases (List.mem_of_getElem? hl) with rfl | ⟨-, hm⟩
        · exact hax.symm
        · rw [Option.getD_some] at hax
          simp [Slot.matchesLease, hax] at hm
  · rw [he]
    exact hc

theorem Unique.set {leases : List Slot} (h : Unique leases) {i : ℕ} {l l' : Slot}
    (hl : leases[i]? = some l) (hnip : l'.nip = l.nip) (hmac : l'.mac = l.mac ∨ l'.mac = zeroMac) :
    Unique (leases.set i l') := by
  have hi := (List.getElem?_eq_some_iff.mp hl).1
  refine ⟨?_, ?_⟩
  · have hsame : (leases.map Slot.nip).set i l'.nip = leases.map Slot.nip := by
      refine List.ext_getElem? fun j => ?_
      by_cases hij : i = j
      · subst hij
        rw [List.getElem?_set_self (by rwa [List.length_map]), List.getElem?_map, hl, hnip]
        rfl
      · rw [List.getElem?_set_ne hij]
    rw [List.map_set, hsame]
    exact h.nip
  · rw [List.map_set]
    rcases hmac with hmac | hmac
    · refine h.mac.set fun j a hj ha hax => ?_
      by_contra h0
      rw [hax, hmac] at ha
      rw [hmac] at h0
      exact hj (h.mac.place_eq ha (by rw [List.getElem?_map, hl]; rfl) h0)
    · rw [hmac]
      exact h.mac.set_self i

theorem pingKeeps_unique (cfg : Config) : PingKeeps cfg (fun s _ => Unique s.leases) := by
  intro s answers nip h _ _ _
  rcases nobodyRespondsToArp_cases cfg nip s answers with ⟨-, he⟩ | ⟨-, he⟩
  · rw [he]
    exact h
  · rw [he]
    exact h.addLease _ none nip cfg.conflictTime none

theorem Chosen.unique {cfg : Config} {s s₁ : Server} {p : Packet} {answers : List ArpAnswer}
    {nip : ℕ} (hc : Chosen cfg s p answers s₁ nip) (h : Unique s.leases) : Unique s₁.leases := by
  cases hc with
  | known => exact h
  | requested => exact h
  | free => exact (search_rule (pingKeeps_unique cfg) s answers h).1.choose_spec

theorem Unique.offer {s : Server} (h : Unique s.leases) (cfg : Config) (p : Packet) (nip : ℕ) :
    Unique (s.offer cfg p nip).leases := by
  unfold Server.offer
  split
  · exact h.addLease _ _ _ _ _
  · exact h.addLease _ _ _ _ _

/-- Every packet keeps the table free of repetitions. -/
theorem Effect.unique {cfg : Config} {s s' : Server} {p : Packet} {answers : List ArpAnswer}
    (he : Effect cfg s p answers s') (h : Unique s.leases) : Unique s'.leases := by
  cases he with
  | quiet | nak | inform | offerStatic | declineStatic | releaseStatic => exact h
  | noOffer _ _ _ hc => exact hc.unique h
  | offer _ _ _ hc _ => exact (hc.unique h).offer cfg p _
  | ackStatic | ack => exact h.addLease _ _ _ _ _
  | decline _ _ _ hi =>
    obtain ⟨l, hl, -⟩ := findLeaseByMac_some hi
    exact h.set hl (by rw [slot_eq hl]) (Or.inr rfl)
  | release _ _ _ hi =>
    obtain ⟨l, hl, -⟩ := findLeaseByMac_some hi
    exact h.set hl (by rw [slot_eq hl]) (Or.inl (by rw [slot_eq hl]))

theorem unique_readLoop (cfg : Config) (now timePassed : ℕ) (file : List FileLease)
    {leases : List Slot} (h : Unique leases) :
    Unique (readLoop cfg now timePassed file leases) := by
  induction file generalizing leases with
  | nil => exact h
  | cons l file ih =>
    have hadd := h.addLease now (some l.mac) l.nip (secondsLeft timePassed l) (some l.hostname)
    rw [readLoop]
    split
    · exact ih h
    split
    · exact ih h
    split
    · exact ih h
    split
    · next he =>
      rw [he] at hadd
      exact hadd
    · next he =>
      rw [he] at hadd
      exact ih hadd

theorem unique_readLeases (cfg : Config) (now : ℕ) (file : Option LeaseFile) :
    Unique (readLeases cfg now file) := by
  have h := Unique.replicate_empty (tableSize cfg)
  unfold readLeases
  split
  · exact h
  · dsimp only
    split
    · exact h
    · exact unique_readLoop cfg _ _ _ h

/-- **No repetitions, in every state of every run.** -/
theorem unique_states (cfg : Config) (now : ℕ) (file : Option LeaseFile) (labels : List Label)
    {s : Server} (hs : s ∈ Machine.states (step cfg) (boot cfg now file) labels) :
    Unique s.leases := by
  refine run_rule (I := fun s => Unique s.leases) (G := fun _ _ => True) (fun _ _ h => h)
    (fun _ _ _ _ he _ h => he.unique h) (unique_readLeases cfg now file) labels
    (fun _ _ => trivial) s hs

/-! ### The address of an offer -/

/-- The search for a free address makes slots with the zero MAC only. -/
theorem pingKeeps_no_slot (cfg : Config) {mac : Mac} (hz : mac ≠ zeroMac) :
    PingKeeps cfg (fun s _ => ∀ l ∈ s.leases, l.mac ≠ mac) := by
  intro s answers nip h _ _ _
  rcases nobodyRespondsToArp_cases cfg nip s answers with ⟨-, he⟩ | ⟨-, he⟩
  · rw [he]
    exact h
  · rw [he]
    intro l hl
    rcases mem_addLease hl with rfl | rfl | ⟨hl, -⟩
    · exact hz.symm
    · exact hz.symm
    · exact h l hl

/-- An offer is for the address the client has, or for one nobody has a lease for. -/
theorem Chosen.known_or_idle {cfg : Config} {s s₁ : Server} {p : Packet}
    {answers : List ArpAnswer} {nip : ℕ} (hc : Chosen cfg s p answers s₁ nip) (h0 : nip ≠ 0) :
    (s₁ = s ∧ ∃ l ∈ s.leases, l.mac = p.chaddr ∧ l.nip = nip) ∨
      (Idle s₁ nip ∧ (p.chaddr ≠ zeroMac → ∀ l ∈ s₁.leases, l.mac ≠ p.chaddr)) := by
  cases hc with
  | known hi =>
    obtain ⟨l, hl, hmac⟩ := findLeaseByMac_some hi
    exact Or.inl ⟨rfl, l, List.mem_of_getElem? hl, hmac, by rw [slot_eq hl]⟩
  | requested hm hr => exact Or.inr ⟨idle_of_requestedIsFree hr, fun _ => findLeaseByMac_none hm⟩
  | free hm =>
    have hkeep : PingKeeps cfg (fun _ _ => True) := fun _ _ _ _ _ _ _ => trivial
    refine Or.inr ⟨((search_rule hkeep s answers trivial).2 h0).2, fun hz => ?_⟩
    exact (search_rule (pingKeeps_no_slot cfg hz) s answers (findLeaseByMac_none hm)).1.choose_spec

/-! ### Addresses in force -/

/-- The table keeps an address for a MAC until `u`. -/
def Keeps (leases : List Slot) (mac : Mac) (nip u : ℕ) : Prop :=
  ∃ l ∈ leases, l.mac = mac ∧ l.nip = nip ∧ u ≤ l.expires

theorem not_matchesLease {chaddr : Option Mac} {yiaddr : ℕ} {l : Slot}
    (hmac : chaddr ≠ some l.mac) (hnip : yiaddr ≠ l.nip) :
    l.matchesLease chaddr yiaddr = false := by
  simp only [Slot.matchesLease, hmac, decide_false, Bool.false_or, Bool.and_eq_false_iff,
    decide_eq_false_iff_not]
  exact Or.inr (Ne.symm hnip)

section Keeps

variable {leases : List Slot} {mac : Mac} {nip u now : ℕ}

theorem Keeps.addLease (h : Keeps leases mac nip u) (hnow : now < u) (hu : u < 2 ^ 32)
    {chaddr : Option Mac} {yiaddr : ℕ} (hmac : chaddr ≠ some mac) (hnip : yiaddr ≠ nip) (lt : ℕ)
    (hostname : Option (List UInt8)) :
    Keeps (addLease now chaddr yiaddr lt hostname leases).2 mac nip u := by
  obtain ⟨l, hl, rfl, rfl, hlu⟩ := h
  have hlive : l.isUsable now = false := by
    rw [isUsable_eq_false_iff, leasetime, Nat.mod_eq_of_lt (by omega)]
    omega
  exact ⟨l, mem_addLease_of_live hl (not_matchesLease hmac hnip) hlive, rfl, rfl, hlu⟩

theorem keeps_renew {l : Slot} (hl : l ∈ leases) (hmac : l.mac = mac) {lt : ℕ}
    (hlt : u ≤ leasetime (now + lt)) (hostname : Option (List UInt8)) :
    Keeps (Udhcp.addLease now (some mac) nip lt hostname leases).2 mac nip u := by
  have hm : l.matchesLease (some mac) nip = true := by simp [Slot.matchesLease, hmac]
  obtain ⟨i, hi⟩ : ∃ i, (Udhcp.addLease now (some mac) nip lt hostname leases).1 = some i :=
    addLease_isSome hl (Or.inl hm)
  exact ⟨_, newSlot_mem_addLease hi, rfl, rfl, hlt⟩

theorem Keeps.set (h : Keeps leases mac nip u) {i : ℕ} {l : Slot} (hl : leases[i]? = some l)
    (hne : l.mac ≠ mac) (l' : Slot) : Keeps (leases.set i l') mac nip u := by
  obtain ⟨m, hm, hmac, hnip, hmu⟩ := h
  obtain ⟨j, hj⟩ := List.getElem?_of_mem hm
  have hij : i ≠ j := by
    rintro rfl
    rw [hl, Option.some.injEq] at hj
    exact hne (hj ▸ hmac)
  refine ⟨m, List.mem_of_getElem? (i := j) ?_, hmac, hnip, hmu⟩
  rw [List.getElem?_set_ne hij, hj]

theorem Keeps.mac_eq (h : Keeps leases mac nip u) (hu : Unique leases) (h0 : nip ≠ 0) {l : Slot}
    (hl : l ∈ leases) (hnip : l.nip = nip) : l.mac = mac := by
  obtain ⟨m, hm, hmac, hmnip, -⟩ := h
  rw [hu.eq_of_nip_eq hl hm (hnip.trans hmnip.symm) (hnip ▸ h0), hmac]

theorem Keeps.nip_eq (h : Keeps leases mac nip u) (hu : Unique leases) (h0 : mac ≠ zeroMac)
    {l : Slot} (hl : l ∈ leases) (hmac : l.mac = mac) : l.nip = nip ∧ u ≤ l.expires := by
  obtain ⟨m, hm, hmmac, hmnip, hmu⟩ := h
  rw [hu.eq_of_mac_eq hl hm (hmac.trans hmmac.symm) (hmac ▸ h0)]
  exact ⟨hmnip, hmu⟩

theorem Keeps.ne_of_idle {s : Server} {x : ℕ} (h : Keeps s.leases mac nip u) (hx : Idle s x)
    (hu : Unique s.leases) (hnow : s.now < u) (h32 : u < 2 ^ 32) (h0 : nip ≠ 0) : x ≠ nip := by
  rintro rfl
  obtain ⟨m, hm, -, hmnip, hmu⟩ := h
  rcases hx with hx | ⟨l, hl, t, ht, hlnip, hexp⟩
  · exact findLeaseByNip_none hx m hm hmnip
  · rw [hu.eq_of_nip_eq hl hm (hlnip.trans hmnip.symm) (hlnip ▸ h0), isExpired_iff, leasetime,
      Nat.mod_eq_of_lt (by omega)] at hexp
    omega

end Keeps

/-! ### What `add_lease` leaves alone -/

/-- Slot by slot: a slot that is filled was free or expired, the others are cleared or left. -/
theorem getElem?_addLease {now : ℕ} {chaddr : Option Mac} {yiaddr lt : ℕ}
    {hostname : Option (List UInt8)} {leases : List Slot} {i : ℕ} {l : Slot}
    (hl : leases[i]? = some l)
    (hne : (addLease now chaddr yiaddr lt hostname leases).1 ≠ some i) :
    (addLease now chaddr yiaddr lt hostname leases).2[i]? =
      some (if l.matchesLease chaddr yiaddr then Slot.empty else l) := by
  have hc : (clearLeases chaddr yiaddr leases)[i]? =
      some (if l.matchesLease chaddr yiaddr then Slot.empty else l) := by
    rw [getElem?_clearLeases, hl]
    rfl
  rcases addLease_cases now chaddr yiaddr lt hostname leases with ⟨k, m, -, -, -, he⟩ | ⟨-, he⟩
  · rw [he] at hne ⊢
    rw [List.getElem?_set_ne (fun h => hne (congrArg some h)), hc]
  · rw [he]
    exact hc

/-- The slot that is filled was free, expired or to be cleared. -/
theorem usable_of_addLease_some {now : ℕ} {chaddr : Option Mac} {yiaddr lt : ℕ}
    {hostname : Option (List UInt8)} {leases : List Slot} {i : ℕ} {l : Slot}
    (hl : leases[i]? = some l)
    (h : (addLease now chaddr yiaddr lt hostname leases).1 = some i) :
    l.matchesLease chaddr yiaddr = true ∨ l.isUsable now = true := by
  rcases addLease_cases now chaddr yiaddr lt hostname leases with ⟨k, m, -, hk, hu, he⟩ | ⟨-, he⟩
  · rw [he, Option.some.injEq] at h
    subst h
    rw [getElem?_clearLeases, hl, Option.map_some, Option.some.injEq] at hk
    by_cases hm : l.matchesLease chaddr yiaddr = true
    · exact Or.inl hm
    · rw [if_neg hm] at hk
      exact Or.inr (hk ▸ hu)
  · rw [he] at h
    cases h

/-- **The lease table.**  In every state of every run, from any lease file, no two slots share
an address or a MAC, and `add_lease` touches no lease in force but the ones with the MAC or the
address it is called with; when it finds no slot it has only cleared some of these. -/
theorem lease_table_invariant (cfg : Config) (now : ℕ) (file : Option LeaseFile)
    (labels : List Label) :
    ∀ s ∈ Machine.states (step cfg) (boot cfg now file) labels,
      (∀ (i j : ℕ) (a b : Slot), i ≠ j → s.leases[i]? = some a → s.leases[j]? = some b →
        (a.nip ≠ 0 → b.nip ≠ 0 → a.nip ≠ b.nip) ∧
        (a.mac ≠ zeroMac → b.mac ≠ zeroMac → a.mac ≠ b.mac)) ∧
      (1 ≤ s.now → s.now < 2 ^ 32 →
        ∀ (chaddr : Option Mac) (yiaddr lt : ℕ) (hostname : Option (List UInt8)) (i : ℕ) (l : Slot),
        s.leases[i]? = some l →
        (l.isExpired s.now = false → chaddr ≠ some l.mac → yiaddr ≠ l.nip →
          (addLease s.now chaddr yiaddr lt hostname s.leases).2[i]? = some l) ∧
        ((addLease s.now chaddr yiaddr lt hostname s.leases).1 = none →
          (addLease s.now chaddr yiaddr lt hostname s.leases).2[i]? = some l ∨
          (addLease s.now chaddr yiaddr lt hostname s.leases).2[i]? = some Slot.empty ∧
            (chaddr = some l.mac ∨ yiaddr = l.nip))) := by
  intro s hs
  have hu := unique_states cfg now file labels hs
  refine ⟨fun i j a b hij ha hb => ⟨fun h0 _ he => ?_, fun h0 _ he => ?_⟩, ?_⟩
  · exact hij (hu.nip.place_eq (a := a.nip) (by rw [List.getElem?_map, ha]; rfl)
      (by rw [List.getElem?_map, hb, he]; rfl) h0)
  · exact hij (hu.mac.place_eq (a := a.mac) (by rw [List.getElem?_map, ha]; rfl)
      (by rw [List.getElem?_map, hb, he]; rfl) h0)
  intro h1 h2 chaddr yiaddr lt hostname i l hl
  refine ⟨fun hexp hmac hnip => ?_, fun hnone => ?_⟩
  · have hm := not_matchesLease hmac hnip
    -- a slot with `expires` zero has expired too, since the clock is past zero
    have hnu : l.isUsable s.now = false := by
      rw [isExpired_eq_false_iff, leasetime] at hexp
      rw [isUsable_eq_false_iff, leasetime]
      omega
    have hne : (addLease s.now chaddr yiaddr lt hostname s.leases).1 ≠ some i := by
      intro h
      rcases usable_of_addLease_some hl h with h | h
      · rw [hm] at h
        cases h
      · rw [hnu] at h
        cases h
    rw [getElem?_addLease hl hne, hm]
    rfl
  · have hne : (addLease s.now chaddr yiaddr lt hostname s.leases).1 ≠ some i := by
      rw [hnone]
      exact (Option.some_ne_none i).symm
    have he := getElem?_addLease hl hne
    by_cases hm : l.matchesLease chaddr yiaddr = true
    · refine Or.inr ⟨by rw [he, if_pos hm], ?_⟩
      simp only [Slot.matchesLease, Bool.or_eq_true, Bool.and_eq_true, decide_eq_true_eq] at hm
      rcases hm with hm | ⟨-, hm⟩
      · exact Or.inl hm
      · exact Or.inr hm.symm
    · exact Or.inl (by rw [he, if_neg hm])

/-- A lease read from the file and in force survives a lease for another client. -/
theorem lease_table_invariant_one_lease :
    let cfg : Config :=
      { startIp := 1, endIp := 2, serverNip := 9, staticLeases := [], maxLeases := 2,
        offerTime := 60, declineTime := 3600, conflictTime := 3600, minLeaseSec := 60,
        maxLeaseSec := 864000 }
    let file : LeaseFile :=
      ⟨swapBytes 8 100, [⟨swapBytes 4 50, 1, Vector.replicate 6 7, []⟩]⟩
    let s := boot cfg 100 (some file)
    (addLease 100 (some (Vector.replicate 6 8)) 2 60 none s.leases).2[1]? =
      some ⟨150, 1, Vector.replicate 6 7, Hostname.empty⟩ := by
  intro cfg file s
  have hl : s.leases[1]? = some ⟨150, 1, Vector.replicate 6 7, Hostname.empty⟩ := by decide
  exact (((lease_table_invariant cfg 100 (some file) [] s (Machine.self_mem_states _ _ _)).2
    (by decide) (by decide) (some (Vector.replicate 6 8)) 2 60 none 1 _ hl).1 (by decide)
    (by decide)
    (by decide))

end Rustybox.Udhcp
