import Rustybox.Lib.Machine
import Rustybox.Udhcp.Server

/-!
# What one packet can do to the server

`handle_effect` is the only place where the branches of `handle` are taken apart: every
invariant of a run goes through the cases of `Effect`.  The search for a free address is a
loop with effects of its own; `search_rule` carries a property of the server through it, and
`run_rule` through a run.
-/

namespace Rustybox.Udhcp

/-- Nothing in force stands in the way of an address: no slot has it, or one has it that had
expired by some earlier time. -/
def Idle (s : Server) (nip : ℕ) : Prop :=
  findLeaseByNip nip s.leases = none ∨
    ∃ l ∈ s.leases, ∃ t ≤ s.now, l.nip = nip ∧ l.isExpired t = true

/-- The address `send_offer` settles on and the server at that moment. -/
inductive Chosen (cfg : Config) (s : Server) (p : Packet) (answers : List ArpAnswer) :
    Server → ℕ → Prop
  | known {i : ℕ} : findLeaseByMac p.chaddr s.leases = some i →
      Chosen cfg s p answers s (s.slot i).nip
  | requested : findLeaseByMac p.chaddr s.leases = none →
      requestedIsFree cfg s (p.requestedIp.getD 0) = true →
      Chosen cfg s p answers s (p.requestedIp.getD 0)
  | free : findLeaseByMac p.chaddr s.leases = none →
      requestedIsFree cfg s (p.requestedIp.getD 0) = false →
      Chosen cfg s p answers (findFreeOrExpiredNip cfg s answers).2
        (findFreeOrExpiredNip cfg s answers).1

/-- The server after the address has been reserved for the client, and the offer sent if
there was a slot for it. -/
def Server.offer (cfg : Config) (s : Server) (p : Packet) (nip : ℕ) : Server :=
  if (addLease s.now (some p.chaddr) nip cfg.offerTime p.hostName s.leases).1 = none then
    s.add (some p.chaddr) nip cfg.offerTime p.hostName
  else (s.add (some p.chaddr) nip cfg.offerTime p.hostName).note (.offer p.chaddr nip)

/-- What one packet can do. -/
inductive Effect (cfg : Config) (s : Server) (p : Packet) (answers : List ArpAnswer) :
    Server → Prop
  | quiet : Effect cfg s p answers s
  | nak : Effect cfg s p answers (s.note (.nak p.chaddr))
  | inform : Effect cfg s p answers (s.note (.inform p.chaddr))
  | offerStatic : heard cfg p = true → p.messageType = some 1 →
      getStaticNipByMac cfg p.chaddr ≠ 0 →
      Effect cfg s p answers (s.note (.offer p.chaddr (getStaticNipByMac cfg p.chaddr)))
  | noOffer {s₁ : Server} : heard cfg p = true → p.messageType = some 1 →
      getStaticNipByMac cfg p.chaddr = 0 → Chosen cfg s p answers s₁ 0 →
      Effect cfg s p answers s₁
  | offer {s₁ : Server} {nip : ℕ} : heard cfg p = true → p.messageType = some 1 →
      getStaticNipByMac cfg p.chaddr = 0 → Chosen cfg s p answers s₁ nip → nip ≠ 0 →
      Effect cfg s p answers (s₁.offer cfg p nip)
  | ackStatic : heard cfg p = true → p.messageType = some 3 →
      getStaticNipByMac cfg p.chaddr ≠ 0 →
      getStaticNipByMac cfg p.chaddr = p.requestedIp.getD p.ciaddr →
      Effect cfg s p answers (sendAck cfg s p (getStaticNipByMac cfg p.chaddr))
  | ack {i : ℕ} : heard cfg p = true → p.messageType = some 3 →
      getStaticNipByMac cfg p.chaddr = 0 → findLeaseByMac p.chaddr s.leases = some i →
      (s.slot i).nip = p.requestedIp.getD p.ciaddr →
      Effect cfg s p answers (sendAck cfg s p (s.slot i).nip)
  | declineStatic : heard cfg p = true → p.messageType = some 4 →
      getStaticNipByMac cfg p.chaddr ≠ 0 → p.serverId.isSome = true →
      p.requestedIp = some (getStaticNipByMac cfg p.chaddr) →
      Effect cfg s p answers
        (s.note (.decline p.chaddr (getStaticNipByMac cfg p.chaddr) cfg.declineTime))
  | decline {i : ℕ} : heard cfg p = true → p.messageType = some 4 →
      getStaticNipByMac cfg p.chaddr = 0 → findLeaseByMac p.chaddr s.leases = some i →
      p.serverId.isSome = true → p.requestedIp = some (s.slot i).nip →
      Effect cfg s p answers
        ({ s with leases := s.leases.set i { s.slot i with
            mac := zeroMac, expires := leasetime (s.now + cfg.declineTime) } }.note
          (.decline p.chaddr (s.slot i).nip cfg.declineTime))
  | releaseStatic : heard cfg p = true → p.messageType = some 7 →
      getStaticNipByMac cfg p.chaddr ≠ 0 → p.serverId.isSome = true →
      p.ciaddr = getStaticNipByMac cfg p.chaddr →
      Effect cfg s p answers (s.note (.release p.chaddr (getStaticNipByMac cfg p.chaddr)))
  | release {i : ℕ} : heard cfg p = true → p.messageType = some 7 →
      getStaticNipByMac cfg p.chaddr = 0 → findLeaseByMac p.chaddr s.leases = some i →
      p.serverId.isSome = true → p.ciaddr = (s.slot i).nip →
      Effect cfg s p answers
        ({ s with leases := s.leases.set i { s.slot i with expires := leasetime s.now } }.note
          (.release p.chaddr (s.slot i).nip))

section

variable {cfg : Config} {s : Server} {p : Packet} {answers : List ArpAnswer}

theorem leaseNip_some {nip : ℕ} (h : leaseNip cfg s p = some nip) :
    (getStaticNipByMac cfg p.chaddr ≠ 0 ∧ getStaticNipByMac cfg p.chaddr = nip) ∨
      (getStaticNipByMac cfg p.chaddr = 0 ∧
        ∃ i, findLeaseByMac p.chaddr s.leases = some i ∧ (s.slot i).nip = nip) := by
  by_cases hst : getStaticNipByMac cfg p.chaddr = 0
  · simp only [leaseNip, hst, ne_eq, not_true_eq_false, if_false, Option.map_eq_some_iff] at h
    exact Or.inr ⟨hst, h⟩
  · simp only [leaseNip, ne_eq, hst, not_false_eq_true, if_true, Option.some.injEq] at h
    exact Or.inl ⟨hst, h⟩

theorem leaseNip_of_static (h : getStaticNipByMac cfg p.chaddr ≠ 0) :
    leaseNip cfg s p = some (getStaticNipByMac cfg p.chaddr) := if_pos h

theorem leaseNip_of_slot {i : ℕ} (h : getStaticNipByMac cfg p.chaddr = 0)
    (hi : findLeaseByMac p.chaddr s.leases = some i) :
    leaseNip cfg s p = some (s.slot i).nip := by
  rw [leaseNip, if_neg (not_not.mpr h), hi]
  rfl

theorem offerAddress_chosen (cfg : Config) (s : Server) (p : Packet) (answers : List ArpAnswer) :
    Chosen cfg s p answers (offerAddress cfg s p answers).2 (offerAddress cfg s p answers).1 := by
  cases hm : findLeaseByMac p.chaddr s.leases with
  | some i =>
    simp only [offerAddress, hm]
    exact .known hm
  | none =>
    simp only [offerAddress, hm]
    split
    · next hr => exact .requested hm hr
    · next hr => exact .free hm (by simpa using hr)

theorem sendOffer_effect (hh : heard cfg p = true) (ht : p.messageType = some 1) :
    Effect cfg s p answers (sendOffer cfg s p answers) := by
  by_cases hst : getStaticNipByMac cfg p.chaddr = 0
  · have hc := offerAddress_chosen cfg s p answers
    by_cases h0 : (offerAddress cfg s p answers).1 = 0
    · simp only [sendOffer, hst, ne_eq, not_true_eq_false, if_false, h0, if_true]
      exact .noOffer hh ht hst (h0 ▸ hc)
    · have he : sendOffer cfg s p answers =
          (offerAddress cfg s p answers).2.offer cfg p (offerAddress cfg s p answers).1 := by
        simp only [sendOffer, hst, ne_eq, not_true_eq_false, if_false, h0, Server.offer,
          Server.add]
        split
        · next hadd => simp only [hadd, if_true]
        · next hadd => simp only [hadd, reduceCtorEq, if_false]
      rw [he]
      exact .offer hh ht hst hc h0
  · simp only [sendOffer, ne_eq, hst, not_false_eq_true, if_true]
    exact .offerStatic hh ht hst

theorem request_effect (hh : heard cfg p = true) (ht : p.messageType = some 3) :
    Effect cfg s p answers (request cfg s p) := by
  unfold request
  split
  · exact .quiet
  split
  · next hl =>
    rcases leaseNip_some hl with ⟨hst, he⟩ | ⟨hst, i, hi, he⟩
    · rw [← he]
      exact .ackStatic hh ht hst he
    · rw [← he]
      exact .ack hh ht hst hi he
  split
  · exact .nak
  · exact .quiet

theorem updateLease_static {f : Slot → Slot} (h : getStaticNipByMac cfg p.chaddr ≠ 0) :
    s.updateLease cfg p f = s := if_pos h

theorem updateLease_slot {f : Slot → Slot} {i : ℕ} (h : getStaticNipByMac cfg p.chaddr = 0)
    (hi : findLeaseByMac p.chaddr s.leases = some i) :
    s.updateLease cfg p f = { s with leases := s.leases.set i (f (s.slot i)) } := by
  rw [Server.updateLease, if_neg (not_not.mpr h), hi]

theorem decline_effect (hh : heard cfg p = true) (ht : p.messageType = some 4) :
    Effect cfg s p answers (decline cfg s p) := by
  unfold decline
  split
  · exact .quiet
  split
  · next nip hr hl =>
    rcases leaseNip_some hl.2 with ⟨hst, rfl⟩ | ⟨hst, i, hi, rfl⟩
    · rw [updateLease_static hst]
      exact .declineStatic hh ht hst hl.1 hr
    · rw [updateLease_slot hst hi]
      exact .decline hh ht hst hi hl.1 hr
  · exact .quiet

theorem release_effect (hh : heard cfg p = true) (ht : p.messageType = some 7) :
    Effect cfg s p answers (release cfg s p) := by
  unfold release
  split
  · next hl =>
    rcases leaseNip_some hl.2 with ⟨hst, he⟩ | ⟨hst, i, hi, he⟩
    · rw [updateLease_static hst, ← he]
      exact .releaseStatic hh ht hst hl.1 he.symm
    · rw [updateLease_slot hst hi, ← he]
      exact .release hh ht hst hi hl.1 he.symm
  · exact .quiet

/-- **The effects of a packet.** -/
theorem handle_effect (cfg : Config) (s : Server) (p : Packet) (answers : List ArpAnswer) :
    Effect cfg s p answers (handle cfg s p answers) := by
  unfold handle
  split
  · exact .quiet
  · next hh =>
    have hh : heard cfg p = true := by simpa using hh
    split
    · next ht => exact sendOffer_effect hh ht
    · next ht => exact request_effect hh ht
    · next ht => exact decline_effect hh ht
    · next ht => exact release_effect hh ht
    · exact .inform
    · exact .quiet

end

/-! ### Finding slots -/

theorem slot_eq {s : Server} {i : ℕ} {l : Slot} (h : s.leases[i]? = some l) : s.slot i = l := by
  rw [Server.slot, List.getD_eq_getElem?_getD, h, Option.getD_some]

theorem slot_mem {s : Server} {i : ℕ} (h : i < s.leases.length) : s.slot i ∈ s.leases := by
  rw [slot_eq (List.getElem?_eq_getElem h)]
  exact List.getElem_mem h

theorem findLeaseByMac_some {mac : Mac} {leases : List Slot} {i : ℕ}
    (h : findLeaseByMac mac leases = some i) : ∃ l, leases[i]? = some l ∧ l.mac = mac := by
  obtain ⟨hi, hl, -⟩ := List.findIdx?_eq_some_iff_getElem.mp h
  exact ⟨leases[i], List.getElem?_eq_getElem hi, by simpa using hl⟩

theorem findLeaseByNip_some {nip : ℕ} {leases : List Slot} {i : ℕ}
    (h : findLeaseByNip nip leases = some i) : ∃ l, leases[i]? = some l ∧ l.nip = nip := by
  obtain ⟨hi, hl, -⟩ := List.findIdx?_eq_some_iff_getElem.mp h
  exact ⟨leases[i], List.getElem?_eq_getElem hi, by simpa using hl⟩

theorem findLeaseByNip_none {nip : ℕ} {leases : List Slot}
    (h : findLeaseByNip nip leases = none) : ∀ l ∈ leases, l.nip ≠ nip := by
  intro l hl
  simpa using List.findIdx?_eq_none_iff.mp h l hl

theorem findLeaseByMac_none {mac : Mac} {leases : List Slot}
    (h : findLeaseByMac mac leases = none) : ∀ l ∈ leases, l.mac ≠ mac := by
  intro l hl
  simpa using List.findIdx?_eq_none_iff.mp h l hl

theorem idle_of_requestedIsFree {cfg : Config} {s : Server} {nip : ℕ}
    (h : requestedIsFree cfg s nip = true) : Idle s nip := by
  cases hf : findLeaseByNip nip s.leases with
  | none => exact Or.inl hf
  | some j =>
    obtain ⟨l, hl, hn⟩ := findLeaseByNip_some hf
    simp only [requestedIsFree, hf, slot_eq hl, Bool.and_eq_true] at h
    exact Or.inr ⟨l, List.mem_of_getElem? hl, s.now, Nat.le_refl _, hn, h.2⟩

/-! ### The search for a free address -/

/-- The marker for an address that no slot has goes into one slot that is free or expired, and
leaves the others. -/
theorem slot_add_conflict {s : Server} {nip : ℕ} (h : findLeaseByNip nip s.leases = none)
    (sec i : ℕ) : (s.add none nip sec none).slot i = s.slot i ∨
      ((s.add none nip sec none).slot i).nip = nip ∧ (s.slot i).isUsable s.now = true := by
  have hclear : clearLeases none nip s.leases = s.leases := by
    refine (List.map_congr_left fun l hl => ?_).trans (List.map_id _)
    have hne := findLeaseByNip_none h l hl
    rw [if_neg (by simp [Slot.matchesLease, hne])]
    rfl
  rcases addLease_cases s.now none nip sec none s.leases with ⟨k, m, -, hk, hu, he⟩ | ⟨-, he⟩
  · simp only [Server.add, Server.slot, he, hclear, List.getD_eq_getElem?_getD]
    rw [hclear] at hk
    by_cases hik : k = i
    · subst hik
      rw [List.getElem?_set_self (List.getElem?_eq_some_iff.mp hk).1, hk]
      exact Or.inr ⟨rfl, hu⟩
    · rw [List.getElem?_set_ne hik]
      exact Or.inl rfl
  · left
    simp only [Server.add, Server.slot, he, hclear]

section Search

variable {cfg : Config}

/-- The server after an ARP request, with the two answers apart. -/
theorem nobodyRespondsToArp_cases (cfg : Config) (nip : ℕ) (s : Server)
    (answers : List ArpAnswer) :
    let s₁ : Server := { s with now := s.now + (answers.headD ⟨true, 0⟩).seconds }
    ((answers.headD ⟨true, 0⟩).nobody = true ∧
      nobodyRespondsToArp cfg nip s answers = (true, s₁, answers.tail)) ∨
    ((answers.headD ⟨true, 0⟩).nobody = false ∧
      nobodyRespondsToArp cfg nip s answers =
        (false, (s₁.add none nip cfg.conflictTime none).note (.conflict nip cfg.conflictTime),
          answers.tail)) := by
  intro s₁
  cases hn : (answers.headD ⟨true, 0⟩).nobody with
  | true =>
    refine Or.inl ⟨rfl, ?_⟩
    simp only [nobodyRespondsToArp, hn, if_true]
    rfl
  | false =>
    refine Or.inr ⟨rfl, ?_⟩
    simp only [nobodyRespondsToArp, hn, Bool.false_eq_true, if_false]
    rfl

variable {I : Server → List ArpAnswer → Prop}

/-- What holds of the search between two addresses: the property of the server, and that the
oldest lease so far is one for an address that is not reserved. -/
structure SearchOk (cfg : Config) (I : Server → List ArpAnswer → Prop) (st : Search) : Prop where
  server : I st.server st.answers
  oldest : ∀ i, st.oldestLease = some i → i < st.server.leases.length ∧
    (st.server.slot i).nip ≠ 0 ∧ isNipReservedAsStatic cfg (st.server.slot i).nip = false

/-- What an ARP request has to keep for a property to survive the search. -/
def PingKeeps (cfg : Config) (I : Server → List ArpAnswer → Prop) : Prop :=
  ∀ s answers nip, I s answers → isNipReservedAsStatic cfg nip = false → nip ≠ 0 → Idle s nip →
    I (nobodyRespondsToArp cfg nip s answers).2.1 (nobodyRespondsToArp cfg nip s answers).2.2

theorem freeStep_ok (hping : PingKeeps cfg I) (addr : ℕ) {st : Search}
    (h : SearchOk cfg I st) :
    SearchOk cfg I (freeStep cfg addr st).2 ∧
      ∀ nip, (freeStep cfg addr st).1 = some nip → nip ≠ 0 ∧
        isNipReservedAsStatic cfg nip = false ∧ Idle (freeStep cfg addr st).2.server nip := by
  unfold freeStep
  split
  · exact ⟨h, by simp⟩
  split
  · exact ⟨h, by simp⟩
  split
  · exact ⟨h, by simp⟩
  next haddr _ hres =>
  have hres : isNipReservedAsStatic cfg addr = false := by simpa using hres
  have h0 : addr ≠ 0 := by
    rintro rfl
    exact haddr (Or.inl rfl)
  split
  · next hf =>
    have hI := hping st.server st.answers addr h.server hres h0 (Or.inl hf)
    rcases nobodyRespondsToArp_cases cfg addr st.server st.answers with ⟨-, he⟩ | ⟨-, he⟩
    · rw [he] at hI
      simp only [he, if_true, Option.some.injEq]
      refine ⟨⟨hI, h.oldest⟩, ?_⟩
      rintro nip rfl
      exact ⟨h0, hres, Or.inl hf⟩
    · rw [he] at hI
      simp only [he, Bool.false_eq_true, if_false, reduceCtorEq, false_imp_iff, implies_true,
        and_true]
      refine ⟨hI, fun i hi => ?_⟩
      obtain ⟨hlt, hn0, hnr⟩ := h.oldest i hi
      refine ⟨?_, ?_⟩
      · simp only [Server.note, Server.add, length_addLease]
        exact hlt
      -- the marker may have taken the slot of the oldest lease
      · have hs := slot_add_conflict (s := { st.server with
          now := st.server.now + (st.answers.headD ⟨true, 0⟩).seconds }) hf cfg.conflictTime i
        rcases hs with hs | ⟨hs, -⟩
        · exact ⟨fun hz => hn0 ((congrArg Slot.nip hs).symm.trans hz),
            (congrArg (fun l => isNipReservedAsStatic cfg l.nip) hs).trans hnr⟩
        · exact ⟨fun hz => h0 (hs.symm.trans hz),
            (congrArg (isNipReservedAsStatic cfg) hs).trans hres⟩
  · next i hf =>
    obtain ⟨l, hl, hn⟩ := findLeaseByNip_some hf
    refine ⟨⟨h.server, fun j hj => ?_⟩, by simp⟩
    dsimp only at hj
    split at hj
    · rw [Option.some.injEq] at hj
      subst hj
      show _ ∧ (st.server.slot i).nip ≠ 0 ∧ _
      rw [slot_eq hl, hn]
      exact ⟨(List.getElem?_eq_some_iff.mp hl).1, h0, hres⟩
    · exact h.oldest j hj

theorem freeLoop_ok (hping : PingKeeps cfg I) (l : List ℕ) {st : Search}
    (h : SearchOk cfg I st) :
    SearchOk cfg I (freeLoop cfg l st).2 ∧
      ∀ nip, (freeLoop cfg l st).1 = some nip → nip ≠ 0 ∧
        isNipReservedAsStatic cfg nip = false ∧ Idle (freeLoop cfg l st).2.server nip := by
  induction l generalizing st with
  | nil => exact ⟨h, by simp [freeLoop]⟩
  | cons addr l ih =>
    obtain ⟨h1, h2⟩ := freeStep_ok hping addr h
    rw [freeLoop]
    split
    · next nip st' he =>
      rw [he] at h1 h2
      exact ⟨h1, h2⟩
    · next st' he =>
      rw [he] at h1
      exact ih h1

/-- **The search for a free address** keeps what every ARP request keeps, and the address it
finds is neither reserved nor in force. -/
theorem search_rule (hping : PingKeeps cfg I) (s : Server) (answers : List ArpAnswer)
    (h : I s answers) :
    (∃ rest, I (findFreeOrExpiredNip cfg s answers).2 rest) ∧
      ((findFreeOrExpiredNip cfg s answers).1 ≠ 0 →
        isNipReservedAsStatic cfg (findFreeOrExpiredNip cfg s answers).1 = false ∧
        Idle (findFreeOrExpiredNip cfg s answers).2 (findFreeOrExpiredNip cfg s answers).1) := by
  have hst : SearchOk cfg I ⟨s, answers, none⟩ := ⟨h, by simp⟩
  obtain ⟨h1, h2⟩ := freeLoop_ok hping (addrs cfg) hst
  unfold findFreeOrExpiredNip
  split
  · next nip st he =>
    rw [he] at h1 h2
    exact ⟨⟨_, h1.server⟩, fun _ => (h2 nip rfl).2⟩
  · next st he =>
    rw [he] at h1
    split
    · exact ⟨⟨_, h1.server⟩, fun h => absurd rfl h⟩
    · next i hi =>
      obtain ⟨hlt, hn0, hnr⟩ := h1.oldest i hi
      split
      · next hexp =>
        have hidle : Idle st.server (st.server.slot i).nip :=
          Or.inr ⟨st.server.slot i, slot_mem hlt, st.server.now, Nat.le_refl _, rfl, hexp⟩
        have hI := hping _ st.answers _ h1.server hnr hn0 hidle
        rcases nobodyRespondsToArp_cases cfg (st.server.slot i).nip st.server st.answers with
          ⟨-, hp⟩ | ⟨-, hp⟩
        · rw [hp] at hI
          simp only [hp, if_true]
          refine ⟨⟨_, hI⟩, fun _ => ⟨hnr, Or.inr ⟨st.server.slot i, slot_mem hlt,
            st.server.now, Nat.le_add_right _ _, rfl, hexp⟩⟩⟩
        · rw [hp] at hI
          simp only [hp, Bool.false_eq_true, if_false, ne_eq, not_true_eq_false, false_imp_iff,
            and_true]
          exact ⟨_, hI⟩
      · exact ⟨⟨_, h1.server⟩, fun h => absurd rfl h⟩

end Search

/-! ### Runs -/

/-- **The rule for runs.**  A property that ticks and good packets keep holds in every state
of a run of good moves. -/
theorem run_rule {cfg : Config} {I : Server → Prop} {G : Server → Label → Prop}
    (htick : ∀ s d, I s → I { s with now := s.now + d })
    (heffect : ∀ s p answers s', Effect cfg s p answers s' → G s (.packet p answers) → I s → I s')
    {s : Server} (hs : I s) (labels : List Label)
    (hG : ∀ m ∈ Machine.moves (step cfg) s labels, G m.1 m.2) :
    ∀ t ∈ Machine.states (step cfg) s labels, I t := by
  refine Machine.states_of_moves ?_ labels s hs hG
  intro s l s' hstep hl h
  cases l with
  | tick d =>
    simp only [step, Option.some.injEq] at hstep
    exact hstep ▸ htick s d h
  | packet p answers =>
    simp only [step, Option.some.injEq] at hstep
    exact heffect s p answers s' (hstep ▸ handle_effect cfg s p answers) hl h

end Rustybox.Udhcp
