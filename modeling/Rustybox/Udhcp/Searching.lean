import Rustybox.Udhcp.Unique

/-!
# What the search for a free address finds

`find_free_or_expired_nip` goes over the range.  An address without a lease is found if nobody
answers the ARP request for it; of the addresses with a lease it notes the one that expires first,
and tries that one in the end, if it has expired.

Each answer to an ARP request puts a marker into the table, which may take the slot that has been
noted.  `Noted` is what holds between two addresses: for every address so far somebody has
answered, or the lease that has been noted is at least as old as its own, or the slot of a lease
like that has been taken by a marker.
-/

namespace Rustybox.Udhcp

open Distinct

/-! ### The range -/

section Config

variable (cfg : Config)

/-- The loop does not look at the address: it ends in `.0` or `.255`, is the server's own, or is
reserved. -/
def Skips (addr : ℕ) : Prop :=
  (addr % 256 = 0 ∨ addr % 256 = 255) ∨ addr = cfg.serverNip ∨
    isNipReservedAsStatic cfg addr = true

/-- An address that may be given away, as far as it does not depend on leases. -/
structure Candidate (nip : ℕ) : Prop where
  start_le : cfg.startIp ≤ nip
  le_end : nip ≤ cfg.endIp
  not_skips : ¬ Skips cfg nip

variable {cfg}

theorem Candidate.ne_zero {nip : ℕ} (h : Candidate cfg nip) : nip ≠ 0 := by
  intro h0
  exact h.not_skips (Or.inl (Or.inl (by rw [h0])))

theorem addrs_eq (hle : cfg.startIp ≤ cfg.endIp) (hend : cfg.endIp < 2 ^ 32) :
    addrs cfg = List.range' cfg.startIp (cfg.endIp + 1 - cfg.startIp) := by
  have hcount : (if (cfg.endIp + 1 + (2 ^ 32 - cfg.startIp % 2 ^ 32)) % 2 ^ 32 = 0 then 2 ^ 32
      else (cfg.endIp + 1 + (2 ^ 32 - cfg.startIp % 2 ^ 32)) % 2 ^ 32) =
      cfg.endIp + 1 - cfg.startIp := by
    split <;> omega
  rw [addrs, hcount, List.range'_eq_map_range]
  refine List.map_congr_left fun k hk => ?_
  have hk := List.mem_range.mp hk
  exact Nat.mod_eq_of_lt (by omega)

theorem mem_addrs (hle : cfg.startIp ≤ cfg.endIp) (hend : cfg.endIp < 2 ^ 32) {nip : ℕ} :
    nip ∈ addrs cfg ↔ cfg.startIp ≤ nip ∧ nip ≤ cfg.endIp := by
  rw [addrs_eq hle hend, List.mem_range'_1]
  omega

theorem nodup_addrs (hle : cfg.startIp ≤ cfg.endIp) (hend : cfg.endIp < 2 ^ 32) :
    (addrs cfg).Nodup := by
  rw [addrs_eq hle hend]
  exact List.nodup_range'

/-! ### One address -/

theorem freeStep_of_skips {addr : ℕ} (h : Skips cfg addr) (st : Search) :
    freeStep cfg addr st = (none, st) := by
  rw [freeStep]
  by_cases h1 : addr % 256 = 0 ∨ addr % 256 = 255
  · rw [if_pos h1]
  · rw [if_neg h1]
    by_cases h2 : addr = cfg.serverNip
    · rw [if_pos h2]
    · rw [if_neg h2, if_pos ((h.resolve_left h1).resolve_left h2)]

theorem freeStep_eq {addr : ℕ} (h : ¬ Skips cfg addr) (st : Search) : freeStep cfg addr st =
    match findLeaseByNip addr st.server.leases with
    | none =>
      let r := nobodyRespondsToArp cfg addr st.server st.answers
      (if r.1 then some addr else none, { st with server := r.2.1, answers := r.2.2 })
    | some i =>
      (none, { st with oldestLease := if st.older i then some i else st.oldestLease }) := by
  have h1 : ¬ (addr % 256 = 0 ∨ addr % 256 = 255) := fun h1 => h (Or.inl h1)
  have h2 : ¬ addr = cfg.serverNip := fun h2 => h (Or.inr (Or.inl h2))
  have h3 : ¬ isNipReservedAsStatic cfg addr := fun h3 => h (Or.inr (Or.inr h3))
  exact (if_neg h1).trans ((if_neg h2).trans (if_neg h3))

/-! ### The answers -/

/-- The answers to the ARP requests of the search from the address `addr` on, in their order, where
`arp` says what is answered to a request for an address. -/
def searchAnswers (cfg : Config) (arp : ℕ → ArpAnswer) : List ℕ → Search → List ArpAnswer
  | [], st =>
    match st.oldestLease with
    | none => []
    | some i => [arp (st.server.slot i).nip]
  | addr :: addrs, st =>
    match freeStep cfg addr { st with answers := [arp addr] } with
    | (some _, _) => [arp addr]
    | (none, st') =>
      (if st'.answers = [] then [arp addr] else []) ++ searchAnswers cfg arp addrs st'

/-- The answers to the ARP requests of a whole search. -/
def arpAnswers (cfg : Config) (arp : ℕ → ArpAnswer) (s : Server) : List ArpAnswer :=
  searchAnswers cfg arp (addrs cfg) ⟨s, [], none⟩

/-- The server when the loop over the addresses is done. -/
def afterLoop (cfg : Config) (arp : ℕ → ArpAnswer) (s : Server) : Server :=
  (freeLoop cfg (addrs cfg) ⟨s, arpAnswers cfg arp s, none⟩).2.server

theorem searchAnswers_congr (arp : ℕ → ArpAnswer) (addrs : List ℕ) (st : Search)
    (answers : List ArpAnswer) :
    searchAnswers cfg arp addrs { st with answers } = searchAnswers cfg arp addrs st := by
  cases addrs <;> rfl

/-- The search after an answer that took `seconds`. -/
def Search.wait (st : Search) (seconds : ℕ) : Search :=
  { st with server := { st.server with now := st.server.now + seconds } }

/-- The search after a marker for the address has gone into the table. -/
def Search.mark (cfg : Config) (st : Search) (nip : ℕ) : Search :=
  { st with server :=
      (st.server.add none nip cfg.conflictTime none).note (.conflict nip cfg.conflictTime) }

/-- The search after a lease has been compared with the one that is noted. -/
def Search.compare (st : Search) (i : ℕ) : Search :=
  { st with oldestLease := if st.older i then some i else st.oldestLease }

/-- **A turn of the loop**, with what is left of the answers. -/
inductive Turns (cfg : Config) (arp : ℕ → ArpAnswer) (addr : ℕ) (st : Search) :
    Option ℕ × Search → List ArpAnswer → Prop
  | skipped (h : Skips cfg addr) : Turns cfg arp addr st (none, st) []
  | free (h : ¬ Skips cfg addr) (hf : findLeaseByNip addr st.server.leases = none)
      (hno : (arp addr).nobody = true) :
      Turns cfg arp addr st (some addr, st.wait (arp addr).seconds) [arp addr]
  | taken (h : ¬ Skips cfg addr) (hf : findLeaseByNip addr st.server.leases = none)
      (hno : (arp addr).nobody = false) :
      Turns cfg arp addr st (none, (st.wait (arp addr).seconds).mark cfg addr) [arp addr]
  | leased (h : ¬ Skips cfg addr) {i : ℕ} (hf : findLeaseByNip addr st.server.leases = some i) :
      Turns cfg arp addr st (none, st.compare i) []

/-- **One turn** of the loop, whatever answers come after its own. -/
theorem freeStep_turns (arp : ℕ → ArpAnswer) (addr : ℕ) (st : Search) :
    ∃ r used, Turns cfg arp addr st r used ∧ (used = [] ∨ used = [arp addr]) ∧
      ∀ rest, freeStep cfg addr { st with answers := used ++ rest } =
        (r.1, { r.2 with answers := rest }) := by
  by_cases h : Skips cfg addr
  · exact ⟨_, _, .skipped h, Or.inl rfl, fun rest => freeStep_of_skips h _⟩
  · cases hf : findLeaseByNip addr st.server.leases with
    | some i =>
      refine ⟨_, _, .leased h hf, Or.inl rfl, fun rest => ?_⟩
      rw [freeStep_eq h]
      dsimp only [List.nil_append]
      rw [hf]
      rfl
    | none =>
      have hstep (rest : List ArpAnswer) :
          freeStep cfg addr { st with answers := [arp addr] ++ rest } =
            let r := nobodyRespondsToArp cfg addr st.server ([arp addr] ++ rest)
            (if r.1 then some addr else none, { st with server := r.2.1, answers := r.2.2 }) := by
        rw [freeStep_eq h]
        dsimp only
        rw [hf]
      cases hno : (arp addr).nobody with
      | true =>
        refine ⟨_, _, .free h hf hno, Or.inr rfl, fun rest => ?_⟩
        rw [hstep]
        rcases nobodyRespondsToArp_cases cfg addr st.server ([arp addr] ++ rest) with
          ⟨-, he⟩ | ⟨hsome, -⟩
        · rw [he]
          rfl
        · exact absurd (hno.symm.trans hsome) (by decide)
      | false =>
        refine ⟨_, _, .taken h hf hno, Or.inr rfl, fun rest => ?_⟩
        rw [hstep]
        rcases nobodyRespondsToArp_cases cfg addr st.server ([arp addr] ++ rest) with
          ⟨hnobody, -⟩ | ⟨-, he⟩
        · exact absurd (hno.symm.trans hnobody) (by decide)
        · rw [he]
          rfl

/-- The loop takes one turn, and goes on with the answers to what it asks then. -/
theorem freeLoop_cons (arp : ℕ → ArpAnswer) (addr : ℕ) (addrs : List ℕ) (st : Search) :
    ∃ r used, Turns cfg arp addr st r used ∧
      freeLoop cfg (addr :: addrs)
          { st with answers := searchAnswers cfg arp (addr :: addrs) st } =
        match r with
        | (some nip, st') => (some nip, { st' with answers := [] })
        | (none, st') =>
          freeLoop cfg addrs { st' with answers := searchAnswers cfg arp addrs st' } := by
  obtain ⟨⟨found, st'⟩, used, hturn, hused, hstep⟩ := @freeStep_turns cfg arp addr st
  refine ⟨(found, st'), used, hturn, ?_⟩
  obtain ⟨rest, hrest, hif⟩ : ∃ rest, used ++ rest = [arp addr] ∧
      (if rest = [] then [arp addr] else []) = used := by
    rcases hused with rfl | rfl
    · exact ⟨[arp addr], rfl, rfl⟩
    · exact ⟨[], rfl, rfl⟩
  have hanswers := hstep rest
  rw [hrest] at hanswers
  cases found with
  | none =>
    have hall : searchAnswers cfg arp (addr :: addrs) st =
        used ++ searchAnswers cfg arp addrs st' := by
      rw [searchAnswers, hanswers]
      dsimp only
      rw [hif, searchAnswers_congr]
    rw [freeLoop, hall, hstep]
  | some nip =>
    have hone : searchAnswers cfg arp (addr :: addrs) st = used ++ [] := by
      rw [searchAnswers, hanswers]
      cases hturn
      rfl
    rw [freeLoop, hone, hstep]

/-! ### What has been noted -/

/-- A lease of an address before is noted, and is at least as old as one that expires at `expires`;
or the slot of such a lease has been taken by a marker. -/
inductive Beaten (cfg : Config) (s : Server) (done : List ℕ) (st : Search) (expires : ℕ) : Prop
  | older {j : ℕ} (hnoted : st.oldestLease = some j) (hsame : st.server.slot j = s.slot j)
      (hle : (s.slot j).expires ≤ expires)
  | taken {j : ℕ} (hj : j < s.leases.length) (hdone : (s.slot j).nip ∈ done)
      (hcand : Candidate cfg (s.slot j).nip) (htaken : (st.server.slot j).nip ≠ (s.slot j).nip)

/-- What holds after the addresses `done` of a search that started at `s`. -/
structure Noted (cfg : Config) (arp : ℕ → ArpAnswer) (s : Server) (done : List ℕ) (st : Search) :
    Prop where
  length : st.server.leases.length = s.leases.length
  now : s.now ≤ st.server.now
  /-- A slot is as it was, or a marker is in it. -/
  slots : ∀ i, st.server.slot i = s.slot i ∨
    (st.server.slot i).nip ∈ done ∧ (arp (st.server.slot i).nip).nobody = false ∧
      ∃ t, s.now ≤ t ∧ t ≤ st.server.now ∧ (s.slot i).isUsable t = true
  oldest : ∀ o, st.oldestLease = some o → o < s.leases.length ∧ (s.slot o).nip ∈ done ∧
    Candidate cfg (s.slot o).nip ∧
      (st.server.slot o = s.slot o ∨ (st.server.slot o).nip ≠ (s.slot o).nip)
  /-- For every address somebody has answered, or it has a lease, which is beaten. -/
  done : ∀ nip ∈ done, Candidate cfg nip → (arp nip).nobody = false ∨
    ∃ i, i < s.leases.length ∧ (s.slot i).nip = nip ∧ Beaten cfg s done st (s.slot i).expires

theorem noted_start (arp : ℕ → ArpAnswer) (s : Server) (answers : List ArpAnswer) :
    Noted cfg arp s [] ⟨s, answers, none⟩ where
  length := rfl
  now := Nat.le_refl _
  slots := fun i => Or.inl rfl
  oldest := fun o ho => by cases ho
  done := fun nip hnip => by cases hnip

section Step

variable {arp : ℕ → ArpAnswer} {s : Server} {done : List ℕ} {st : Search} {addr : ℕ}

theorem Beaten.mono {expires : ℕ} (h : Beaten cfg s done st expires) :
    Beaten cfg s (done ++ [addr]) st expires := by
  cases h with
  | older hnoted hsame hle => exact .older hnoted hsame hle
  | taken hj hdone hcand htaken => exact .taken hj (List.mem_append_left _ hdone) hcand htaken

theorem Noted.skip (h : Noted cfg arp s done st) (hskip : Skips cfg addr) :
    Noted cfg arp s (done ++ [addr]) st where
  length := h.length
  now := h.now
  slots := fun i => by
    rcases h.slots i with hsame | ⟨hmem, hrest⟩
    · exact Or.inl hsame
    · exact Or.inr ⟨List.mem_append_left _ hmem, hrest⟩
  oldest := fun o ho => by
    obtain ⟨hlt, hmem, hrest⟩ := h.oldest o ho
    exact ⟨hlt, List.mem_append_left _ hmem, hrest⟩
  done := fun nip hnip hcand => by
    rcases List.mem_append.mp hnip with hnip | hnip
    · rcases h.done nip hnip hcand with harp | ⟨i, hi, hslot, hbeaten⟩
      · exact Or.inl harp
      · exact Or.inr ⟨i, hi, hslot, hbeaten.mono⟩
    · rw [List.mem_singleton.mp hnip] at hcand
      exact absurd hskip hcand.not_skips

theorem slot_mark (cfg : Config) (hf : findLeaseByNip addr st.server.leases = none)
    (seconds i : ℕ) :
    ((st.wait seconds).mark cfg addr).server.slot i = st.server.slot i ∨
      (((st.wait seconds).mark cfg addr).server.slot i).nip = addr ∧
        (st.server.slot i).isUsable (st.server.now + seconds) = true := by
  have hfree : findLeaseByNip addr (st.wait seconds).server.leases = none := hf
  exact slot_add_conflict hfree cfg.conflictTime i

theorem Beaten.mark (h : Noted cfg arp s done st) (hnew : addr ∉ done)
    (hf : findLeaseByNip addr st.server.leases = none) {expires : ℕ}
    (hb : Beaten cfg s done st expires) (seconds : ℕ) :
    Beaten cfg s (done ++ [addr]) ((st.wait seconds).mark cfg addr) expires := by
  cases hb with
  | @older j hnoted hsame hle =>
    obtain ⟨hlt, hmem, hcand, -⟩ := h.oldest j hnoted
    rcases slot_mark cfg hf seconds j with hsame' | ⟨hmark, -⟩
    · exact .older hnoted (hsame'.trans hsame) hle
    · refine .taken hlt (List.mem_append_left _ hmem) hcand ?_
      rw [hmark]
      exact fun heq => hnew (heq ▸ hmem)
  | @taken j hj hdone hcand htaken =>
    refine .taken hj (List.mem_append_left _ hdone) hcand ?_
    rcases slot_mark cfg hf seconds j with hsame | ⟨hmark, -⟩
    · rw [hsame]
      exact htaken
    · rw [hmark]
      exact fun heq => hnew (heq ▸ hdone)

theorem Noted.take (h : Noted cfg arp s done st) (hnew : addr ∉ done)
    (hf : findLeaseByNip addr st.server.leases = none) (hno : (arp addr).nobody = false) :
    Noted cfg arp s (done ++ [addr]) ((st.wait (arp addr).seconds).mark cfg addr) where
  length := length_addLease.trans h.length
  now := Nat.le_trans h.now (Nat.le_add_right _ _)
  slots := fun i => by
    rcases slot_mark cfg hf (arp addr).seconds i with hsame | ⟨hmark, husable⟩
    · rw [hsame]
      rcases h.slots i with hsame' | ⟨hmem, harp, t, ht, htle, hu⟩
      · exact Or.inl hsame'
      · exact Or.inr ⟨List.mem_append_left _ hmem, harp, t, ht,
          Nat.le_trans htle (Nat.le_add_right _ _), hu⟩
    · right
      rw [hmark]
      refine ⟨List.mem_append_right _ (List.mem_singleton_self _), hno, ?_⟩
      rcases h.slots i with hsame' | ⟨-, -, t, ht, htle, hu⟩
      · rw [hsame'] at husable
        exact ⟨_, Nat.le_trans h.now (Nat.le_add_right _ _), Nat.le_refl _, husable⟩
      · exact ⟨t, ht, Nat.le_trans htle (Nat.le_add_right _ _), hu⟩
  oldest := fun o ho => by
    obtain ⟨hlt, hmem, hcand, hcase⟩ := h.oldest o ho
    refine ⟨hlt, List.mem_append_left _ hmem, hcand, ?_⟩
    rcases slot_mark cfg hf (arp addr).seconds o with hsame | ⟨hmark, -⟩
    · rw [hsame]
      exact hcase
    · right
      rw [hmark]
      exact fun heq => hnew (heq ▸ hmem)
  done := fun nip hnip hcand => by
    rcases List.mem_append.mp hnip with hnip | hnip
    · rcases h.done nip hnip hcand with harp | ⟨i, hi, hslot, hbeaten⟩
      · exact Or.inl harp
      · exact Or.inr ⟨i, hi, hslot, hbeaten.mark h hnew hf _⟩
    · rw [List.mem_singleton.mp hnip]
      exact Or.inl hno

theorem older_some {i o : ℕ} (ho : st.oldestLease = some o) :
    st.older i = true ↔ (st.server.slot i).expires < (st.server.slot o).expires := by
  rw [Search.older, ho]
  exact decide_eq_true_iff

theorem Noted.lease (h : Noted cfg arp s done st) (hnew : addr ∉ done) (hcand : Candidate cfg addr)
    {i : ℕ} (hf : findLeaseByNip addr st.server.leases = some i) :
    Noted cfg arp s (done ++ [addr]) (st.compare i) := by
  obtain ⟨l, hl, hnip⟩ := findLeaseByNip_some hf
  have hslot : st.server.slot i = l := slot_eq hl
  have hi : i < s.leases.length := by
    rw [← h.length]
    exact (List.getElem?_eq_some_iff.mp hl).1
  -- no marker is for an address that is new
  have hsame : st.server.slot i = s.slot i := by
    rcases h.slots i with hsame | ⟨hmem, -⟩
    · exact hsame
    · rw [hslot, hnip] at hmem
      exact absurd hmem hnew
  have haddr : (s.slot i).nip = addr := by rw [← hsame, hslot, hnip]
  have hmem : addr ∈ done ++ [addr] := List.mem_append_right _ (List.mem_singleton_self _)
  have hbeaten (expires : ℕ) (hb : Beaten cfg s done st expires) :
      Beaten cfg s (done ++ [addr]) (st.compare i) expires := by
    cases hb with
    | @older j hnoted hsamej hle =>
      by_cases hold : st.older i = true
      · refine .older (if_pos hold) hsame ?_
        rw [older_some hnoted, hsame, hsamej] at hold
        exact Nat.le_trans (Nat.le_of_lt hold) hle
      · exact .older ((if_neg hold).trans hnoted) hsamej hle
    | taken hj hdone hcandj htaken =>
      exact .taken hj (List.mem_append_left _ hdone) hcandj htaken
  have hown : Beaten cfg s (done ++ [addr]) (st.compare i) (s.slot i).expires := by
    by_cases hold : st.older i = true
    · exact .older (if_pos hold) hsame (Nat.le_refl _)
    · obtain ⟨o, ho⟩ : ∃ o, st.oldestLease = some o := by
        rw [← Option.ne_none_iff_exists']
        intro hnone
        rw [Search.older, hnone] at hold
        exact hold rfl
      obtain ⟨hlt, hdone, hcando, hcase⟩ := h.oldest o ho
      rcases hcase with hsameo | htaken
      · have hnoted : (st.compare i).oldestLease = some o := (if_neg hold).trans ho
        rw [older_some ho, hsame, hsameo] at hold
        exact .older hnoted hsameo (Nat.le_of_not_lt hold)
      · exact .taken hlt (List.mem_append_left _ hdone) hcando htaken
  refine ⟨h.length, h.now, fun k => ?_, fun o ho => ?_, fun nip hnip' hcandn => ?_⟩
  · rcases h.slots k with hsamek | ⟨hmemk, hrest⟩
    · exact Or.inl hsamek
    · exact Or.inr ⟨List.mem_append_left _ hmemk, hrest⟩
  · rw [Search.compare] at ho
    dsimp only at ho
    split at ho
    · cases ho
      rw [haddr]
      exact ⟨hi, hmem, hcand, Or.inl hsame⟩
    · obtain ⟨hlt, hdone, hrest⟩ := h.oldest o ho
      exact ⟨hlt, List.mem_append_left _ hdone, hrest⟩
  · rcases List.mem_append.mp hnip' with hnip' | hnip'
    · rcases h.done nip hnip' hcandn with harp | ⟨k, hk, hslotk, hbeatenk⟩
      · exact Or.inl harp
      · exact Or.inr ⟨k, hk, hslotk, hbeaten _ hbeatenk⟩
    · rw [List.mem_singleton.mp hnip']
      exact Or.inr ⟨i, hi, haddr, hown⟩

/-- What is known of an address that is found: it may be given away, nobody has answered, and its
leases ran out before the search was over. -/
structure Found (cfg : Config) (arp : ℕ → ArpAnswer) (s : Server) (nip now : ℕ) : Prop where
  candidate : Candidate cfg nip
  nobody : (arp nip).nobody = true
  lapsed : ∀ l ∈ s.leases, l.nip = nip → ∃ t, s.now ≤ t ∧ t ≤ now ∧ l.isUsable t = true

/-- An address that has no slot has lost those that it had. -/
theorem Noted.found (h : Noted cfg arp s done st) (hcand : Candidate cfg addr)
    (hf : findLeaseByNip addr st.server.leases = none) (hno : (arp addr).nobody = true) :
    Found cfg arp s addr (st.wait (arp addr).seconds).server.now where
  candidate := hcand
  nobody := hno
  lapsed := fun l hl hnip => by
    obtain ⟨i, hi⟩ := List.getElem?_of_mem hl
    have hslot : s.slot i = l := slot_eq hi
    rcases h.slots i with hsame | ⟨-, -, t, ht, htle, hu⟩
    · have hlt : i < st.server.leases.length := by
        rw [h.length]
        exact (List.getElem?_eq_some_iff.mp hi).1
      have hne := findLeaseByNip_none hf _ (slot_mem hlt)
      rw [hsame, hslot] at hne
      exact absurd hnip hne
    · rw [hslot] at hu
      exact ⟨t, ht, Nat.le_trans htle (Nat.le_add_right _ _), hu⟩

end Step

/-- **The loop** ends with an address that is found, or has looked at all of them. -/
theorem freeLoop_noted {arp : ℕ → ArpAnswer} {s : Server} (addrs : List ℕ) {done : List ℕ}
    {st : Search} (h : Noted cfg arp s done st) (hnodup : (done ++ addrs).Nodup)
    (hrange : ∀ nip ∈ addrs, cfg.startIp ≤ nip ∧ nip ≤ cfg.endIp) :
    (∃ nip st', freeLoop cfg addrs { st with answers := searchAnswers cfg arp addrs st } =
        (some nip, st') ∧ Found cfg arp s nip st'.server.now) ∨
      ∃ st', freeLoop cfg addrs { st with answers := searchAnswers cfg arp addrs st } =
        (none, { st' with answers := searchAnswers cfg arp [] st' }) ∧
          Noted cfg arp s (done ++ addrs) st' := by
  induction addrs generalizing done st with
  | nil =>
    rw [List.append_nil]
    exact Or.inr ⟨st, rfl, h⟩
  | cons addr addrs ih =>
    have hnew : addr ∉ done := by
      intro hmem
      exact (List.nodup_append.mp hnodup).2.2 addr hmem addr List.mem_cons_self rfl
    have hcand (hskip : ¬ Skips cfg addr) : Candidate cfg addr := by
      obtain ⟨h1, h2⟩ := hrange addr List.mem_cons_self
      exact ⟨h1, h2, hskip⟩
    rw [List.append_cons] at hnodup ⊢
    have hgo {st' : Search} (hnoted : Noted cfg arp s (done ++ [addr]) st') :=
      ih hnoted hnodup fun nip hnip => hrange nip (List.mem_cons_of_mem _ hnip)
    obtain ⟨r, used, hturn, hloop⟩ := @freeLoop_cons cfg arp addr addrs st
    rw [hloop]
    cases hturn with
    | skipped hskip => exact hgo (h.skip hskip)
    | free hskip hf hno => exact Or.inl ⟨addr, _, rfl, h.found (hcand hskip) hf hno⟩
    | taken hskip hf hno => exact hgo (h.take hnew hf hno)
    | leased hskip hf => exact hgo (h.lease hnew (hcand hskip) hf)

/-! ### The result -/

/-- The address satisfies all conditions, if the leases of the table are those that it has. -/
structure Good (cfg : Config) (arp : ℕ → ArpAnswer) (leases : List Slot) (now nip : ℕ) : Prop where
  candidate : Candidate cfg nip
  nobody : (arp nip).nobody = true
  expired : ∀ l ∈ leases, l.nip = nip → l.isExpired now = true

/-- Why an address with a lease is not found, where `after` is the server after the loop: somebody
has answered for a lease that is at least as old, and only the oldest is tried; or the slot of a
lease has been taken by a marker. -/
def PassedOver (cfg : Config) (arp : ℕ → ArpAnswer) (s after : Server) (nip : ℕ) : Prop :=
  ∃ i < s.leases.length, (s.slot i).nip = nip ∧
    ∃ j < s.leases.length, Candidate cfg (s.slot j).nip ∧
      ((s.slot j).expires ≤ (s.slot i).expires ∧ (arp (s.slot j).nip).nobody = false ∨
        (after.slot j).nip ≠ (s.slot j).nip)

section Result

variable {arp : ℕ → ArpAnswer} {s : Server} {st : Search}

/-- An address that satisfies all conditions is passed over, unless nobody has answered for the
lease that is noted, which is older. -/
theorem Noted.passedOver (h : Noted cfg arp s (addrs cfg) st) (hle : cfg.startIp ≤ cfg.endIp)
    (hend : cfg.endIp < 2 ^ 32) {now nip : ℕ} (hgood : Good cfg arp s.leases now nip) :
    PassedOver cfg arp s st.server nip ∨ ∃ o, st.oldestLease = some o ∧
      (st.server.slot o).isExpired now = true ∧
      ((arp (st.server.slot o).nip).nobody = false → PassedOver cfg arp s st.server nip) := by
  have hmem : nip ∈ addrs cfg :=
    (mem_addrs hle hend).mpr ⟨hgood.candidate.start_le, hgood.candidate.le_end⟩
  rcases h.done nip hmem hgood.candidate with harp | ⟨i, hi, hslot, hbeaten⟩
  · exact absurd (harp.symm.trans hgood.nobody) (by decide)
  · cases hbeaten with
    | @older o hnoted hsame hold =>
      obtain ⟨hlt, -, hcand, -⟩ := h.oldest o hnoted
      have hexpired := hgood.expired (s.slot i) (slot_mem hi) hslot
      rw [isExpired_iff] at hexpired
      refine Or.inr ⟨o, hnoted, ?_, fun harp => ?_⟩
      · rw [isExpired_iff, hsame]
        exact Nat.lt_of_le_of_lt hold hexpired
      · rw [hsame] at harp
        exact ⟨i, hi, hslot, o, hlt, hcand, Or.inl ⟨hold, harp⟩⟩
    | @taken j hj _ hcand htaken =>
      exact Or.inl ⟨i, hi, hslot, j, hj, hcand, Or.inr htaken⟩

/-- The lease that is noted is found, if it has expired and nobody has answered for it. -/
theorem Noted.found_oldest {done : List ℕ} (h : Noted cfg arp s done st)
    (hunique : But 0 (s.leases.map Slot.nip)) {o seconds : ℕ} (ho : st.oldestLease = some o)
    (hexpired : (st.server.slot o).isExpired st.server.now = true)
    (hno : (arp (st.server.slot o).nip).nobody = true) :
    Found cfg arp s (st.server.slot o).nip (st.wait seconds).server.now := by
  obtain ⟨hlt, -, hcand, -⟩ := h.oldest o ho
  have hsame : st.server.slot o = s.slot o := by
    rcases h.slots o with hsame | ⟨-, harp, -⟩
    · exact hsame
    · exact absurd (hno.symm.trans harp) (by decide)
  rw [hsame] at hexpired hno ⊢
  refine ⟨hcand, hno, fun l hl hnip => ?_⟩
  obtain ⟨i, hi⟩ := List.getElem?_of_mem hl
  have hio : i = o := by
    refine hunique.place_eq (a := l.nip) (by rw [List.getElem?_map, hi]; rfl) ?_ ?_
    · rw [List.getElem?_map, List.getElem?_eq_getElem hlt, hnip,
        ← slot_eq (List.getElem?_eq_getElem hlt)]
      rfl
    · rw [hnip]
      exact hcand.ne_zero
  rw [← hio, slot_eq hi, isExpired_iff] at hexpired
  exact ⟨st.server.now, h.now, Nat.le_add_right _ _, isUsable_iff.mpr (Or.inr hexpired)⟩

end Result

/-- **What the search finds.**  An address that it finds may be given away; nobody has answered,
and its leases have run out.  When it finds none, an address that satisfies all conditions has a
lease and is passed over. -/
theorem findFreeOrExpiredNip_search (arp : ℕ → ArpAnswer) (s : Server)
    (hle : cfg.startIp ≤ cfg.endIp) (hend : cfg.endIp < 2 ^ 32)
    (hunique : But 0 (s.leases.map Slot.nip)) :
    ((findFreeOrExpiredNip cfg s (arpAnswers cfg arp s)).1 ≠ 0 →
        Found cfg arp s (findFreeOrExpiredNip cfg s (arpAnswers cfg arp s)).1
          (findFreeOrExpiredNip cfg s (arpAnswers cfg arp s)).2.now) ∧
      ((findFreeOrExpiredNip cfg s (arpAnswers cfg arp s)).1 = 0 → ∀ nip,
        Good cfg arp s.leases (findFreeOrExpiredNip cfg s (arpAnswers cfg arp s)).2.now nip →
          PassedOver cfg arp s (afterLoop cfg arp s) nip) := by
  have hrange (nip : ℕ) (hnip : nip ∈ addrs cfg) : cfg.startIp ≤ nip ∧ nip ≤ cfg.endIp :=
    (mem_addrs hle hend).mp hnip
  have hnodup : ([] ++ addrs cfg).Nodup := nodup_addrs hle hend
  rcases freeLoop_noted (addrs cfg) (noted_start arp s []) hnodup hrange with
    ⟨nip, st, hloop, hfound⟩ | ⟨st, hloop, hnoted⟩
  · have hloop : freeLoop cfg (addrs cfg) ⟨s, arpAnswers cfg arp s, none⟩ = (some nip, st) := hloop
    rw [findFreeOrExpiredNip, hloop]
    exact ⟨fun _ => hfound, fun h0 => absurd h0 hfound.candidate.ne_zero⟩
  · rw [List.nil_append] at hnoted
    have hloop : freeLoop cfg (addrs cfg) ⟨s, arpAnswers cfg arp s, none⟩ =
        (none, { st with answers := searchAnswers cfg arp [] st }) := hloop
    have hafter : afterLoop cfg arp s = st.server := by rw [afterLoop, hloop]
    rw [hafter, findFreeOrExpiredNip, hloop]
    dsimp only
    cases ho : st.oldestLease with
    | none =>
      refine ⟨fun h0 => absurd rfl h0, fun _ nip hgood => ?_⟩
      rcases hnoted.passedOver hle hend hgood with hpassed | ⟨o, ho', -⟩
      · exact hpassed
      · rw [ho] at ho'
        cases ho'
    | some o =>
      have hpassed {now nip : ℕ} (hgood : Good cfg arp s.leases now nip)
          (h : (st.server.slot o).isExpired now = true →
            (arp (st.server.slot o).nip).nobody = false) :
          PassedOver cfg arp s st.server nip := by
        rcases hnoted.passedOver hle hend hgood with hpassed | ⟨o', ho', hexpired, hpassed⟩
        · exact hpassed
        · rw [ho] at ho'
          cases ho'
          exact hpassed (h hexpired)
      dsimp only
      by_cases hexpired : (st.server.slot o).isExpired st.server.now = true
      · rw [if_pos hexpired]
        have hanswers : searchAnswers cfg arp [] st = [arp (st.server.slot o).nip] := by
          rw [searchAnswers, ho]
        rw [hanswers]
        rcases nobodyRespondsToArp_cases cfg (st.server.slot o).nip st.server
            [arp (st.server.slot o).nip] with ⟨hno, hask⟩ | ⟨hno, hask⟩
        · have hfound : Found cfg arp s (st.server.slot o).nip
              (st.wait (arp (st.server.slot o).nip).seconds).server.now :=
            hnoted.found_oldest hunique ho hexpired hno
          rw [hask]
          exact ⟨fun _ => hfound, fun h0 => absurd h0 hfound.candidate.ne_zero⟩
        · rw [hask]
          exact ⟨fun h0 => absurd rfl h0, fun _ nip hgood => hpassed hgood fun _ => hno⟩
      · rw [if_neg hexpired]
        exact ⟨fun h0 => absurd rfl h0,
          fun _ nip hgood => hpassed hgood fun h => absurd h hexpired⟩

end Config

instance (cfg : Config) (addr : ℕ) : Decidable (Skips cfg addr) :=
  inferInstanceAs (Decidable (_ ∨ _ ∨ _))

/-- The range has the addresses 10 and 11. -/
def twoAddresses : Config :=
  { startIp := 10, endIp := 11, serverNip := 1, staticLeases := [], maxLeases := 2, offerTime := 60,
    declineTime := 3600, conflictTime := 3600, minLeaseSec := 60, maxLeaseSec := 7200 }

/-- A slot for an address, which belongs to no client. -/
def marker (expires nip : ℕ) : Slot := ⟨expires, nip, zeroMac, Hostname.empty⟩

/-- Both leases have expired and somebody has the address of the older one, so none is found; and
an address that stands twice in the table is found, although one of its leases is in force. -/
theorem not_search_complete :
    ¬ ((findFreeOrExpiredNip twoAddresses ⟨[marker 5 10, marker 6 11], 100, []⟩
          (arpAnswers twoAddresses (fun nip => ⟨nip ≠ 10, 0⟩)
            ⟨[marker 5 10, marker 6 11], 100, []⟩)).1 = 0 →
        ∀ nip, ¬ Good twoAddresses (fun nip => ⟨nip ≠ 10, 0⟩) [marker 5 10, marker 6 11] 100 nip) ∧
      ¬ ((findFreeOrExpiredNip twoAddresses ⟨[marker 5 10, marker 200 11, marker 200 10], 100, []⟩
          (arpAnswers twoAddresses (fun _ => ⟨true, 0⟩)
            ⟨[marker 5 10, marker 200 11, marker 200 10], 100, []⟩)).1 ≠ 0 →
        Good twoAddresses (fun _ => ⟨true, 0⟩) [marker 5 10, marker 200 11, marker 200 10] 100
          (findFreeOrExpiredNip twoAddresses
            ⟨[marker 5 10, marker 200 11, marker 200 10], 100, []⟩
            (arpAnswers twoAddresses (fun _ => ⟨true, 0⟩)
              ⟨[marker 5 10, marker 200 11, marker 200 10], 100, []⟩)).1) := by
  constructor
  · intro h
    refine h (by decide) 11 ⟨⟨by decide, by decide, by decide⟩, by decide, fun l hl hnip => ?_⟩
    rcases List.mem_pair.mp hl with rfl | rfl
    · exact absurd hnip (by decide)
    · decide
  · intro h
    have hgood := h (by decide)
    exact absurd (hgood.expired (marker 200 10) (by decide) (by decide)) (by decide)

/-- The address of the expired lease is found, although somebody has the other one. -/
theorem findFreeOrExpiredNip_search_expired :
    Found twoAddresses (fun nip => ⟨nip ≠ 10, 0⟩) ⟨[marker 0 0, marker 6 11], 100, []⟩ 11 100 :=
  (@findFreeOrExpiredNip_search twoAddresses (fun nip => ⟨nip ≠ 10, 0⟩)
    ⟨[marker 0 0, marker 6 11], 100, []⟩ (by decide) (by decide) (by unfold But; decide)).1
    (by decide)

end Rustybox.Udhcp
