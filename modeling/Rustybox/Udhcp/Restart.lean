import Rustybox.Udhcp.Unique

/-!
# The lease table across a restart

`read_leases` puts the entries of the file back one by one with `add_lease`, each with the MAC
it has in the file.  The table starts empty and is filled from its end: as long as no entry
matches an earlier one, and none comes out with `expires` zero, it has free slots first and the
entries read so far behind them (`addLease_layout`).  Two entries with the zero MAC match each
other, and an entry whose `expires` is zero is taken for a free slot.
-/

namespace Rustybox.Udhcp

open Rustybox.Rust

/-- The entries that have an address in the range and no static lease in their way. -/
def isKept (cfg : Config) (l : Slot) : Bool :=
  l.nip ≠ 0 && inRange cfg l.nip && getStaticNipByMac cfg l.mac = 0 &&
    !isNipReservedAsStatic cfg l.nip

/-- The end of an entry that is written at `t` and read at `t'`. -/
def reloadedEnd (t t' : ℕ) (l : Slot) : ℕ := leasetime (t' + (relativeTime t l - (t' - t)))

/-- An entry that has been written at `t` and read at `t'`. -/
def reloaded (t t' : ℕ) (l : Slot) : Slot := { l with expires := reloadedEnd t t' l }

def toFile (t : ℕ) (l : Slot) : FileLease :=
  ⟨swapBytes 4 (relativeTime t l), l.nip, l.mac, l.hostname.bytes⟩

theorem writeLeases_leases (t : ℕ) (leases : List Slot) :
    (writeLeases t leases).leases = (leases.filter (fun l => l.nip ≠ 0)).map (toFile t) := rfl

/-! ### Times -/

theorem relativeTime_lt (t : ℕ) (l : Slot) : relativeTime t l < 2 ^ 31 := by
  unfold relativeTime isNegative
  dsimp only
  split
  · decide
  · next h => simpa using h

theorem secondsLeft_toFile {d : ℕ} (hd : d ≤ 43200) (t : ℕ) (l : Slot) :
    secondsLeft d (toFile t l) = relativeTime t l - d := by
  have hr := relativeTime_lt t l
  have hswap : swapBytes 4 (toFile t l).expires = relativeTime t l := by
    rw [toFile, swapBytes_swapBytes]
    exact Nat.mod_eq_of_lt (by omega)
  unfold secondsLeft isNegative
  rw [hswap]
  dsimp only
  split
  · next h =>
    rw [decide_eq_true_eq] at h
    omega
  · next h =>
    rw [decide_eq_true_eq] at h
    omega

theorem newSlot_reloaded {t t' : ℕ} (l : Slot) :
    newSlot t' (some l.mac) l.nip (relativeTime t l - (t' - t)) (some l.hostname.bytes) =
      reloaded t t' l := by
  simp only [newSlot, reloaded, reloadedEnd, Option.getD_some, Option.map_some,
    Hostname.ofString_bytes]

/-- An entry in force keeps its end exactly when it ends less than `2 ^ 31` seconds after it was
written. -/
theorem reloadedEnd_eq_iff {t t' : ℕ} {l : Slot} (hle : t ≤ t') (h32 : l.expires < 2 ^ 32)
    (hlt : t' < l.expires) : reloadedEnd t t' l = l.expires ↔ l.expires < t + 2 ^ 31 := by
  have hrel : (l.expires + (2 ^ 32 - leasetime t)) % 2 ^ 32 = l.expires - t := by
    rw [leasetime]
    omega
  unfold reloadedEnd relativeTime isNegative
  rw [hrel, leasetime]
  dsimp only
  split
  · next h =>
    rw [decide_eq_true_eq] at h
    omega
  · next h =>
    rw [decide_eq_true_eq] at h
    omega

/-! ### Filling the table from its end -/

/-- The last slot with `expires` zero is the one that is taken. -/
theorem oldestLoop_layout {x : Slot} {done : List Slot} (hx : x.expires = 0)
    (hdone : ∀ y ∈ done, y.expires ≠ 0) (m i t : ℕ) (oldest : Option ℕ) :
    oldestLoop (List.replicate m Slot.empty ++ x :: done) i t oldest = some (i + m) := by
  induction m generalizing i t oldest with
  | zero =>
    rw [List.replicate_zero, List.nil_append, oldestLoop, if_pos (Or.inl hx), hx,
      oldestLoop_of_none (fun y hy h => hdone y hy (by omega)), Nat.add_zero]
  | succ m ih =>
    have hfree : Slot.empty.expires = 0 ∨ Slot.empty.expires < t := Or.inl rfl
    rw [List.replicate_succ, List.cons_append, oldestLoop, if_pos hfree, ih, Nat.add_right_comm,
      Nat.add_assoc]

/-- Free slots, then one that `add_lease` takes for free, then entries that are not touched. -/
theorem addLease_layout {now : ℕ} {chaddr : Option Mac} {yiaddr lt : ℕ}
    {hostname : Option (List UInt8)} {x : Slot} {done : List Slot} (hx : x.expires = 0)
    (hxm : x = Slot.empty ∨ x.matchesLease chaddr yiaddr = false)
    (hdone : ∀ y ∈ done, y.expires ≠ 0)
    (hm : ∀ y ∈ done, y.matchesLease chaddr yiaddr = false) (m : ℕ) :
    addLease now chaddr yiaddr lt hostname (List.replicate m Slot.empty ++ x :: done) =
      (some m, List.replicate m Slot.empty ++ newSlot now chaddr yiaddr lt hostname :: done) := by
  have hclear : clearLeases chaddr yiaddr (List.replicate m Slot.empty ++ x :: done) =
      List.replicate m Slot.empty ++ x :: done := by
    refine (List.map_congr_left fun y hy => ?_).trans (List.map_id _)
    by_cases hy' : y.matchesLease chaddr yiaddr = true
    · rw [if_pos hy']
      rcases List.mem_append.mp hy with hy | hy
      · exact (List.eq_of_mem_replicate hy).symm
      rcases List.mem_cons.mp hy with rfl | hy
      · rcases hxm with hxm | hxm
        · exact hxm.symm
        · rw [hxm] at hy'
          cases hy'
      · rw [hm y hy] at hy'
        cases hy'
    · rw [if_neg hy']
      rfl
  have hold : oldestExpiredLease now (List.replicate m Slot.empty ++ x :: done) = some m := by
    rw [oldestExpiredLease, oldestLoop_layout hx hdone, Nat.zero_add]
  simp only [addLease, hclear, hold]
  rw [List.set_append_right _ _ (by rw [List.length_replicate]), List.length_replicate,
    Nat.sub_self, List.set_cons_zero]

/-- The loop of `read_leases` over the entries it does not pass over. -/
def readKept (t t' : ℕ) : List Slot → List Slot → List Slot
  | [], leases => leases
  | l :: ks, leases =>
    match addLease t' (some l.mac) l.nip (relativeTime t l - (t' - t)) (some l.hostname.bytes)
      leases with
    | (none, leases) => leases
    | (some _, leases) => readKept t t' ks leases

theorem readLoop_toFile {t t' : ℕ} (h : t' - t ≤ 43200) (cfg : Config) (ls leases : List Slot) :
    readLoop cfg t' (t' - t) ((ls.filter (fun l => l.nip ≠ 0)).map (toFile t)) leases =
      readKept t t' (ls.filter (isKept cfg)) leases := by
  induction ls generalizing leases with
  | nil => rfl
  | cons l ls ih =>
    by_cases h0 : l.nip = 0
    · rw [List.filter_cons_of_neg (by simpa using h0),
        List.filter_cons_of_neg (by simp [isKept, h0])]
      exact ih leases
    rw [List.filter_cons_of_pos (by simpa using h0), List.map_cons, readLoop]
    by_cases hk : isKept cfg l = true
    · have hk' := hk
      simp only [isKept, Bool.and_eq_true, decide_eq_true_eq, Bool.not_eq_true'] at hk'
      obtain ⟨⟨⟨-, hr⟩, hst⟩, hres⟩ := hk'
      rw [if_neg (by simp [toFile, hr]), if_neg (by simp [toFile, hst]),
        if_neg (by simp [toFile, hres]), secondsLeft_toFile h, List.filter_cons_of_pos hk,
        readKept]
      show (match addLease t' (some l.mac) l.nip _ (some l.hostname.bytes) leases with
        | (none, leases) => leases
        | (some _, leases) => readLoop cfg t' (t' - t) _ leases) = _
      split
      · rfl
      · exact ih _
    · rw [List.filter_cons_of_neg hk, ← ih leases]
      split
      · rfl
      split
      · rfl
      split
      · rfl
      next hr hst hres =>
      refine absurd ?_ hk
      have hr : inRange cfg l.nip = true := by simpa [toFile] using hr
      have hst : getStaticNipByMac cfg l.mac = 0 := not_not.mp hst
      have hres : isNipReservedAsStatic cfg l.nip = false := by simpa [toFile] using hres
      simp [isKept, h0, hr, hst, hres]

section

variable {t t' : ℕ} {ks leases done : List Slot} {m : ℕ}

/-- A rule for the loop: what every `add_lease` keeps. -/
theorem readKept_rule {I : List Slot → Prop}
    (hadd : ∀ l ∈ ks, ∀ leases, I leases → I (addLease t' (some l.mac) l.nip
      (relativeTime t l - (t' - t)) (some l.hostname.bytes) leases).2) (h : I leases) :
    I (readKept t t' ks leases) := by
  induction ks generalizing leases with
  | nil => exact h
  | cons l ks ih =>
    have hl := hadd l List.mem_cons_self leases h
    rw [readKept]
    split
    · next he =>
      rw [he] at hl
      exact hl
    · next he =>
      rw [he] at hl
      exact ih (fun k hk => hadd k (List.mem_cons_of_mem _ hk)) hl

/-- Every slot that is filled comes from an entry. -/
theorem mem_readKept {y : Slot} (hy : y ∈ readKept t t' ks (List.replicate m Slot.empty))
    (h0 : y.nip ≠ 0) : ∃ l ∈ ks, y = reloaded t t' l := by
  have hinv : ∀ y ∈ readKept t t' ks (List.replicate m Slot.empty), y.nip ≠ 0 →
      ∃ l ∈ ks, y = reloaded t t' l := by
    refine readKept_rule (I := fun T => ∀ y ∈ T, y.nip ≠ 0 → ∃ l ∈ ks, y = reloaded t t' l) ?_ ?_
    · intro l hl T h y hy h0
      rcases mem_addLease hy with rfl | rfl | ⟨hy, -⟩
      · exact ⟨l, hl, newSlot_reloaded l⟩
      · exact absurd rfl h0
      · exact h y hy h0
    · intro y hy h0
      rw [List.eq_of_mem_replicate hy] at h0
      exact absurd rfl h0
  exact hinv y hy h0

/-- Two entries with the zero MAC do not both survive. -/
theorem zeroMac_readKept {a b : Slot}
    (ha : a ∈ readKept t t' ks (List.replicate m Slot.empty))
    (hb : b ∈ readKept t t' ks (List.replicate m Slot.empty)) (ha0 : a.nip ≠ 0) (hb0 : b.nip ≠ 0)
    (hma : a.mac = zeroMac) (hmb : b.mac = zeroMac) : a = b := by
  have hinv : ∀ a ∈ readKept t t' ks (List.replicate m Slot.empty),
      ∀ b ∈ readKept t t' ks (List.replicate m Slot.empty), a.nip ≠ 0 → b.nip ≠ 0 →
      a.mac = zeroMac → b.mac = zeroMac → a = b := by
    refine readKept_rule (I := fun T => ∀ a ∈ T, ∀ b ∈ T, a.nip ≠ 0 → b.nip ≠ 0 →
      a.mac = zeroMac → b.mac = zeroMac → a = b) ?_ ?_
    · intro l _ T h a ha b hb ha0 hb0 hma hmb
      -- the slots that are left when an entry with the zero MAC is added have other MACs
      have hold : ∀ c ∈ T, c.matchesLease (some l.mac) l.nip = false → c.mac = zeroMac →
          l.mac ≠ zeroMac := by
        intro c _ hc hz hl
        simp [Slot.matchesLease, hz, hl] at hc
      rcases mem_addLease ha with rfl | rfl | ⟨ha, hmatch⟩
      · rcases mem_addLease hb with rfl | rfl | ⟨hb, hmatch⟩
        · rfl
        · exact absurd rfl hb0
        · exact absurd hma (hold b hb hmatch hmb)
      · exact absurd rfl ha0
      · rcases mem_addLease hb with rfl | rfl | ⟨hb, -⟩
        · exact absurd hmb (hold a ha hmatch hma)
        · exact absurd rfl hb0
        · exact h a ha b hb ha0 hb0 hma hmb
    · intro a ha b _ ha0
      rw [List.eq_of_mem_replicate ha] at ha0
      exact absurd rfl ha0
  exact hinv a ha b hb ha0 hb0 hma hmb

theorem nip_ne_of_mem_readKept {x : ℕ} (hx : x ≠ 0) (hks : ∀ l ∈ ks, l.nip ≠ x)
    (h : ∀ y ∈ leases, y.nip ≠ x) : ∀ y ∈ readKept t t' ks leases, y.nip ≠ x := by
  refine readKept_rule (I := fun T => ∀ y ∈ T, y.nip ≠ x) ?_ h
  intro l hl T hT y hy
  rcases mem_addLease hy with rfl | rfl | ⟨hy, -⟩
  · exact hks l hl
  · exact hx.symm
  · exact hT y hy

/-- Entries that differ in MAC and address. -/
def Apart (a b : Slot) : Prop := a.mac ≠ b.mac ∧ a.nip ≠ b.nip

theorem Apart.not_matches {a b : Slot} (h : Apart a b) :
    a.matchesLease (some b.mac) b.nip = false :=
  not_matchesLease (fun he => h.1 (Option.some.inj he).symm) (Ne.symm h.2)

theorem readKept_cons_layout {l x : Slot} (hx : x.expires = 0)
    (hxl : x = Slot.empty ∨ Apart x l) (hdone : ∀ y ∈ done, y.expires ≠ 0 ∧ Apart y l) :
    readKept t t' (l :: ks) (List.replicate m Slot.empty ++ x :: done) =
      readKept t t' ks (List.replicate m Slot.empty ++ reloaded t t' l :: done) := by
  rw [readKept, addLease_layout hx (hxl.imp_right Apart.not_matches) (fun y hy => (hdone y hy).1)
    (fun y hy => (hdone y hy).2.not_matches), newSlot_reloaded]

theorem replicate_succ_append (m : ℕ) (l : List Slot) :
    List.replicate (m + 1) Slot.empty ++ l = List.replicate m Slot.empty ++ Slot.empty :: l := by
  rw [List.replicate_succ', List.append_assoc, List.singleton_append]

/-- Entries apart from each other are all there in the end, unless one comes out with `expires`
zero before another one is read. -/
theorem reloaded_mem_readKept (done : List Slot) (hlen : ks.length ≤ m) (hks : ks.Pairwise Apart)
    (hdone : ∀ y ∈ done, y.expires ≠ 0 ∧ ∀ l ∈ ks, Apart y l)
    (hz : ∀ l ∈ ks.dropLast, reloadedEnd t t' l ≠ 0) :
    ∀ y, y ∈ done ∨ y ∈ ks.map (reloaded t t') →
      y ∈ readKept t t' ks (List.replicate m Slot.empty ++ done) := by
  induction ks generalizing m done with
  | nil =>
    intro y hy
    rcases hy with hy | hy
    · exact List.mem_append_right _ hy
    · cases hy
  | cons l ks ih =>
    intro y hy
    rw [List.length_cons] at hlen
    obtain ⟨m, rfl⟩ : ∃ n, m = n + 1 := ⟨m - 1, by omega⟩
    have hy : y ∈ reloaded t t' l :: done ∨ y ∈ ks.map (reloaded t t') := by
      rw [List.map_cons, List.mem_cons] at hy
      rw [List.mem_cons]
      tauto
    rw [replicate_succ_append, readKept_cons_layout rfl (Or.inl rfl)
      fun z hz => ⟨(hdone z hz).1, (hdone z hz).2 l List.mem_cons_self⟩]
    obtain ⟨hl, hks⟩ := List.pairwise_cons.mp hks
    cases ks with
    | nil =>
      rcases hy with hy | hy
      · exact List.mem_append_right _ hy
      · cases hy
    | cons l' ks =>
      refine ih _ (by omega) hks ?_ (fun k hk => hz k (List.mem_cons_of_mem _ hk)) y hy
      intro z hz'
      rcases List.mem_cons.mp hz' with rfl | hz'
      · exact ⟨hz l List.mem_cons_self, hl⟩
      · exact ⟨(hdone z hz').1, fun k hk => (hdone z hz').2 k (List.mem_cons_of_mem _ hk)⟩

theorem reloadedEnd_ne_zero_of_mem_readKept (done : List Slot) (hlen : ks.length ≤ m)
    (hks : ks.Pairwise Apart) (h0 : ∀ l ∈ ks, l.nip ≠ 0)
    (hdone : ∀ y ∈ done, y.expires ≠ 0 ∧ ∀ l ∈ ks, Apart y l)
    (hmem : ∀ l ∈ ks, ∃ y ∈ readKept t t' ks (List.replicate m Slot.empty ++ done),
      y.nip = l.nip) :
    ∀ l ∈ ks.dropLast, reloadedEnd t t' l ≠ 0 := by
  induction ks generalizing m done with
  | nil =>
    intro l hl
    cases hl
  | cons l ks ih =>
    rw [List.length_cons] at hlen
    obtain ⟨m, rfl⟩ : ∃ n, m = n + 1 := ⟨m - 1, by omega⟩
    rw [replicate_succ_append, readKept_cons_layout rfl (Or.inl rfl)
      fun z hz => ⟨(hdone z hz).1, (hdone z hz).2 l List.mem_cons_self⟩] at hmem
    obtain ⟨hl, hks⟩ := List.pairwise_cons.mp hks
    cases ks with
    | nil =>
      intro k hk
      cases hk
    | cons l' ks =>
      have hzero : reloadedEnd t t' l ≠ 0 := by
        intro hzero
        obtain ⟨hl', -⟩ := List.pairwise_cons.mp hks
        -- the next entry takes the slot
        rw [readKept_cons_layout (x := reloaded t t' l) hzero (Or.inr (hl l' List.mem_cons_self))
          fun z hz => ⟨(hdone z hz).1, (hdone z hz).2 l'
            (List.mem_cons_of_mem _ List.mem_cons_self)⟩] at hmem
        obtain ⟨y, hy, hynip⟩ := hmem l List.mem_cons_self
        refine nip_ne_of_mem_readKept (h0 l List.mem_cons_self)
          (fun k hk => (hl k (List.mem_cons_of_mem _ hk)).2.symm) ?_ y hy hynip
        intro z hz
        rcases List.mem_append.mp hz with hz | hz
        · rw [List.eq_of_mem_replicate hz]
          exact (h0 l List.mem_cons_self).symm
        rcases List.mem_cons.mp hz with rfl | hz
        · exact (hl l' List.mem_cons_self).2.symm
        · exact ((hdone z hz).2 l List.mem_cons_self).2
      have hrest := ih _ (by omega) hks (fun k hk => h0 k (List.mem_cons_of_mem _ hk))
        (fun z hz => by
          rcases List.mem_cons.mp hz with rfl | hz
          · exact ⟨hzero, hl⟩
          · exact ⟨(hdone z hz).1, fun k hk => (hdone z hz).2 k (List.mem_cons_of_mem _ hk)⟩)
        (fun k hk => hmem k (List.mem_cons_of_mem _ hk))
      intro k hk
      rcases List.mem_cons.mp hk with rfl | hk
      · exact hzero
      · exact hrest k hk

end

/-! ### Reachable tables -/

/-- The number of slots, and the range of the times in them. -/
structure Fits (cfg : Config) (s : Server) : Prop where
  length_eq : s.leases.length = tableSize cfg
  expires_lt : ∀ l ∈ s.leases, l.expires < 2 ^ 32

theorem leasetime_lt (t : ℕ) : leasetime t < 2 ^ 32 := Nat.mod_lt _ (by decide)

theorem expires_lt_addLease {now : ℕ} {chaddr : Option Mac} {yiaddr lt : ℕ}
    {hostname : Option (List UInt8)} {leases : List Slot} (h : ∀ l ∈ leases, l.expires < 2 ^ 32) :
    ∀ l ∈ (addLease now chaddr yiaddr lt hostname leases).2, l.expires < 2 ^ 32 := by
  intro l hl
  rcases mem_addLease hl with rfl | rfl | ⟨hl, -⟩
  · exact leasetime_lt _
  · decide
  · exact h l hl

theorem Fits.add {cfg : Config} {s : Server} (h : Fits cfg s) (chaddr : Option Mac)
    (yiaddr lt : ℕ) (hostname : Option (List UInt8)) :
    Fits cfg (s.add chaddr yiaddr lt hostname) :=
  ⟨length_addLease.trans h.length_eq, expires_lt_addLease h.expires_lt⟩

theorem Fits.note {cfg : Config} {s : Server} (h : Fits cfg s) (e : Entry) :
    Fits cfg (s.note e) := ⟨h.length_eq, h.expires_lt⟩

theorem Fits.set {cfg : Config} {s : Server} (h : Fits cfg s) (i : ℕ) {l : Slot}
    (hl : l.expires < 2 ^ 32) : Fits cfg { s with leases := s.leases.set i l } := by
  refine ⟨(List.length_set ..).trans h.length_eq, fun m hm => ?_⟩
  rcases List.mem_or_eq_of_mem_set hm with hm | rfl
  · exact h.expires_lt m hm
  · exact hl

theorem pingKeeps_fits (cfg : Config) : PingKeeps cfg (fun s _ => Fits cfg s) := by
  intro s answers nip h _ _ _
  have htick : Fits cfg { s with now := s.now + (answers.headD ⟨true, 0⟩).seconds } :=
    ⟨h.length_eq, h.expires_lt⟩
  rcases nobodyRespondsToArp_cases cfg nip s answers with ⟨-, he⟩ | ⟨-, he⟩
  · rw [he]
    exact htick
  · rw [he]
    exact (htick.add none nip cfg.conflictTime none).note _

theorem Chosen.fits {cfg : Config} {s s₁ : Server} {p : Packet} {answers : List ArpAnswer}
    {nip : ℕ} (hc : Chosen cfg s p answers s₁ nip) (h : Fits cfg s) : Fits cfg s₁ := by
  cases hc with
  | known => exact h
  | requested => exact h
  | free => exact (search_rule (pingKeeps_fits cfg) s answers h).1.choose_spec

theorem Effect.fits {cfg : Config} {s s' : Server} {p : Packet} {answers : List ArpAnswer}
    (he : Effect cfg s p answers s') (h : Fits cfg s) : Fits cfg s' := by
  cases he with
  | quiet => exact h
  | nak | inform | offerStatic | declineStatic | releaseStatic => exact h.note _
  | noOffer _ _ _ hc => exact hc.fits h
  | offer _ _ _ hc =>
    unfold Server.offer
    split
    · exact (hc.fits h).add _ _ _ _
    · exact ((hc.fits h).add _ _ _ _).note _
  | ackStatic | ack => exact (h.note _).add _ _ _ _
  | decline => exact (h.set _ (leasetime_lt _)).note _
  | release => exact (h.set _ (leasetime_lt _)).note _

theorem fits_readLoop (cfg : Config) (now timePassed : ℕ) (file : List FileLease)
    {leases : List Slot} (hlen : leases.length = tableSize cfg)
    (h : ∀ l ∈ leases, l.expires < 2 ^ 32) :
    (readLoop cfg now timePassed file leases).length = tableSize cfg ∧
      ∀ l ∈ readLoop cfg now timePassed file leases, l.expires < 2 ^ 32 := by
  induction file generalizing leases with
  | nil => exact ⟨hlen, h⟩
  | cons l file ih =>
    have hadd : (addLease now (some l.mac) l.nip (secondsLeft timePassed l) (some l.hostname)
        leases).2.length = tableSize cfg := length_addLease.trans hlen
    have hlt : ∀ k ∈ (addLease now (some l.mac) l.nip (secondsLeft timePassed l)
        (some l.hostname) leases).2, k.expires < 2 ^ 32 := expires_lt_addLease h
    rw [readLoop]
    split
    · exact ih hlen h
    split
    · exact ih hlen h
    split
    · exact ih hlen h
    split
    · next he =>
      rw [he] at hadd hlt
      exact ⟨hadd, hlt⟩
    · next he =>
      rw [he] at hadd hlt
      exact ih hadd hlt

theorem fits_boot (cfg : Config) (now : ℕ) (file : Option LeaseFile) :
    Fits cfg (boot cfg now file) := by
  have hlen : (List.replicate (tableSize cfg) Slot.empty).length = tableSize cfg :=
    List.length_replicate
  have hlt : ∀ l ∈ List.replicate (tableSize cfg) Slot.empty, l.expires < 2 ^ 32 := by
    intro l hl
    rw [List.eq_of_mem_replicate hl]
    decide
  suffices h : (readLeases cfg now file).length = tableSize cfg ∧
      ∀ l ∈ readLeases cfg now file, l.expires < 2 ^ 32 from ⟨h.1, h.2⟩
  unfold readLeases
  dsimp only
  split
  · exact ⟨hlen, hlt⟩
  · split
    · exact ⟨hlen, hlt⟩
    · exact fits_readLoop cfg _ _ _ hlen hlt

theorem fits_states (cfg : Config) (now : ℕ) (file : Option LeaseFile) (labels : List Label)
    {s : Server} (hs : s ∈ Machine.states (step cfg) (boot cfg now file) labels) : Fits cfg s := by
  refine run_rule (I := Fits cfg) (G := fun _ _ => True) (fun _ _ h => ⟨h.length_eq, h.expires_lt⟩)
    (fun _ _ _ _ he _ h => he.fits h) (fits_boot cfg now file) labels (fun _ _ => trivial) s hs

/-! ### The restart -/

/-- An entry is in the table after the restart, with its end if that is still to come. -/
def Survives (leases : List Slot) (t' : ℕ) (l : Slot) : Prop :=
  ∃ m ∈ leases, m.mac = l.mac ∧ m.nip = l.nip ∧ m.hostname = l.hostname ∧
    (t' < l.expires → m.expires = l.expires)

instance (leases : List Slot) (t' : ℕ) (l : Slot) : Decidable (Survives leases t' l) :=
  inferInstanceAs (Decidable (∃ m ∈ leases, m.mac = l.mac ∧ m.nip = l.nip ∧
    m.hostname = l.hostname ∧ (t' < l.expires → m.expires = l.expires)))

theorem readLeases_writeLeases (cfg : Config) {t t' : ℕ} (hle : t ≤ t')
    (h12 : t' ≤ t + 12 * 60 * 60) (leases : List Slot) :
    readLeases cfg t' (some (writeLeases t leases)) =
      readKept t t' (leases.filter (isKept cfg))
        (List.replicate (tableSize cfg) Slot.empty) := by
  have hpassed : (t' + (2 ^ 64 - swapBytes 8 (writeLeases t leases).writtenAt)) % 2 ^ 64 =
      t' - t := by
    rw [writeLeases, swapBytes_swapBytes]
    omega
  simp only [readLeases, hpassed]
  rw [if_neg (by omega), writeLeases_leases, readLoop_toFile (by omega)]

theorem isKept_nip {cfg : Config} {l : Slot} (h : isKept cfg l = true) : l.nip ≠ 0 := by
  simp only [isKept, Bool.and_eq_true, decide_eq_true_eq] at h
  exact h.1.1.1

/-- The entries to keep are apart if no two have the zero MAC. -/
theorem Unique.apart {cfg : Config} {leases : List Slot} (h : Unique leases)
    (hzero : ∀ a ∈ leases, ∀ b ∈ leases, isKept cfg a = true → isKept cfg b = true →
      a.mac = zeroMac → b.mac = zeroMac → a = b) :
    (leases.filter (isKept cfg)).Pairwise Apart := by
  rw [List.pairwise_filter]
  have hnip := List.pairwise_map.mp h.nip
  have hmac := List.pairwise_map.mp h.mac
  refine (hnip.and hmac).imp_of_mem fun {a b} ha hb hab hka hkb => ?_
  have hne : a.nip ≠ b.nip := fun he => isKept_nip hka (hab.1 he)
  refine ⟨fun he => ?_, hne⟩
  have hz := hab.2 he
  exact hne (congrArg Slot.nip (hzero a ha b hb hka hkb hz (he ▸ hz)))

/-- **A restart keeps the leases** exactly when at most one of the entries to keep has the zero
MAC, those in force end less than `2 ^ 31` seconds after they are written, and none but the last
comes out with `expires` zero. -/
theorem restart_keeps_iff (cfg : Config) (now : ℕ) (file : Option LeaseFile)
    (labels : List Label) (s : Server)
    (hs : s ∈ Machine.states (step cfg) (boot cfg now file) labels) (t' : ℕ) (hle : s.now ≤ t')
    (h12 : t' ≤ s.now + 12 * 60 * 60) :
    (∀ l ∈ s.leases, isKept cfg l = true →
      Survives (readLeases cfg t' (some (writeLeases s.now s.leases))) t' l) ↔
      (∀ a ∈ s.leases, ∀ b ∈ s.leases, isKept cfg a = true → isKept cfg b = true →
        a.mac = zeroMac → b.mac = zeroMac → a = b) ∧
      (∀ l ∈ s.leases, isKept cfg l = true → t' < l.expires → l.expires < s.now + 2 ^ 31) ∧
      ∀ l ∈ (s.leases.filter (isKept cfg)).dropLast, reloadedEnd s.now t' l ≠ 0 := by
  have hu := unique_states cfg now file labels hs
  have hfit := fits_states cfg now file labels hs
  have hlen : (s.leases.filter (isKept cfg)).length ≤ tableSize cfg :=
    hfit.length_eq ▸ List.length_filter_le _ _
  have hnip : ∀ l ∈ s.leases.filter (isKept cfg), l.nip ≠ 0 := fun l hl =>
    isKept_nip (List.mem_filter.mp hl).2
  have hback : ∀ a ∈ s.leases, ∀ b ∈ s.leases, isKept cfg a = true → a.nip = b.nip → a = b :=
    fun a ha b hb hk he => hu.eq_of_nip_eq ha hb he (isKept_nip hk)
  rw [readLeases_writeLeases cfg hle h12]
  refine ⟨fun h => ?_, fun ⟨h1, h2, h3⟩ => ?_⟩
  · have h1 : ∀ a ∈ s.leases, ∀ b ∈ s.leases, isKept cfg a = true → isKept cfg b = true →
        a.mac = zeroMac → b.mac = zeroMac → a = b := by
      intro a ha b hb hka hkb hza hzb
      obtain ⟨x, hx, hxm, hxn, -⟩ := h a ha hka
      obtain ⟨y, hy, hym, hyn, -⟩ := h b hb hkb
      have hxy : x = y := zeroMac_readKept hx hy (hxn ▸ isKept_nip hka) (hyn ▸ isKept_nip hkb)
        (hxm.trans hza) (hym.trans hzb)
      exact hback a ha b hb hka (hxn.symm.trans ((congrArg Slot.nip hxy).trans hyn))
    refine ⟨h1, fun l hl hk hlt => ?_, ?_⟩
    · obtain ⟨x, hx, -, hxn, -, hxe⟩ := h l hl hk
      obtain ⟨k, hkm, rfl⟩ := mem_readKept hx (hxn ▸ isKept_nip hk)
      obtain ⟨hkm, hkk⟩ := List.mem_filter.mp hkm
      obtain rfl : k = l := hback k hkm l hl hkk hxn
      exact (reloadedEnd_eq_iff hle (hfit.expires_lt k hl) hlt).mp (hxe hlt)
    · refine reloadedEnd_ne_zero_of_mem_readKept [] hlen (hu.apart h1) hnip
        (fun y hy => absurd hy List.not_mem_nil) fun l hl => ?_
      obtain ⟨hl, hk⟩ := List.mem_filter.mp hl
      obtain ⟨x, hx, -, hxn, -⟩ := h l hl hk
      rw [List.append_nil]
      exact ⟨x, hx, hxn⟩
  · intro l hl hk
    have hmem := reloaded_mem_readKept [] hlen (hu.apart h1)
      (fun y hy => absurd hy List.not_mem_nil) h3 (reloaded s.now t' l)
      (Or.inr (List.mem_map_of_mem (List.mem_filter.mpr ⟨hl, hk⟩)))
    rw [List.append_nil] at hmem
    exact ⟨_, hmem, rfl, rfl, rfl, fun hlt =>
      (reloadedEnd_eq_iff hle (hfit.expires_lt l hl) hlt).mpr (h2 l hl hk hlt)⟩

/-- Two addresses turn out to be in use during one search, and one of the two markers is lost in
the restart. -/
theorem not_restart_keeps :
    ¬ ∀ (cfg : Config) (now : ℕ) (file : Option LeaseFile) (labels : List Label),
      ∀ s ∈ Machine.states (step cfg) (boot cfg now file) labels, ∀ t', s.now ≤ t' →
        t' ≤ s.now + 12 * 60 * 60 → ∀ l ∈ s.leases, isKept cfg l = true →
          Survives (readLeases cfg t' (some (writeLeases s.now s.leases))) t' l := by
  intro h
  let cfg : Config :=
    { startIp := 1, endIp := 5, serverNip := 9, staticLeases := [], maxLeases := 5,
      offerTime := 60, declineTime := 3600, conflictTime := 3600, minLeaseSec := 60,
      maxLeaseSec := 864000 }
  let p : Packet := { chaddr := Vector.replicate 6 8, messageType := some 1 }
  let answers : List ArpAnswer := [⟨false, 0⟩, ⟨false, 0⟩]
  let s : Server := handle cfg (boot cfg 100 none) p answers
  have hs : s ∈ Machine.states (step cfg) (boot cfg 100 none) [.packet p answers] :=
    List.mem_cons_of_mem _ List.mem_cons_self
  have hall := h cfg 100 none _ s hs 100 (by decide) (by decide)
  exact absurd hall (by decide)

/-- A lease and one marker come through a restart an hour later. -/
theorem restart_keeps_iff_one_marker :
    let cfg : Config :=
      { startIp := 1, endIp := 5, serverNip := 9, staticLeases := [], maxLeases := 5,
        offerTime := 6000, declineTime := 3600, conflictTime := 7200, minLeaseSec := 60,
        maxLeaseSec := 864000 }
    let p : Packet := { chaddr := Vector.replicate 6 8, messageType := some 1 }
    let answers : List ArpAnswer := [⟨false, 0⟩]
    let s : Server := handle cfg (boot cfg 100 none) p answers
    ∀ l ∈ s.leases, isKept cfg l = true →
      Survives (readLeases cfg 3700 (some (writeLeases s.now s.leases))) 3700 l := by
  intro cfg p answers s
  refine (restart_keeps_iff cfg 100 none [.packet p answers] s
    (List.mem_cons_of_mem _ List.mem_cons_self) 3700 (by decide) (by decide)).mpr ?_
  exact ⟨by decide, by decide, by decide⟩

end Rustybox.Udhcp
