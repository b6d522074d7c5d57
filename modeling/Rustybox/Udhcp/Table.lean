import Mathlib.Algebra.Ring.Nat
import Mathlib.Data.List.TakeWhile
import Rustybox.Lib.Distinct

/-!
# The lease table of udhcpd

`g_leases` is an array of `max_leases` slots.  A slot that is all zeros is free; a slot with
an address and a zero MAC keeps the address from everybody, because a client has declined it
or somebody answered an ARP request for it.

Addresses are numbers in host byte order.  The source keeps them in network byte order and
swaps them back where it compares them with the range; what it does with them otherwise is
the same in both orders.  Times are seconds; a time in the table is a `u32`.

`addLease` is the only function that fills a slot.  `addLease_cases` says all it does, and
`mem_addLease` and `mem_addLease_of_live` what becomes of the slots.
-/

namespace Rustybox.Udhcp

/-- The six bytes of a hardware address. -/
abbrev Mac := Vector UInt8 6

/-- The MAC of a slot that belongs to no client. -/
def zeroMac : Mac := Vector.replicate 6 0

/-! ### Host names -/

/-- `bb_ascii_isalnum`. -/
def isAlnum (c : UInt8) : Bool :=
  (48 ≤ c.toNat && c.toNat ≤ 57) || (65 ≤ c.toNat && c.toNat ≤ 90) ||
    (97 ≤ c.toNat && c.toNat ≤ 122)

/-- The sanitization of a byte of a host name: everything but `0-9A-Za-z_-` becomes a dot. -/
def sanitize (c : UInt8) : UInt8 := if isAlnum c || c == 45 || c == 95 then c else 46

/-- The contents of `hostname[20]` up to the terminating NUL. -/
structure Hostname where
  bytes : List UInt8
  length_le : bytes.length ≤ 19
  clean : ∀ c ∈ bytes, c ≠ 0 ∧ sanitize c = c
  deriving DecidableEq

def Hostname.empty : Hostname := ⟨[], by decide, by simp⟩

theorem sanitize_clean (c : UInt8) : sanitize c ≠ 0 ∧ sanitize (sanitize c) = sanitize c := by
  unfold sanitize
  split
  · next h =>
    refine ⟨?_, ?_⟩
    · rintro rfl
      exact absurd h (by decide)
    · rfl
  · exact ⟨by decide, by decide⟩

/-- The host name `add_lease` stores for a string. -/
def Hostname.ofString (s : List UInt8) : Hostname where
  bytes := ((s.takeWhile (· ≠ 0)).take 19).map sanitize
  length_le := by
    rw [List.length_map, List.length_take]
    omega
  clean := by
    intro c hc
    obtain ⟨d, -, rfl⟩ := List.mem_map.mp hc
    exact sanitize_clean d

theorem Hostname.ofString_bytes (h : Hostname) : Hostname.ofString h.bytes = h := by
  have hw : h.bytes.takeWhile (· ≠ 0) = h.bytes :=
    List.takeWhile_eq_self_iff.mpr (fun c hc => by simpa using (h.clean c hc).1)
  have hm : h.bytes.map sanitize = h.bytes :=
    (List.map_congr_left fun c hc => (h.clean c hc).2).trans (List.map_id _)
  cases h with
  | mk bytes hl hc =>
    simp only [Hostname.ofString, Hostname.mk.injEq]
    rw [hw, List.take_of_length_le hl, hm]

/-! ### Slots -/

/-- `dyn_lease`. -/
structure Slot where
  expires : ℕ
  nip : ℕ
  mac : Mac
  hostname : Hostname
  deriving DecidableEq

def Slot.empty : Slot := ⟨0, 0, zeroMac, Hostname.empty⟩

/-- A time as the table keeps it. -/
def leasetime (t : ℕ) : ℕ := t % 2 ^ 32

/-- `is_expired_lease`. -/
def Slot.isExpired (now : ℕ) (l : Slot) : Bool := l.expires < leasetime now

/-- The test of `oldest_expired_lease` for its first candidate. -/
def Slot.isUsable (now : ℕ) (l : Slot) : Bool := l.expires = 0 || l.expires < leasetime now

/-- The loop of `oldest_expired_lease` from slot `i` on. -/
def oldestLoop : List Slot → ℕ → ℕ → Option ℕ → Option ℕ
  | [], _, _, oldest => oldest
  | l :: leases, i, oldestTime, oldest =>
    if l.expires = 0 ∨ l.expires < oldestTime then oldestLoop leases (i + 1) l.expires (some i)
    else oldestLoop leases (i + 1) oldestTime oldest

/-- `oldest_expired_lease`: the number of the slot. -/
def oldestExpiredLease (now : ℕ) (leases : List Slot) : Option ℕ :=
  oldestLoop leases 0 (leasetime now) none

/-- The test of `clear_leases`; without a `chaddr` the lease is a conflict lease. -/
def Slot.matchesLease (chaddr : Option Mac) (yiaddr : ℕ) (l : Slot) : Bool :=
  chaddr = some l.mac || (yiaddr ≠ 0 && l.nip = yiaddr)

def clearLeases (chaddr : Option Mac) (yiaddr : ℕ) (leases : List Slot) : List Slot :=
  leases.map (fun l => if l.matchesLease chaddr yiaddr then Slot.empty else l)

/-- The slot `add_lease` fills in. -/
def newSlot (now : ℕ) (chaddr : Option Mac) (yiaddr leasetimeSec : ℕ)
    (hostname : Option (List UInt8)) : Slot where
  expires := leasetime (now + leasetimeSec)
  nip := yiaddr
  mac := chaddr.getD zeroMac
  hostname := (hostname.map Hostname.ofString).getD Hostname.empty

/-- `add_lease`: the number of the slot it fills, if there is one, and the new table. -/
def addLease (now : ℕ) (chaddr : Option Mac) (yiaddr leasetimeSec : ℕ)
    (hostname : Option (List UInt8)) (leases : List Slot) : Option ℕ × List Slot :=
  let leases := clearLeases chaddr yiaddr leases
  match oldestExpiredLease now leases with
  | none => (none, leases)
  | some i => (some i, leases.set i (newSlot now chaddr yiaddr leasetimeSec hostname))

def findLeaseByMac (mac : Mac) (leases : List Slot) : Option ℕ :=
  leases.findIdx? (fun l => l.mac = mac)

def findLeaseByNip (nip : ℕ) (leases : List Slot) : Option ℕ :=
  leases.findIdx? (fun l => l.nip = nip)

/-! ### The oldest expired lease -/

theorem oldestLoop_some {leases : List Slot} {i t k : ℕ} {oldest : Option ℕ}
    (h : oldestLoop leases i t oldest = some k) :
    oldest = some k ∨
      ∃ j l, k = i + j ∧ leases[j]? = some l ∧ (l.expires = 0 ∨ l.expires < t) := by
  induction leases generalizing i t oldest with
  | nil => exact Or.inl h
  | cons l leases ih =>
    rw [oldestLoop] at h
    split at h
    · next hl =>
      rcases ih h with ho | ⟨j, m, rfl, hm, hmt⟩
      · refine Or.inr ⟨0, l, ?_, rfl, hl⟩
        rw [Option.some.injEq] at ho
        omega
      · exact Or.inr ⟨j + 1, m, by omega, by rwa [List.getElem?_cons_succ], by omega⟩
    · rcases ih h with ho | ⟨j, m, rfl, hm, hmt⟩
      · exact Or.inl ho
      · exact Or.inr ⟨j + 1, m, by omega, by rwa [List.getElem?_cons_succ], hmt⟩

theorem oldestLoop_of_none {leases : List Slot} {t : ℕ}
    (h : ∀ l ∈ leases, ¬ (l.expires = 0 ∨ l.expires < t)) (i : ℕ) (oldest : Option ℕ) :
    oldestLoop leases i t oldest = oldest := by
  induction leases generalizing i with
  | nil => rfl
  | cons l leases ih =>
    rw [oldestLoop, if_neg (h l List.mem_cons_self)]
    exact ih (fun m hm => h m (List.mem_cons_of_mem _ hm)) (i + 1)

theorem oldestLoop_ne_none {leases : List Slot} {i t : ℕ} {oldest : Option ℕ}
    (h : oldest ≠ none ∨ ∃ l ∈ leases, l.expires = 0 ∨ l.expires < t) :
    oldestLoop leases i t oldest ≠ none := by
  induction leases generalizing i t oldest with
  | nil =>
    rcases h with h | ⟨l, hl, -⟩
    · exact h
    · cases hl
  | cons l leases ih =>
    rw [oldestLoop]
    split
    · exact ih (Or.inl (Option.some_ne_none i))
    · next hl =>
      refine ih ?_
      rcases h with h | ⟨m, hm, hmt⟩
      · exact Or.inl h
      · rcases List.mem_cons.mp hm with rfl | hm
        · exact absurd hmt hl
        · exact Or.inr ⟨m, hm, hmt⟩

theorem isUsable_iff {now : ℕ} {l : Slot} :
    l.isUsable now = true ↔ l.expires = 0 ∨ l.expires < leasetime now := by
  simp only [Slot.isUsable, Bool.or_eq_true, decide_eq_true_eq]

theorem isUsable_eq_false_iff {now : ℕ} {l : Slot} :
    l.isUsable now = false ↔ l.expires ≠ 0 ∧ leasetime now ≤ l.expires := by
  rw [← Bool.not_eq_true, isUsable_iff]
  omega

theorem isExpired_iff {now : ℕ} {l : Slot} :
    l.isExpired now = true ↔ l.expires < leasetime now := by
  simp only [Slot.isExpired, decide_eq_true_eq]

theorem isExpired_eq_false_iff {now : ℕ} {l : Slot} :
    l.isExpired now = false ↔ leasetime now ≤ l.expires := by
  rw [← Bool.not_eq_true, isExpired_iff]
  omega

theorem isUsable_of_oldest {now k : ℕ} {leases : List Slot}
    (h : oldestExpiredLease now leases = some k) :
    ∃ l, leases[k]? = some l ∧ l.isUsable now = true := by
  rcases oldestLoop_some h with h0 | ⟨j, l, rfl, hl, hlt⟩
  · cases h0
  · exact ⟨l, by rwa [Nat.zero_add], isUsable_iff.mpr hlt⟩

theorem oldest_ne_none {now : ℕ} {leases : List Slot} {l : Slot} (hl : l ∈ leases)
    (hu : l.isUsable now = true) : oldestExpiredLease now leases ≠ none :=
  oldestLoop_ne_none (Or.inr ⟨l, hl, isUsable_iff.mp hu⟩)

/-! ### What `add_lease` does to the slots -/

section AddLease

variable {now : ℕ} {chaddr : Option Mac} {yiaddr lt : ℕ} {hostname : Option (List UInt8)}
  {leases : List Slot}

/-- Either a slot is filled that is free or expired once the table is cleared, or there is
none and the table is only cleared. -/
theorem addLease_cases (now : ℕ) (chaddr : Option Mac) (yiaddr lt : ℕ)
    (hostname : Option (List UInt8)) (leases : List Slot) :
    (∃ i l, oldestExpiredLease now (clearLeases chaddr yiaddr leases) = some i ∧
      (clearLeases chaddr yiaddr leases)[i]? = some l ∧ l.isUsable now = true ∧
      addLease now chaddr yiaddr lt hostname leases =
        (some i, (clearLeases chaddr yiaddr leases).set i
          (newSlot now chaddr yiaddr lt hostname))) ∨
    (oldestExpiredLease now (clearLeases chaddr yiaddr leases) = none ∧
      addLease now chaddr yiaddr lt hostname leases =
        (none, clearLeases chaddr yiaddr leases)) := by
  cases h : oldestExpiredLease now (clearLeases chaddr yiaddr leases) with
  | none =>
    refine Or.inr ⟨rfl, ?_⟩
    simp only [addLease, h]
  | some i =>
    obtain ⟨l, hl, hu⟩ := isUsable_of_oldest h
    refine Or.inl ⟨i, l, rfl, hl, hu, ?_⟩
    simp only [addLease, h]

@[simp]
theorem length_clearLeases : (clearLeases chaddr yiaddr leases).length = leases.length :=
  List.length_map _

@[simp]
theorem length_addLease : (addLease now chaddr yiaddr lt hostname leases).2.length =
    leases.length := by
  rcases addLease_cases now chaddr yiaddr lt hostname leases with ⟨i, l, -, -, -, h⟩ | ⟨-, h⟩
  · rw [h, List.length_set, length_clearLeases]
  · rw [h, length_clearLeases]

theorem getElem?_clearLeases (j : ℕ) : (clearLeases chaddr yiaddr leases)[j]? =
    leases[j]?.map (fun l => if l.matchesLease chaddr yiaddr then Slot.empty else l) :=
  List.getElem?_map

theorem mem_clearLeases {l : Slot} (h : l ∈ clearLeases chaddr yiaddr leases) :
    l = Slot.empty ∨ l ∈ leases ∧ l.matchesLease chaddr yiaddr = false := by
  obtain ⟨m, hm, rfl⟩ := List.mem_map.mp h
  split
  · exact Or.inl rfl
  · next hne => exact Or.inr ⟨hm, by simpa using hne⟩

theorem mem_clearLeases_of_not_matches {l : Slot} (h : l ∈ leases)
    (hm : l.matchesLease chaddr yiaddr = false) : l ∈ clearLeases chaddr yiaddr leases :=
  List.mem_map.mpr ⟨l, h, by rw [hm]; rfl⟩

theorem mem_addLease {l : Slot} (h : l ∈ (addLease now chaddr yiaddr lt hostname leases).2) :
    l = newSlot now chaddr yiaddr lt hostname ∨ l = Slot.empty ∨
      l ∈ leases ∧ l.matchesLease chaddr yiaddr = false := by
  rcases addLease_cases now chaddr yiaddr lt hostname leases with ⟨i, m, -, -, -, he⟩ | ⟨-, he⟩
  · rw [he] at h
    rcases List.mem_or_eq_of_mem_set h with h | h
    · exact Or.inr (mem_clearLeases h)
    · exact Or.inl h
  · rw [he] at h
    exact Or.inr (mem_clearLeases h)

/-- A lease that is in force and matches neither the MAC nor the address stays. -/
theorem mem_addLease_of_live {l : Slot} (h : l ∈ leases)
    (hm : l.matchesLease chaddr yiaddr = false) (hu : l.isUsable now = false) :
    l ∈ (addLease now chaddr yiaddr lt hostname leases).2 := by
  have hc := mem_clearLeases_of_not_matches h hm
  rcases addLease_cases now chaddr yiaddr lt hostname leases with ⟨i, m, -, hi, hmu, he⟩ | ⟨-, he⟩
  · rw [he]
    obtain ⟨j, hj, hjl⟩ := List.mem_iff_getElem.mp hc
    have hij : i ≠ j := by
      rintro rfl
      rw [List.getElem?_eq_getElem hj, hjl, Option.some.injEq] at hi
      rw [← hi, hu] at hmu
      cases hmu
    refine List.mem_iff_getElem.mpr ⟨j, by rwa [List.length_set], ?_⟩
    rw [List.getElem_set_ne hij, hjl]
  · rwa [he]

theorem newSlot_mem_addLease {i : ℕ}
    (h : (addLease now chaddr yiaddr lt hostname leases).1 = some i) :
    newSlot now chaddr yiaddr lt hostname ∈
      (addLease now chaddr yiaddr lt hostname leases).2 := by
  rcases addLease_cases now chaddr yiaddr lt hostname leases with ⟨k, m, -, hk, -, he⟩ | ⟨-, he⟩
  · rw [he]
    exact List.mem_set (List.getElem?_eq_some_iff.mp hk).1 _
  · rw [he] at h
    cases h

theorem addLease_isSome {l : Slot} (hl : l ∈ leases)
    (h : l.matchesLease chaddr yiaddr = true ∨ l.isUsable now = true) :
    ∃ i, (addLease now chaddr yiaddr lt hostname leases).1 = some i := by
  rcases addLease_cases now chaddr yiaddr lt hostname leases with ⟨k, m, -, -, -, he⟩ | ⟨hn, -⟩
  · exact ⟨k, by rw [he]⟩
  · exfalso
    by_cases hm : l.matchesLease chaddr yiaddr = true
    · refine oldest_ne_none (l := Slot.empty) (List.mem_map.mpr ⟨l, hl, ?_⟩) rfl hn
      rw [if_pos hm]
    · have hu := h.resolve_left hm
      exact oldest_ne_none
        (mem_clearLeases_of_not_matches hl (by simpa using hm)) hu hn

end AddLease

end Rustybox.Udhcp
