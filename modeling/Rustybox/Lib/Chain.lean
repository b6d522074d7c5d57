import Mathlib.Data.List.Nodup
import Mathlib.Data.List.Perm.Subperm

/-!
# Chains of cells in a heap

A heap holds cells, each with a link to the next one, and a chain of them ends in the link 0.  To
free a chain is to follow its links and to free every cell on the way.  It fails at an address
without a cell, and for a chain it leaves just the other cells (`free_linked`).

The addresses come from an allocator that says nothing about itself but that they are new, even and
not 0.
-/

namespace Chain

/-- The cells that are allocated, each with its link. -/
abbrev Heap := List (ℕ × ℕ)

/-- From `p` on, the cells at `as` are linked one to the next. -/
def Linked (h : Heap) : ℕ → List ℕ → Prop
  | p, [] => p = 0
  | p, a :: as => p = a ∧ a ≠ 0 ∧ ∃ q, h.lookup a = some q ∧ Linked h q as

/-- Follow the links from `p` and free the cells. -/
def freeLoop : ℕ → ℕ → Heap → Option Heap
  | 0, p, h => if p = 0 then some h else none
  | fuel + 1, p, h =>
    if p = 0 then some h
    else do
      let q ← h.lookup p
      freeLoop fuel q (h.filter fun c => decide (c.1 ≠ p))

/-- Free the chain at `p`: there are not more turns than cells. -/
def free (p : ℕ) (h : Heap) : Option Heap := freeLoop h.length p h

/-- Cells at `as`, linked one to the next. -/
def link : List ℕ → Heap
  | [] => []
  | a :: as => (a, as.headD 0) :: link as

/-! ### Heaps -/

theorem lookup_eq_none {h : Heap} {p : ℕ} (hp : p ∉ h.map Prod.fst) : h.lookup p = none := by
  rw [List.lookup_eq_none_iff]
  intro c hc
  simp only [bne_iff_ne, ne_eq]
  rintro rfl
  exact hp (List.mem_map_of_mem hc)

theorem mem_of_lookup {h : Heap} {p q : ℕ} (hq : h.lookup p = some q) : p ∈ h.map Prod.fst := by
  by_contra hp
  rw [lookup_eq_none hp] at hq
  cases hq

theorem lookup_filter {keep : ℕ → Bool} {a : ℕ} (ha : keep a = true) (h : Heap) :
    (h.filter fun c => keep c.1).lookup a = h.lookup a := by
  induction h with
  | nil => rfl
  | cons c h ih =>
    obtain ⟨b, q⟩ := c
    by_cases hb : a = b
    · subst hb
      simp [ha]
    · have hne : (a == b) = false := by simpa using hb
      by_cases hkeep : keep b = true
      · simp [hkeep, List.lookup_cons, hne, ih]
      · simp [hkeep, List.lookup_cons, hne, ih]

/-! ### Chains -/

theorem Linked.mem {h : Heap} : ∀ {p : ℕ} {as : List ℕ}, Linked h p as →
    ∀ a ∈ as, a ∈ h.map Prod.fst := by
  intro p as
  induction as generalizing p with
  | nil => simp
  | cons a as ih =>
    rintro ⟨-, -, q, hq, hlink⟩ b hb
    rcases List.mem_cons.mp hb with rfl | hb
    · exact mem_of_lookup hq
    · exact ih hlink b hb

theorem Linked.filter {h : Heap} (keep : ℕ → Bool) : ∀ {p : ℕ} {as : List ℕ}, Linked h p as →
    (∀ a ∈ as, keep a = true) → Linked (h.filter fun c => keep c.1) p as := by
  intro p as
  induction as generalizing p with
  | nil => exact fun hp _ => hp
  | cons a as ih =>
    rintro ⟨hp, ha, q, hq, hlink⟩ hkeep
    have hq' := (lookup_filter (hkeep a List.mem_cons_self) h).trans hq
    exact ⟨hp, ha, q, hq', ih hlink fun b hb => hkeep b (List.mem_cons_of_mem a hb)⟩

theorem Linked.append {h : Heap} (new : Heap) : ∀ {p : ℕ} {as : List ℕ}, Linked h p as →
    (∀ a ∈ as, a ∉ new.map Prod.fst) → Linked (new ++ h) p as := by
  intro p as
  induction as generalizing p with
  | nil => exact fun hp _ => hp
  | cons a as ih =>
    rintro ⟨hp, ha, q, hq, hlink⟩ hnew
    have hq' : (new ++ h).lookup a = some q := by
      rw [List.lookup_append, lookup_eq_none (hnew a List.mem_cons_self), hq]
      rfl
    exact ⟨hp, ha, q, hq', ih hlink fun b hb => hnew b (List.mem_cons_of_mem a hb)⟩

theorem freeLoop_linked (as : List ℕ) (hnodup : as.Nodup) : ∀ {fuel p : ℕ} {h : Heap},
    Linked h p as → as.length ≤ fuel →
      freeLoop fuel p h = some (h.filter fun c => decide (c.1 ∉ as)) := by
  induction as with
  | nil =>
    rintro fuel p h rfl -
    cases fuel with
    | zero => simp [freeLoop]
    | succ fuel => simp [freeLoop]
  | cons a as ih =>
    rintro fuel p h ⟨rfl, ha, q, hq, hlink⟩ hfuel
    obtain ⟨fuel, rfl⟩ := Nat.exists_eq_succ_of_ne_zero (by
      rw [List.length_cons] at hfuel
      omega : fuel ≠ 0)
    obtain ⟨hnot, hnodup⟩ := List.nodup_cons.mp hnodup
    have hrest : Linked (h.filter fun c => decide (c.1 ≠ p)) q as := by
      refine hlink.filter (fun b => decide (b ≠ p)) ?_
      rintro b hb
      rw [decide_eq_true_iff]
      rintro rfl
      exact hnot hb
    rw [freeLoop, if_neg ha, hq, Option.bind_eq_bind, Option.bind_some,
      ih hnodup hrest (Nat.le_of_succ_le_succ hfuel), List.filter_filter]
    congr 1
    refine List.filter_congr fun c _ => ?_
    simp [Bool.and_comm]

/-- To free a chain leaves the other cells. -/
theorem free_linked {h : Heap} {p : ℕ} {as : List ℕ} (hlink : Linked h p as) (hnodup : as.Nodup) :
    free p h = some (h.filter fun c => decide (c.1 ∉ as)) := by
  refine freeLoop_linked as hnodup hlink ?_
  have := (List.subperm_of_subset hnodup hlink.mem).length_le
  rwa [List.length_map] at this

theorem free_eq_none {h : Heap} {p : ℕ} (h0 : p ≠ 0) (hp : p ∉ h.map Prod.fst) :
    free p h = none := by
  rw [free]
  cases h.length with
  | zero => exact if_neg h0
  | succ n =>
    rw [freeLoop, if_neg h0, lookup_eq_none hp]
    rfl

/-! ### New chains -/

theorem map_fst_link (as : List ℕ) : (link as).map Prod.fst = as := by
  induction as with
  | nil => rfl
  | cons a as ih => rw [link, List.map_cons, ih]

theorem linked_link {as : List ℕ} (hnodup : as.Nodup) (h0 : 0 ∉ as) (h : Heap) :
    Linked (link as ++ h) (as.headD 0) as := by
  induction as with
  | nil => rfl
  | cons a as ih =>
    obtain ⟨hnot, hnodup⟩ := List.nodup_cons.mp hnodup
    have hrest := ih hnodup fun h => h0 (List.mem_cons_of_mem a h)
    have ha : a ≠ 0 := fun h => h0 (h ▸ List.mem_cons_self)
    refine ⟨rfl, ha, as.headD 0, by simp [link], ?_⟩
    refine hrest.append [(a, as.headD 0)] ?_
    rintro b hb hmem
    obtain rfl := List.mem_singleton.mp hmem
    exact hnot hb

/-- An allocator: the address of allocation number `n` while `used` are allocated. -/
structure Malloc where
  addr : ℕ → List ℕ → ℕ
  ne_zero : ∀ n used, addr n used ≠ 0
  even : ∀ n used, addr n used % 2 = 0
  fresh : ∀ n used, addr n used ∉ used

/-- The addresses of `n` allocations, from number `k` on. -/
def Malloc.addrs (alloc : Malloc) : ℕ → ℕ → List ℕ → List ℕ
  | 0, _, _ => []
  | n + 1, k, used =>
    alloc.addr k used :: alloc.addrs n (k + 1) (alloc.addr k used :: used)

theorem length_addrs (alloc : Malloc) (n k : ℕ) (used : List ℕ) :
    (alloc.addrs n k used).length = n := by
  induction n generalizing k used with
  | zero => rfl
  | succ n ih => rw [Malloc.addrs, List.length_cons, ih]

theorem addrs_mem (alloc : Malloc) {n k : ℕ} {used : List ℕ} :
    ∀ a ∈ alloc.addrs n k used, a ≠ 0 ∧ a % 2 = 0 ∧ a ∉ used := by
  induction n generalizing k used with
  | zero => simp [Malloc.addrs]
  | succ n ih =>
    intro a ha
    rcases List.mem_cons.mp ha with rfl | ha
    · exact ⟨alloc.ne_zero k used, alloc.even k used, alloc.fresh k used⟩
    · obtain ⟨h0, heven, hnew⟩ := ih a ha
      exact ⟨h0, heven, fun h => hnew (List.mem_cons_of_mem _ h)⟩

theorem nodup_addrs (alloc : Malloc) (n k : ℕ) (used : List ℕ) :
    (alloc.addrs n k used).Nodup := by
  induction n generalizing k used with
  | zero => exact List.nodup_nil
  | succ n ih =>
    refine List.nodup_cons.mpr ⟨?_, ih _ _⟩
    intro h
    exact (addrs_mem alloc _ h).2.2 List.mem_cons_self

end Chain
