import Rustybox.Gunzip.Kraft
import Rustybox.Gunzip.Tables

/-!
# What is freed

`huft_free_all` is called at the end of a block of codes and by `abort_unzip`.  It frees tables that
`huft_build` made and nobody freed, except where `huft_build` itself is the reason: its marked
pointer is in `inflate_codes_tl` or `inflate_codes_td` by the time the mark is looked at, and
`abort_unzip` frees what the marked pointer leads to (`inflateMembers_frees_iff`).
-/

namespace Rustybox.Gunzip

open Guarded (Refines exists_of_bind_eq_ok)

/-! ### The heap -/

/-- Every address is even. -/
structure Mem.Tidy (m : Mem) : Prop where
  heap : ∀ a ∈ m.heap.map Prod.fst, a % 2 = 0
  live : ∀ p ∈ m.live, p % 2 = 0

/-- `inflate_codes_tl` leads to the tables `tls` and `inflate_codes_td` to `tds`, and they can be
freed. -/
structure Mem.Holds (tls tds : List ℕ) (m : Mem) : Prop extends m.Tidy where
  tl : Chain.Linked m.heap m.tl tls
  td : Chain.Linked m.heap m.td tds
  nodup : (tls ++ tds).Nodup
  tl_live : m.tl = 0 ∨ m.tl ∈ m.live
  td_live : m.td = 0 ∨ m.td ∈ m.live

/-- All calls of `huft_free_all` so far were for real tables, and all sets of codes so far were
good. -/
structure Mem.Good (m : Mem) : Prop where
  frees : ∀ e ∈ m.frees, e.Real
  sets : ∀ ll ∈ m.sets, ¬ Malformed ll

/-- `huft_free_all` was called for what is no table, after a bad set of codes. -/
structure Mem.Bad (m : Mem) : Prop where
  frees : ∃ e ∈ m.frees, ¬ e.Real
  sets : ∃ ll ∈ m.sets, Malformed ll

/-- From a state in `P` on, the action comes to `y` and keeps to real tables, or fails with a crash
after a bad set of codes. -/
abbrev Keeps {α : Type} (P : Mem → Prop) (x : Action α) (y : Except Stop α)
    (Q : α → Mem → Prop) : Prop :=
  Refines Mem.Good Mem.Bad Stop.fault P x y Q

theorem Mem.Tidy.free {m : Mem} (h : m.Tidy) (as : List ℕ) (p : ℕ) :
    Mem.Tidy { m with
      heap := m.heap.filter fun c => decide (c.1 ∉ as), live := m.live.filter (· ≠ p) } where
  heap := by
    intro a ha
    obtain ⟨c, hc, rfl⟩ := List.mem_map.mp ha
    exact h.heap _ (List.mem_map_of_mem (List.mem_of_mem_filter hc))
  live := by
    intro q hq
    exact h.live q (List.mem_of_mem_filter hq)

theorem huftFree_linked {m : Mem} {p : ℕ} {as : List ℕ} (h : Chain.Linked m.heap p as)
    (hnodup : as.Nodup) : huftFree p m = some { m with
      heap := m.heap.filter fun c => decide (c.1 ∉ as), live := m.live.filter (· ≠ p) } := by
  rw [huftFree, Chain.free_linked h hnodup, Option.map_some]

theorem freeBoth_holds {m : Mem} {tls tds : List ℕ} (h : m.Holds tls tds) :
    ∃ m', freeBoth m = some m' ∧ m'.Tidy ∧ m'.frees = m.frees ∧ m'.sets = m.sets := by
  obtain ⟨htls, htds, hdisj⟩ := List.nodup_append.mp h.nodup
  have hrest : Chain.Linked (m.heap.filter fun c => decide (c.1 ∉ tls)) m.td tds := by
    refine h.td.filter (fun a => decide (a ∉ tls)) ?_
    intro a ha
    rw [decide_eq_true_iff]
    intro hmem
    exact hdisj a hmem a ha rfl
  refine ⟨_, ?_, (h.toTidy.free tls m.tl).free tds m.td, rfl, rfl⟩
  rw [freeBoth, huftFree_linked h.tl htls, Option.bind_some]
  exact huftFree_linked hrest htds

/-- The head of a chain that holds a table. -/
theorem Mem.Holds.real {m : Mem} {tls tds : List ℕ} (h : m.Holds tls tds) :
    (⟨m.tl, m.td, m.live⟩ : FreeAll).Real := by
  refine ⟨h.tl_live, h.td_live, ?_⟩
  by_cases h0 : m.tl = 0
  · exact Or.inl h0
  refine Or.inr ?_
  show m.tl ≠ m.td
  intro heq
  have hnodup := h.nodup
  cases tls with
  | nil => exact h0 h.tl
  | cons a tls =>
    cases tds with
    | nil => exact h0 (heq.trans h.td)
    | cons b tds =>
      obtain ⟨ha, -⟩ := h.tl
      obtain ⟨hb, -⟩ := h.td
      have hmem : a ∈ tls ++ b :: tds := by
        rw [← ha, heq, hb]
        simp
      exact (List.nodup_cons.mp hnodup).1 hmem

/-! ### abort_unzip -/

theorem huftFreeAll_keeps (tls tds : List ℕ) :
    Keeps (Mem.Holds tls tds) huftFreeAll (.ok ()) (fun _ => Mem.Holds [] []) := by
  intro m hm hgood
  have hm' : m.logFree.Holds tls tds :=
    ⟨⟨hm.heap, hm.live⟩, hm.tl, hm.td, hm.nodup, hm.tl_live, hm.td_live⟩
  obtain ⟨m', hfree, htidy, hfrees, hsets⟩ := freeBoth_holds hm'
  have hrun : huftFreeAll m = (.ok (), { m' with tl := 0, td := 0 }) := by
    unfold huftFreeAll
    rw [hfree]
  rw [hrun]
  refine Or.inl ⟨rfl, ⟨?_, ?_⟩, ?_⟩
  · intro e he
    rw [show ({ m' with tl := 0, td := 0 } : Mem).frees = _ from hfrees] at he
    rcases List.mem_append.mp he with he | he
    · exact hgood.frees e he
    · rw [List.mem_singleton.mp he]
      exact hm.real
  · intro ll hll
    rw [show ({ m' with tl := 0, td := 0 } : Mem).sets = _ from hsets] at hll
    exact hgood.sets ll hll
  · intro _ _
    exact ⟨⟨htidy.heap, htidy.live⟩, rfl, rfl, List.nodup_nil, Or.inl rfl, Or.inl rfl⟩

/-- With real tables `abort_unzip` gets as far as `longjmp`. -/
theorem abortUnzip_keeps {α : Type} (tls tds : List ℕ) (errorMsg : String)
    (Q : α → Mem → Prop) :
    Keeps (Mem.Holds tls tds) (abortUnzip errorMsg) (.error (.fail errorMsg)) Q := by
  have hfail : Keeps (Mem.Holds [] []) (Guarded.fail (α := α) (.fail errorMsg))
      (.error (.fail errorMsg)) Q := fun m _ hgood => Or.inl ⟨rfl, hgood, fun a h => nomatch h⟩
  exact Refines.bind (y := .ok ()) (huftFreeAll_keeps tls tds) fun _ _ => hfail

theorem run_keeps {α : Type} (tls tds : List ℕ) (y : Except Stop α) :
    Keeps (Mem.Holds tls tds) (run y) y (fun _ => Mem.Holds tls tds) := by
  cases y with
  | ok a => exact Refines.pure (Q := fun _ => Mem.Holds tls tds) a
  | error e =>
    cases e with
    | fail errorMsg => exact abortUnzip_keeps tls tds errorMsg _
    | fault => exact fun m _ hgood => Or.inl ⟨rfl, hgood, fun a h => nomatch h⟩
    | spin => exact fun m _ hgood => Or.inl ⟨rfl, hgood, fun a h => nomatch h⟩

/-! ### huft_build -/

section

variable (alloc : Chain.Malloc)

/-- The addresses of the tables of a set. -/
def tableAddrs (built : Built) (m : Mem) : List ℕ :=
  alloc.addrs built.tables.length m.mallocs (m.heap.map Prod.fst)

theorem allocTables_tidy (built : Built) {m : Mem} (h : m.Tidy) :
    (allocTables alloc built m).2.Tidy where
  heap := by
    intro a ha
    have hmem : a ∈ tableAddrs alloc built m ++ m.heap.map Prod.fst := by
      rw [← Chain.map_fst_link (tableAddrs alloc built m), ← List.map_append]
      exact ha
    rcases List.mem_append.mp hmem with ha | ha
    · exact (Chain.addrs_mem alloc a ha).2.1
    · exact h.heap a ha
  live := by
    intro p hp
    rcases List.mem_append.mp hp with hp | hp
    · exact (Chain.addrs_mem alloc p (List.mem_of_mem_take hp)).2.1
    · exact h.live p hp

/-- The chains that are there stay, and the new tables are no part of them. -/
theorem allocTables_linked (built : Built) {m : Mem} {p : ℕ} {as : List ℕ}
    (h : Chain.Linked m.heap p as) : Chain.Linked (allocTables alloc built m).2.heap p as ∧
      ∀ a ∈ as, a ∉ tableAddrs alloc built m := by
  have hnew : ∀ a ∈ as, a ∉ tableAddrs alloc built m := by
    intro a ha hmem
    exact (Chain.addrs_mem alloc a hmem).2.2 (h.mem a ha)
  refine ⟨h.append _ ?_, hnew⟩
  rw [Chain.map_fst_link]
  exact hnew

theorem allocTables_marked {built : Built} (m : Mem) (hflag : built.flagged = true) :
    (allocTables alloc built m).1 &&& 1 = 1 := by
  show (if built.flagged then _ else _) &&& 1 = 1
  rw [if_pos hflag, Nat.and_one_is_mod, Nat.or_mod_two_eq_one]
  exact Or.inr rfl

theorem allocTables_table {built : Built} (m : Mem) (htables : built.tables ≠ []) :
    ∃ a, (allocTables alloc built m).1 - ((allocTables alloc built m).1 &&& 1) = a ∧
      (built.flagged = false → (allocTables alloc built m).1 = a) ∧ a % 2 = 0 ∧
      a ∈ (allocTables alloc built m).2.live ∧
      Chain.Linked (allocTables alloc built m).2.heap a (tableAddrs alloc built m) := by
  have hmem : ∀ a ∈ tableAddrs alloc built m, a ≠ 0 ∧ a % 2 = 0 ∧ a ∉ m.heap.map Prod.fst :=
    Chain.addrs_mem alloc
  have hlink := Chain.linked_link (Chain.nodup_addrs alloc built.tables.length m.mallocs
    (m.heap.map Prod.fst)) (fun h0 => (hmem 0 h0).1 rfl) m.heap
  cases has : tableAddrs alloc built m with
  | nil =>
    have hlen : (tableAddrs alloc built m).length = built.tables.length := Chain.length_addrs ..
    rw [has] at hlen
    exact absurd (List.length_eq_zero_iff.mp hlen.symm) htables
  | cons a as =>
    have has' : alloc.addrs built.tables.length m.mallocs (m.heap.map Prod.fst) = a :: as := has
    have heven : a % 2 = 0 := (hmem a (by rw [has]; exact List.mem_cons_self)).2.1
    have hp : (allocTables alloc built m).1 = if built.flagged then a ||| 1 else a := by
      show (if built.flagged then (tableAddrs alloc built m).headD 1 ||| 1
        else (tableAddrs alloc built m).headD 1) = _
      rw [has]
      rfl
    have hmark : (a ||| 1) = a + 1 := by
      have hor := Nat.two_pow_add_eq_or_of_lt (i := 1) (b := 1) (by decide) (a / 2)
      have hhalf : 2 ^ 1 * (a / 2) = a := by omega
      rw [hhalf] at hor
      exact hor.symm
    rw [has'] at hlink
    refine ⟨a, ?_, fun hflag => by rw [hp, hflag]; rfl, heven, ?_, ?_⟩
    · rw [hp, Nat.and_one_is_mod]
      split <;> omega
    · show a ∈ (tableAddrs alloc built m).take 1 ++ m.live
      rw [has]
      exact List.mem_cons_self
    · show Chain.Linked (Chain.link (tableAddrs alloc built m) ++ m.heap) a (a :: as)
      rw [has]
      exact hlink

/-- The mark tells what `huft_build` found. -/
theorem allocTables_mark {built : Built} (m : Mem)
    (htables : built.flagged = false → built.tables ≠ []) :
    decide ((allocTables alloc built m).1 &&& 1 ≠ 0) = built.flagged := by
  cases hflag : built.flagged with
  | true =>
    rw [allocTables_marked alloc m hflag]
    rfl
  | false =>
    obtain ⟨a, -, hp, heven, -⟩ := allocTables_table alloc m (htables hflag)
    rw [hp hflag, Nat.and_one_is_mod, heven]
    rfl

end

/-! ### Marked pointers -/

theorem huftFree_marked {m : Mem} (hm : m.Tidy) {p : ℕ} (hp : p &&& 1 = 1) :
    huftFree p m = none := by
  rw [Nat.and_one_is_mod] at hp
  have hmem : p ∉ m.heap.map Prod.fst := by
    intro h
    have := hm.heap p h
    omega
  rw [huftFree, Chain.free_eq_none (by omega) hmem, Option.map_none]

theorem not_mem_live_of_marked {m : Mem} (hm : m.Tidy) {p : ℕ} (hp : p &&& 1 = 1) :
    ¬ (p = 0 ∨ p ∈ m.live) := by
  rw [Nat.and_one_is_mod] at hp
  rintro (h0 | hmem)
  · omega
  · have := hm.live p hmem
    omega

/-- `abort_unzip` crashes when one of the pointers is marked. -/
theorem abortUnzip_marked {α : Type} {m : Mem} (hm : m.Tidy) (errorMsg : String)
    (hmark : m.tl &&& 1 = 1 ∨
      m.td &&& 1 = 1 ∧ ∃ tls, Chain.Linked m.heap m.tl tls ∧ tls.Nodup)
    (hset : ∃ ll ∈ m.sets, Malformed ll) :
    (abortUnzip (α := α) errorMsg m).1 = .error .fault ∧
      (abortUnzip (α := α) errorMsg m).2.Bad := by
  have hlog : m.logFree.Tidy := ⟨hm.heap, hm.live⟩
  have hnone : freeBoth m.logFree = none := by
    show (huftFree m.tl m.logFree).bind (huftFree m.td) = none
    rcases hmark with htl | ⟨htd, tls, hlink, hnodup⟩
    · rw [huftFree_marked hlog htl]
      rfl
    · rw [huftFree_linked (m := m.logFree) hlink hnodup, Option.bind_some]
      exact huftFree_marked (hlog.free tls m.tl) htd
  have hcrash : huftFreeAll m = (.error .fault, m.logFree) := by
    unfold huftFreeAll
    rw [hnone]
  have hrun : abortUnzip (α := α) errorMsg m = (.error .fault, m.logFree) :=
    Guarded.bind_error hcrash _
  rw [hrun]
  refine ⟨rfl, ⟨⟨m.tl, m.td, m.live⟩, List.mem_append_right _ (List.mem_singleton.mpr rfl), ?_⟩,
    hset⟩
  rintro ⟨htl', htd', -⟩
  rcases hmark with htl | ⟨htd, -⟩
  · exact not_mem_live_of_marked hm htl htl'
  · exact not_mem_live_of_marked hm htd htd'

/-! ### inflate_block -/

section

variable (alloc : Chain.Malloc)

/-- Before a pointer is stored in `inflate_codes_tl`: `inflate_codes_td` is NULL. -/
structure Mem.Spare (m : Mem) : Prop extends m.Tidy where
  td : m.td = 0

/-- `inflate_codes_td` is NULL, and `inflate_codes_tl` leads to tables. -/
def Mem.OnlyTl (m : Mem) : Prop := ∃ tls, m.Holds tls []

/-- Both lead to tables, or are NULL. -/
def Mem.Owned (m : Mem) : Prop := ∃ tls tds, m.Holds tls tds

/-- A good set of codes keeps the history good. -/
theorem good_logSet {m : Mem} (hgood : m.Good) {ll : List ℕ} (hll : ¬ Malformed ll)
    (built : Built) : (allocTables alloc built (m.logSet ll)).2.Good where
  frees := hgood.frees
  sets := by
    intro l hl
    rcases List.mem_append.mp hl with hl | hl
    · exact hgood.sets l hl
    · rw [List.mem_singleton.mp hl]
      exact hll

theorem Mem.Good.congr {m m' : Mem} (h : m.Good) (hfrees : m'.frees = m.frees)
    (hsets : m'.sets = m.sets) : m'.Good :=
  ⟨hfrees ▸ h.frees, hsets ▸ h.sets⟩

/-- A set of codes for `inflate_codes_tl`: where it is bad, `abort_unzip` frees the marked
pointer. -/
theorem storeTl_keeps {α : Type} {ll : List ℕ} {built : Built}
    (hflag : built.flagged = true ↔ Malformed ll)
    (htables : built.flagged = false → built.tables ≠ []) {k : Action α} {y : Except Stop α}
    {R : α → Mem → Prop} (hk : Keeps Mem.OnlyTl k y R) (errorMsg : String) :
    Keeps Mem.Spare
      (do let bad ← storeTl alloc ll built; if bad then abortUnzip errorMsg else k)
      (if built.flagged then .error .fault else y) R := by
  intro m hm hgood
  have htidy := allocTables_tidy alloc built (m := m.logSet ll) ⟨hm.heap, hm.live⟩
  have hstore : storeTl alloc ll built m = (.ok built.flagged,
      { (allocTables alloc built (m.logSet ll)).2 with
        tl := (allocTables alloc built (m.logSet ll)).1 }) := by
    rw [← allocTables_mark alloc (m.logSet ll) htables]
    rfl
  rw [Guarded.bind_ok hstore]
  cases hf : built.flagged with
  | true =>
    have hset : ∃ l ∈ (m.logSet ll).sets, Malformed l :=
      ⟨ll, List.mem_append_right _ (List.mem_singleton.mpr rfl), hflag.mp hf⟩
    obtain ⟨h1, h2⟩ := abortUnzip_marked (α := α) (m := { (allocTables alloc built
      (m.logSet ll)).2 with tl := (allocTables alloc built (m.logSet ll)).1 })
      ⟨htidy.heap, htidy.live⟩ errorMsg (Or.inl (allocTables_marked alloc _ hf)) hset
    exact Or.inr ⟨h1, rfl, h2⟩
  | false =>
    obtain ⟨a, -, hp, -, hlive, hlink⟩ := allocTables_table alloc (m.logSet ll) (htables hf)
    rw [← hp hf] at hlive hlink
    refine hk _ ⟨tableAddrs alloc built (m.logSet ll), ⟨htidy.heap, htidy.live⟩, hlink, hm.td, ?_,
      Or.inr hlive, Or.inl hm.td⟩ ((good_logSet alloc hgood ?_ built).congr rfl rfl)
    · rw [List.append_nil]
      exact Chain.nodup_addrs ..
    · rw [← hflag, hf]
      decide

theorem storeTd_keeps {α : Type} {ll : List ℕ} {built : Built}
    (hflag : built.flagged = true ↔ Malformed ll)
    (htables : built.flagged = false → built.tables ≠ []) {k : Action α} {y : Except Stop α}
    {R : α → Mem → Prop} (hk : Keeps Mem.Owned k y R) (errorMsg : String) :
    Keeps Mem.OnlyTl
      (do let bad ← storeTd alloc ll built; if bad then abortUnzip errorMsg else k)
      (if built.flagged then .error .fault else y) R := by
  rintro m ⟨tls, hm⟩ hgood
  have htidy := allocTables_tidy alloc built (m := m.logSet ll) ⟨hm.heap, hm.live⟩
  obtain ⟨htl, hnew⟩ := allocTables_linked alloc built (m := m.logSet ll) hm.tl
  have hnodup : tls.Nodup := by simpa using hm.nodup
  have hstore : storeTd alloc ll built m = (.ok built.flagged,
      { (allocTables alloc built (m.logSet ll)).2 with
        td := (allocTables alloc built (m.logSet ll)).1 }) := by
    rw [← allocTables_mark alloc (m.logSet ll) htables]
    rfl
  rw [Guarded.bind_ok hstore]
  cases hf : built.flagged with
  | true =>
    have hset : ∃ l ∈ (m.logSet ll).sets, Malformed l :=
      ⟨ll, List.mem_append_right _ (List.mem_singleton.mpr rfl), hflag.mp hf⟩
    obtain ⟨h1, h2⟩ := abortUnzip_marked (α := α) (m := { (allocTables alloc built
      (m.logSet ll)).2 with td := (allocTables alloc built (m.logSet ll)).1 })
      ⟨htidy.heap, htidy.live⟩ errorMsg
      (Or.inr ⟨allocTables_marked alloc _ hf, tls, htl, hnodup⟩) hset
    exact Or.inr ⟨h1, rfl, h2⟩
  | false =>
    obtain ⟨a, -, hp, -, hlive, hlink⟩ := allocTables_table alloc (m.logSet ll) (htables hf)
    rw [← hp hf] at hlive hlink
    refine hk _ ⟨tls, tableAddrs alloc built (m.logSet ll), ⟨htidy.heap, htidy.live⟩, htl, hlink,
      ?_, hm.tl_live.imp_right (List.mem_append_right _), Or.inr hlive⟩
      ((good_logSet alloc hgood ?_ built).congr rfl rfl)
    · refine List.nodup_append.mpr ⟨hnodup, Chain.nodup_addrs .., ?_⟩
      rintro a ha b hb rfl
      exact hnew a ha hb
    · rw [← hflag, hf]
      decide

theorem freeTl_keeps : Keeps Mem.OnlyTl freeTl (.ok ()) (fun _ => Mem.Spare) := by
  rintro m ⟨tls, hm⟩ hgood
  have hnodup : tls.Nodup := by simpa using hm.nodup
  have hrun : freeTl m = (.ok (), { m with
      heap := m.heap.filter fun c => decide (c.1 ∉ tls), live := m.live.filter (· ≠ m.tl) }) := by
    rw [freeTl, huftFree_linked hm.tl hnodup]
  rw [hrun]
  exact Or.inl ⟨rfl, hgood.congr rfl rfl, fun _ _ => ⟨hm.toTidy.free tls m.tl, hm.td⟩⟩

theorem run_onlyTl {α : Type} (y : Except Stop α) :
    Keeps Mem.OnlyTl (run y) y (fun _ => Mem.OnlyTl) :=
  Refines.exists fun tls => run_keeps tls [] y

theorem run_owned {α : Type} (y : Except Stop α) :
    Keeps Mem.Owned (run y) y (fun _ => Mem.Owned) :=
  Refines.exists fun tls => Refines.exists fun tds => run_keeps tls tds y

/-- No table is there. -/
abbrev Mem.Idle : Mem → Prop := Mem.Holds [] []

theorem Mem.Idle.spare {m : Mem} (h : m.Idle) : m.Spare := ⟨h.toTidy, h.td⟩

/-! ### The lengths -/

theorem takeBits_lt {n v : ℕ} {b b' : Bits} (h : takeBits n b = .ok (v, b')) : v < 2 ^ n := by
  obtain ⟨c, -, h⟩ := exists_of_bind_eq_ok h
  obtain ⟨rfl, -⟩ := Prod.mk.inj (Except.ok.inj h)
  rw [maskBits, Nat.and_two_pow_sub_one_eq_mod]
  exact Nat.mod_lt _ (Nat.two_pow_pos n)

theorem bitLengths_le {places ll ll' : List ℕ} {b b' : Bits}
    (h : bitLengths places ll b = .ok (ll', b')) (hll : ∀ l ∈ ll, l ≤ 16) :
    ∀ l ∈ ll', l ≤ 16 := by
  induction places generalizing ll b with
  | nil =>
    obtain ⟨rfl, -⟩ := Prod.mk.inj (Except.ok.inj h)
    exact hll
  | cons place places ih =>
    obtain ⟨⟨v, c⟩, htake, h⟩ := exists_of_bind_eq_ok h
    refine ih h ?_
    intro l hl
    rcases List.mem_or_eq_of_mem_set hl with hl | rfl
    · exact hll l hl
    · have := takeBits_lt htake
      omega

theorem repeatLength_le {total n base l : ℕ} {ll ll' : List ℕ} {b b' : Bits}
    (h : repeatLength total n base l ll b = .ok (ll', b')) (hl : l ≤ 16)
    (hll : ∀ l ∈ ll, l ≤ 16) : ∀ l ∈ ll', l ≤ 16 := by
  obtain ⟨⟨extra, c⟩, -, h⟩ := exists_of_bind_eq_ok h
  dsimp only at h
  split at h
  · cases h
  · obtain ⟨rfl, -⟩ := Prod.mk.inj (Except.ok.inj h)
    intro i hi
    rcases List.mem_append.mp hi with hi | hi
    · exact hll i hi
    · rw [List.eq_of_mem_replicate hi]
      exact hl

theorem codeLength_le {total j l : ℕ} {ll ll' : List ℕ} {b b' : Bits}
    (h : codeLength total j l ll b = .ok (ll', b')) (hl : l ≤ 16) (hll : ∀ l ∈ ll, l ≤ 16) :
    ∀ l ∈ ll', l ≤ 16 := by
  rw [codeLength] at h
  split at h
  · obtain ⟨rfl, -⟩ := Prod.mk.inj (Except.ok.inj h)
    intro i hi
    rcases List.mem_append.mp hi with hi | hi
    · exact hll i hi
    · rw [List.mem_singleton.mp hi]
      omega
  · split at h
    · exact repeatLength_le h hl hll
    · split at h
      · exact repeatLength_le h (by omega) hll
      · exact repeatLength_le h (by omega) hll

/-- The code lengths fit the counts of `huft_build`. -/
theorem codeLengths_le {total bl fuel l : ℕ} {tl : List (List Huft)} {ll ll' : List ℕ}
    {b b' : Bits} (h : codeLengths total bl tl fuel l ll b = .ok (ll', b')) (hl : l ≤ 16)
    (hll : ∀ l ∈ ll, l ≤ 16) : ∀ l ∈ ll', l ≤ 16 := by
  induction fuel generalizing l ll b with
  | zero =>
    obtain ⟨rfl, -⟩ := Prod.mk.inj (Except.ok.inj h)
    exact hll
  | succ fuel ih =>
    rw [codeLengths] at h
    split at h
    · obtain ⟨c, -, h⟩ := exists_of_bind_eq_ok h
      obtain ⟨td, -, h⟩ := exists_of_bind_eq_ok h
      obtain ⟨⟨ll1, c1⟩, hcode, h⟩ := exists_of_bind_eq_ok h
      refine ih h ?_ (codeLength_le hcode hl hll)
      split
      · omega
      · split <;> omega
    · obtain ⟨rfl, -⟩ := Prod.mk.inj (Except.ok.inj h)
      exact hll

/-! ### inflate_block -/

/-- What `huft_build` says of lengths that fit its counts. -/
theorem huftBuild_unmarked {ll : List ℕ} (hll : ∀ l ∈ ll, l ≤ 16) (s : ℕ) (cpExt : CpExt) (m : ℕ)
    (hflag : (huftBuild ll s cpExt m).flagged = false) :
    (huftBuild ll s cpExt m).tables ≠ [] := by
  refine huftBuild_tables hll s cpExt m ?_
  by_contra hover
  rw [(huftBuild_flagged_iff hll s cpExt m).mpr (Or.inl (by omega))] at hflag
  cases hflag

theorem codeLengthsMem_keeps (total : ℕ) {ll : List ℕ} (hll : ∀ l ∈ ll, l ≤ 16) (b : Bits) :
    Keeps Mem.Spare (codeLengthsMem alloc total ll b)
      (if (huftBuild ll 19 ⟨[], []⟩ 7).flagged then .error .fault
        else codeLengths total (huftBuild ll 19 ⟨[], []⟩ 7).m
          (huftBuild ll 19 ⟨[], []⟩ 7).tables total 0 [] b)
      (fun _ => Mem.Spare) := by
  refine storeTl_keeps alloc (huftBuild_flagged_iff hll _ _ _) (huftBuild_unmarked hll _ _ _) ?_ _
  have hk : ∀ y : Except Stop (List ℕ × Bits),
      Keeps Mem.OnlyTl (do let lengths ← run y; freeTl; pure lengths) y (fun _ => Mem.Spare) := by
    intro y
    have hy : (y >>= fun lengths => Except.ok () >>= fun _ => .ok lengths) = y := by
      cases y <;> rfl
    have hrun := Refines.bind (run_onlyTl y) fun lengths _ =>
      Refines.bind freeTl_keeps fun _ _ => Refines.pure (Q := fun _ => Mem.Spare) lengths
    rwa [hy] at hrun
  exact hk _

theorem dynamicTablesMem_keeps (nl : ℕ) {ll : List ℕ} (hll : ∀ l ∈ ll, l ≤ 16) (s : State)
    (b : Bits) :
    Keeps Mem.Spare (dynamicTablesMem alloc nl ll s b) (dynamicTables nl ll s b)
      (fun _ => Mem.Owned) := by
  have htake : ∀ l ∈ ll.take nl, l ≤ 16 := fun l hl => hll l (List.mem_of_mem_take hl)
  have hdrop : ∀ l ∈ ll.drop nl, l ≤ 16 := fun l hl => hll l (List.mem_of_mem_drop hl)
  refine storeTl_keeps alloc (huftBuild_flagged_iff htake _ _ _) (huftBuild_unmarked htake _ _ _)
    ?_ _
  refine storeTd_keeps alloc (huftBuild_flagged_iff hdrop _ _ _) (huftBuild_unmarked hdrop _ _ _)
    ?_ _
  exact Refines.pure (Q := fun _ => Mem.Owned) _

theorem abortUnzip_idle {α : Type} (errorMsg : String) (Q : α → Mem → Prop) :
    Keeps Mem.Idle (abortUnzip errorMsg) (.error (.fail errorMsg)) Q :=
  abortUnzip_keeps [] [] errorMsg Q

theorem run_idle {α : Type} (y : Except Stop α) : Keeps Mem.Idle (run y) y (fun _ => Mem.Idle) :=
  run_keeps [] [] y

/-- Which tables go with the block that the decoder is in. -/
def Fits (s : State) : Mem → Prop :=
  match s.method with
  | .stored => Mem.Idle
  | .codes => Mem.Owned

theorem dynamicBlockMem_keeps (s : State) (b : Bits) :
    Keeps Mem.Idle (dynamicBlockMem alloc s b) (dynamicBlock s b) (fun _ => Mem.Owned) := by
  refine Refines.bind (run_idle _) ?_
  rintro ⟨n, b1⟩ -
  refine Refines.bind (run_idle _) ?_
  rintro ⟨d, b2⟩ -
  refine Refines.bind (run_idle _) ?_
  rintro ⟨c, b3⟩ -
  refine Refines.ite (fun _ => abortUnzip_idle _ _) fun _ => ?_
  refine Refines.bind (run_idle _) ?_
  rintro ⟨ll, b4⟩ hbits
  have hll := bitLengths_le hbits (by simp)
  have hcode := codeLengthsMem_keeps alloc (257 + n + (1 + d)) hll b4
  have hidle : Keeps Mem.Idle _ _ _ := hcode.weaken (fun m hm => Mem.Idle.spare hm)
    fun _ _ _ h => h
  have hnext := Refines.bind (f := fun r => dynamicTablesMem alloc (257 + n) r.1 s r.2)
    (g := fun r => dynamicTables (257 + n) r.1 s r.2) hidle fun r hr => by
      refine dynamicTablesMem_keeps alloc (257 + n) ?_ s r.2
      split at hr
      · cases hr
      · exact codeLengths_le hr (by omega) (by simp)
  rw [← Guarded.ite_error_bind] at hnext
  exact hnext

/-- Two sets of tables, one after the other; the mark of the second is cleared. -/
theorem allocBoth_owned {tl td : Built} (hflag : tl.flagged = false) (htl : tl.tables ≠ [])
    (htd : td.tables ≠ []) {m m1 m2 : Mem} {p q : ℕ} (hm : m.Idle)
    (h1 : allocTables alloc tl m = (p, m1))
    (h2 : allocTables alloc td { m1 with tl := p } = (q, m2)) :
    Mem.Owned { m2 with td := q - (q &&& 1) } := by
  have htidy1 := allocTables_tidy alloc tl hm.toTidy
  obtain ⟨a, -, hp, -, hlive1, hlink1⟩ := allocTables_table alloc m htl
  rw [h1] at htidy1 hp hlive1 hlink1
  obtain rfl : p = a := hp hflag
  have htidy2 := allocTables_tidy alloc td (m := { m1 with tl := p }) ⟨htidy1.heap, htidy1.live⟩
  obtain ⟨b, hq, -, -, hlive2, hlink2⟩ := allocTables_table alloc { m1 with tl := p } htd
  obtain ⟨hkept, hnew⟩ := allocTables_linked alloc td (m := { m1 with tl := p }) hlink1
  have htlptr : m2.tl = p := congrArg (fun r => r.2.tl) h2.symm
  have hsub : ∀ x ∈ m1.live, x ∈ m2.live := by
    intro x hx
    rw [← congrArg (fun r => r.2.live) h2]
    exact List.mem_append_right _ hx
  rw [h2] at htidy2 hq hlive2 hlink2 hkept
  refine ⟨tableAddrs alloc tl m, tableAddrs alloc td { m1 with tl := p },
    ⟨htidy2.heap, htidy2.live⟩, ?_, ?_, ?_, Or.inr ?_, Or.inr ?_⟩
  · show Chain.Linked m2.heap m2.tl _
    rw [htlptr]
    exact hkept
  · show Chain.Linked m2.heap (q - (q &&& 1)) _
    rw [hq]
    exact hlink2
  · refine List.nodup_append.mpr ⟨Chain.nodup_addrs .., Chain.nodup_addrs .., ?_⟩
    rintro x hx y hy rfl
    exact hnew x hx hy
  · show m2.tl ∈ m2.live
    rw [htlptr]
    exact hsub p hlive1
  · show q - (q &&& 1) ∈ m2.live
    rw [hq]
    exact hlive2

/-- The fixed literal codes are a complete set. -/
theorem fixedLengths_built : (huftBuild fixedLengths 257 lit 7).flagged = false ∧
    (huftBuild fixedLengths 257 lit 7).tables ≠ [] := by
  have hkraft : kraft fixedLengths = 2 ^ 16 := by decide +kernel
  have hle : ∀ l ∈ fixedLengths, l ≤ 16 := by decide +kernel
  refine ⟨?_, huftBuild_tables hle 257 lit 7 (Nat.le_of_eq hkraft)⟩
  rw [← Bool.not_eq_true, huftBuild_flagged_iff hle]
  rintro (h | h) <;> omega

/-- The fixed distance codes are an incomplete one, and still there are tables. -/
theorem fixedDistances_built : (huftBuild (List.replicate 30 5) 0 dist 5).tables ≠ [] :=
  huftBuild_tables (by decide) 0 dist 5 (by decide +kernel)

theorem fixedBlockMem_keeps (s : State) (b : Bits) :
    Keeps Mem.Idle (fixedBlockMem alloc s b) (.ok (fixedBlock s b)) (fun _ => Mem.Owned) := by
  intro m hm hgood
  obtain ⟨hflag, htl⟩ := fixedLengths_built
  have htd := fixedDistances_built
  obtain ⟨tl, hlit⟩ : ∃ tl, tl = huftBuild fixedLengths 257 lit 7 := ⟨_, rfl⟩
  obtain ⟨td, hdist⟩ : ∃ td, td = huftBuild (List.replicate 30 5) 0 dist 5 := ⟨_, rfl⟩
  rw [← hlit] at hflag htl
  rw [← hdist] at htd
  rw [fixedBlockMem, fixedBlock, ← hlit, ← hdist]
  refine Or.inl ⟨rfl, hgood.congr rfl rfl, ?_⟩
  intro _ _
  exact allocBoth_owned alloc hflag htl htd hm rfl rfl

theorem storedBlock_method {s s' : State} {b : Bits} (h : storedBlock s b = .ok s') :
    s'.method = .stored := by
  obtain ⟨⟨n, c⟩, -, h⟩ := exists_of_bind_eq_ok h
  obtain ⟨d, -, h⟩ := exists_of_bind_eq_ok h
  split at h
  · cases h
  · rw [← Except.ok.inj h]

theorem dynamicBlock_method {s s' : State} {b : Bits} (h : dynamicBlock s b = .ok s') :
    s'.method = .codes := by
  obtain ⟨⟨n, b1⟩, -, h⟩ := exists_of_bind_eq_ok h
  obtain ⟨⟨d, b2⟩, -, h⟩ := exists_of_bind_eq_ok h
  obtain ⟨⟨c, b3⟩, -, h⟩ := exists_of_bind_eq_ok h
  dsimp only at h
  split at h
  · cases h
  obtain ⟨⟨ll, b4⟩, -, h⟩ := exists_of_bind_eq_ok h
  dsimp only at h
  split at h
  · cases h
  obtain ⟨⟨ll', b5⟩, -, h⟩ := exists_of_bind_eq_ok h
  dsimp only [dynamicTables] at h
  split at h
  · cases h
  · split at h
    · cases h
    · rw [← Except.ok.inj h]
      rfl

/-- A block leaves the tables that go with it. -/
theorem inflateBlockMem_keeps (s : State) :
    Keeps Mem.Idle (inflateBlockMem alloc s) (inflateBlock s) Fits := by
  refine Refines.bind (run_idle _) ?_
  rintro ⟨e, b1⟩ -
  refine Refines.bind (run_idle _) ?_
  rintro ⟨t, b2⟩ -
  refine Refines.ite (fun _ => ?_) fun _ => ?_
  · refine Refines.weaken (run_idle _) (fun _ h => h) ?_
    intro s' m hs' hm
    rw [Fits, storedBlock_method hs']
    exact hm
  refine Refines.ite (fun _ => ?_) fun _ => ?_
  · refine Refines.weaken (fixedBlockMem_keeps alloc _ _) (fun _ h => h) ?_
    intro s' m hs' hm
    rw [← Except.ok.inj hs']
    exact hm
  refine Refines.ite (fun _ => ?_) fun _ => abortUnzip_idle _ _
  refine Refines.weaken (dynamicBlockMem_keeps alloc _ _) (fun _ h => h) ?_
  intro s' m hs' hm
  rw [Fits, dynamicBlock_method hs']
  exact hm

end

/-! ### Inside a block -/

/-- The block that the decoder is in is the same. -/
structure SameBlock (s s' : State) : Prop where
  method : s'.method = s.method
  needAnotherBlock : s'.needAnotherBlock = s.needAnotherBlock

theorem SameBlock.trans {s s1 s2 : State} (h : SameBlock s s1) (h' : SameBlock s1 s2) :
    SameBlock s s2 :=
  ⟨h'.method.trans h.method, h'.needAnotherBlock.trans h.needAnotherBlock⟩

theorem copyPiece_sameBlock (s : State) : SameBlock s (copyPiece s) := ⟨rfl, rfl⟩

theorem copyLoop_sameBlock {fuel : ℕ} {s s' : State} {round : Round}
    (h : copyLoop fuel s = .ok (round, s')) : SameBlock s s' := by
  induction fuel generalizing s with
  | zero => cases h
  | succ fuel ih =>
    rw [copyLoop] at h
    dsimp only at h
    split at h
    · obtain ⟨-, rfl⟩ := Prod.mk.inj (Except.ok.inj h)
      exact ⟨rfl, rfl⟩
    · split at h
      · obtain ⟨-, rfl⟩ := Prod.mk.inj (Except.ok.inj h)
        exact ⟨rfl, rfl⟩
      · exact (copyPiece_sameBlock s).trans (ih h)

theorem copyMatch_sameBlock {t : Huft} {s s' : State} {round : Round}
    (h : copyMatch t s = .ok (round, s')) : SameBlock s s' := by
  obtain ⟨s1, hmatch, h⟩ := exists_of_bind_eq_ok h
  obtain ⟨⟨extra, b1⟩, -, hmatch⟩ := exists_of_bind_eq_ok hmatch
  obtain ⟨⟨t', b2⟩, -, hmatch⟩ := exists_of_bind_eq_ok hmatch
  obtain ⟨⟨extra', b3⟩, -, hmatch⟩ := exists_of_bind_eq_ok hmatch
  have hs1 : SameBlock s s1 := by
    rw [← Except.ok.inj hmatch]
    exact ⟨rfl, rfl⟩
  exact hs1.trans (copyLoop_sameBlock h)

theorem emit_sameBlock (s : State) (byte : UInt8) : SameBlock s (s.emit byte).2 := by
  rw [State.emit]
  dsimp only
  split <;> exact ⟨rfl, rfl⟩

theorem codesRound_sameBlock {s s' : State} {round : Round}
    (h : codesRound s = .ok (round, s')) : SameBlock s s' := by
  rw [codesRound] at h
  split at h
  · exact copyLoop_sameBlock h
  obtain ⟨⟨t, b⟩, -, h⟩ := exists_of_bind_eq_ok h
  dsimp only at h
  split at h
  · obtain rfl : s' = _ := (congrArg Prod.snd (Except.ok.inj h)).symm
    have hs1 : SameBlock s { s with bits := b } := ⟨rfl, rfl⟩
    exact hs1.trans (emit_sameBlock _ _)
  · split at h
    · obtain ⟨-, rfl⟩ := Prod.mk.inj (Except.ok.inj h)
      exact ⟨rfl, rfl⟩
    · have hs1 : SameBlock s { s with bits := b } := ⟨rfl, rfl⟩
      exact hs1.trans (copyMatch_sameBlock h)

theorem inflateCodes_sameBlock {fuel : ℕ} {s s' : State} {full : Bool}
    (h : inflateCodes fuel s = .ok (full, s')) : SameBlock s s' := by
  induction fuel generalizing s with
  | zero => cases h
  | succ fuel ih =>
    obtain ⟨⟨round, s1⟩, hround, h⟩ := exists_of_bind_eq_ok h
    have hs1 := codesRound_sameBlock hround
    cases round with
    | more => exact hs1.trans (ih h)
    | full =>
      obtain ⟨-, rfl⟩ := Prod.mk.inj (Except.ok.inj h)
      exact hs1
    | endOfBlock =>
      obtain ⟨-, rfl⟩ := Prod.mk.inj (Except.ok.inj h)
      exact hs1

theorem inflateStored_sameBlock {n : ℕ} {s s' : State} {full : Bool}
    (h : inflateStored n s = .ok (full, s')) : SameBlock s s' := by
  induction n generalizing s with
  | zero =>
    obtain ⟨-, rfl⟩ := Prod.mk.inj (Except.ok.inj h)
    exact ⟨rfl, rfl⟩
  | succ n ih =>
    obtain ⟨⟨round, s1⟩, hround, h⟩ := exists_of_bind_eq_ok h
    have hs1 : SameBlock s s1 := by
      obtain ⟨⟨byte, b⟩, -, hround⟩ := exists_of_bind_eq_ok hround
      obtain rfl : s1 = _ := (congrArg Prod.snd (Except.ok.inj hround)).symm
      have hread : SameBlock s { s with bits := b, storedN := n } := ⟨rfl, rfl⟩
      exact hread.trans (emit_sameBlock _ _)
    cases round with
    | more => exact hs1.trans (ih h)
    | full =>
      obtain ⟨-, rfl⟩ := Prod.mk.inj (Except.ok.inj h)
      exact hs1
    | endOfBlock => exact hs1.trans (ih h)

/-! ### Windows -/

/-- Which tables there are between blocks and inside one. -/
def Ready (s : State) : Mem → Prop := if s.needAnotherBlock then Mem.Idle else Fits s

section

variable (alloc : Chain.Malloc)

theorem nextBlock_needs {s s' : State} (h : nextBlock s = .ok s') :
    s'.needAnotherBlock = false := by
  rw [nextBlock] at h
  split at h
  · obtain ⟨s1, -, h⟩ := exists_of_bind_eq_ok h
    rw [← Except.ok.inj h]
  · rename_i hneed
    rw [← Except.ok.inj h]
    exact Bool.eq_false_of_not_eq_true hneed

theorem nextBlockMem_keeps (s : State) :
    Keeps (Ready s) (nextBlockMem alloc s) (nextBlock s) Fits := by
  rw [nextBlockMem, nextBlock, Ready]
  cases hneed : s.needAnotherBlock with
  | true =>
    exact Refines.bind (inflateBlockMem_keeps alloc s) fun s' _ =>
      Refines.pure (Q := Fits) { s' with needAnotherBlock := false }
  | false => exact Refines.pure (Q := Fits) s

theorem huftFreeAll_owned : Keeps Mem.Owned huftFreeAll (.ok ()) (fun _ => Mem.Idle) := by
  rintro m ⟨tls, tds, hm⟩ hgood
  exact huftFreeAll_keeps tls tds m hm hgood

theorem inflateCodesMem_keeps (fuel : ℕ) (s : State) :
    Keeps Mem.Owned (inflateCodesMem fuel s) (inflateCodes fuel s)
      (fun r m => if r.1 then m.Owned else m.Idle) := by
  have hy : ∀ y : Except Stop (Bool × State),
      (y >>= fun r => if r.1 then .ok r else (Except.ok () >>= fun _ => .ok r)) = y := by
    rintro (e | ⟨full, s⟩)
    · rfl
    · cases full <;> rfl
  have hbind := Refines.bind (run_owned (inflateCodes fuel s)) (Q := fun _ => Mem.Owned)
    (f := fun r => if r.1 then pure r else do huftFreeAll; pure r)
    (g := fun r => if r.1 then .ok r else (Except.ok () >>= fun _ => .ok r))
    (R := fun r m => if r.1 then m.Owned else m.Idle) ?_
  · rw [hy] at hbind
    exact hbind
  rintro ⟨full, s'⟩ -
  cases full with
  | true =>
    exact Refines.pure (Q := fun (r : Bool × State) (m : Mem) =>
      if r.1 then m.Owned else m.Idle) (true, s')
  | false =>
    exact Refines.bind huftFreeAll_owned fun _ _ =>
      Refines.pure (Q := fun (r : Bool × State) (m : Mem) =>
        if r.1 then m.Owned else m.Idle) (false, s')

/-- A block goes on with the next window, or is over and leaves no tables. -/
theorem inflateMethodMem_keeps (fuel : ℕ) {s : State} (hneed : s.needAnotherBlock = false) :
    Keeps (Fits s) (inflateMethodMem fuel s) (inflateMethod fuel s)
      (fun r m => if r.1 then Ready r.2 m else m.Idle) := by
  rw [inflateMethodMem, inflateMethod, Fits]
  cases hmethod : s.method with
  | stored =>
    refine Refines.weaken (run_idle _) (fun _ h => h) ?_
    rintro ⟨full, s'⟩ m hs' hm
    obtain ⟨hm', hneed'⟩ := inflateStored_sameBlock hs'
    cases full with
    | true =>
      show Ready s' m
      rw [Ready, hneed', hneed, Fits, hm', hmethod]
      exact hm
    | false => exact hm
  | codes =>
    refine Refines.weaken (inflateCodesMem_keeps fuel s) (fun _ h => h) ?_
    rintro ⟨full, s'⟩ m hs' hm
    obtain ⟨hm', hneed'⟩ := inflateCodes_sameBlock hs'
    cases full with
    | true =>
      show Ready s' m
      rw [Ready, hneed', hneed, Fits, hm', hmethod]
      exact hm
    | false => exact hm

theorem windowLoopMem_keeps (fuel rounds : ℕ) (s : State) :
    Keeps (Ready s) (windowLoopMem alloc fuel rounds s) (windowLoop fuel rounds s)
      (fun r m => if r.1 then Ready r.2 m else m.Idle) := by
  induction rounds generalizing s with
  | zero => exact fun m _ hgood => Or.inl ⟨rfl, hgood, fun a h => nomatch h⟩
  | succ rounds ih =>
    refine Refines.ite (fun hend => ?_) fun _ => ?_
    · intro m hm hgood
      rw [Ready, hend.1] at hm
      refine Or.inl ⟨rfl, hgood, ?_⟩
      intro r hr
      rw [← Except.ok.inj hr]
      exact hm
    refine Refines.bind (nextBlockMem_keeps alloc s) ?_
    intro s1 hs1
    refine Refines.bind (inflateMethodMem_keeps fuel (nextBlock_needs hs1)) ?_
    rintro ⟨full, s2⟩ -
    cases full with
    | true =>
      exact Refines.pure (Q := fun (r : Bool × State) (m : Mem) =>
        if r.1 then Ready r.2 m else m.Idle) (true, calculateGunzipCrc s2)
    | false =>
      exact Refines.weaken (ih { s2 with needAnotherBlock := true }) (fun _ h => h)
        fun _ _ _ h => h

theorem unzipLoopMem_keeps (takes : ℕ → Bool) (fuel rounds n : ℕ) (s : State) (out : Output) :
    Keeps (Ready s) (unzipLoopMem alloc takes fuel rounds n s out)
      (unzipLoop takes fuel rounds n s out) (fun _ => Mem.Idle) := by
  induction rounds generalizing n s out with
  | zero => exact fun m _ hgood => Or.inl ⟨rfl, hgood, fun a h => nomatch h⟩
  | succ rounds ih =>
    refine Refines.bind (windowLoopMem_keeps alloc fuel fuel { s with outbufCount := 0 }) ?_
    rintro ⟨r, s1⟩ -
    cases hwrite : transformerWrite takes out s1.outbuf with
    | error e =>
      dsimp only
      rw [hwrite]
      exact fun m _ hgood => Or.inl ⟨rfl, hgood, fun a h => nomatch h⟩
    | ok out' =>
      dsimp only
      rw [hwrite]
      cases r with
      | true => exact ih (n + s1.outbufCount) s1 out'
      | false => exact Refines.pure (Q := fun _ => Mem.Idle) _

/-- The decoder with the tables in memory comes to what the decoder comes to, and keeps to real
tables as long as there is no bad set of codes. -/
theorem inflateUnzipInternalMem_keeps (takes : ℕ → Bool) (fuel : ℕ) (window : Window)
    (input : Input) (out : Output) :
    Keeps Mem.Idle (inflateUnzipInternalMem alloc takes fuel window input out)
      (inflateUnzipInternal takes fuel window input out) (fun _ => Mem.Idle) := by
  refine Refines.bind (unzipLoopMem_keeps alloc takes fuel fuel 0 (freshState window input) out) ?_
  rintro ⟨n, s, out'⟩ -
  exact Refines.pure (Q := fun _ => Mem.Idle) _

theorem inflateMembers_good_or_bad (members : List Member) {m : Mem} (hm : m.Idle)
    (hgood : m.Good) :
    (inflateMembers alloc members m).Good ∨ (inflateMembers alloc members m).Bad := by
  induction members generalizing m with
  | nil => exact Or.inl hgood
  | cons c cs ih =>
    have hkeeps := inflateUnzipInternalMem_keeps alloc c.takes c.fuel c.window c.input c.out m hm
      hgood
    rw [inflateMembers]
    cases hrun : inflateUnzipInternalMem alloc c.takes c.fuel c.window c.input c.out m with
    | mk r m' =>
      rw [hrun] at hkeeps
      cases r with
      | error e =>
        rcases hkeeps with ⟨-, hgood', -⟩ | ⟨-, -, hbad⟩
        · exact Or.inl hgood'
        · exact Or.inr hbad
      | ok a =>
        rcases hkeeps with ⟨ha, hgood', hidle⟩ | ⟨herr, -⟩
        · exact ih (hidle a ha.symm) hgood'
        · cases herr

/-- In a run over any members, `huft_free_all` is called for real tables only, if and only if all
sets of codes of the dynamic blocks that the run gets to are good ones. -/
theorem inflateMembers_frees_iff (members : List Member) :
    (∀ e ∈ (inflateMembers alloc members .fresh).frees, e.Real) ↔
      ∀ ll ∈ (inflateMembers alloc members .fresh).sets, ¬ Malformed ll := by
  have hidle : Mem.fresh.Idle :=
    ⟨⟨by simp [Mem.fresh], by simp [Mem.fresh]⟩, rfl, rfl, List.nodup_nil, Or.inl rfl, Or.inl rfl⟩
  have hgood : Mem.fresh.Good := ⟨by simp [Mem.fresh], by simp [Mem.fresh]⟩
  rcases inflateMembers_good_or_bad alloc members hidle hgood with h | h
  · exact iff_of_true h.frees h.sets
  · obtain ⟨e, he, hreal⟩ := h.frees
    obtain ⟨ll, hll, hbad⟩ := h.sets
    exact iff_of_false (fun hall => hreal (hall e he)) (fun hall => hall ll hll hbad)

end

/-- An allocator. -/
def sumMalloc : Chain.Malloc where
  addr := fun _ used => 2 * (used.sum + 1)
  ne_zero := by
    intro n used
    omega
  even := by
    intro n used
    omega
  fresh := by
    intro n used hmem
    have := List.le_sum_of_mem hmem
    omega

/-- A dynamic block with four bit length codes of one bit. -/
def fourCodes : Member where
  takes := fun _ => true
  fuel := 1
  window := fun _ => 0
  input := ⟨[5, 0, 146, 4], [], fun _ => some 0, 0, -1⟩
  out := ⟨[], 0⟩

/-- There the marked pointer 1 is freed. -/
theorem inflateMembers_fourCodes :
    ⟨1, 0, []⟩ ∈ (inflateMembers sumMalloc [fourCodes] .fresh).frees ∧
      ¬ (⟨1, 0, []⟩ : FreeAll).Real := by
  constructor
  · have hfrees : (inflateMembers sumMalloc [fourCodes] .fresh).frees = [⟨1, 0, []⟩] := by
      decide +kernel
    rw [hfrees]
    exact List.mem_singleton.mpr rfl
  · rintro ⟨h | h, -⟩
    · cases h
    · cases h

end Rustybox.Gunzip
