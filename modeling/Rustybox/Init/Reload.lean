import Rustybox.Init.Reaping

/-!
# One child an entry

A supervised entry is started when it records no child, so while the table stays
as it is an entry has one child at most.  A reload throws the table away with its
records and reads a new one, in which every entry looks as if it had never run, and
the next pass starts it again whether or not its child from before is running.

To say so an entry must be recognised across reloads.  `entryId` takes its text, and
its place among the lines of the same text; that no two entries share one is
`entryId_injective`.  The invariant `Owned` says that the children started since the
last reload are recorded where they should be.  So a second child of an entry can
only come from a pass that begins with a child left behind: without such a pass there
is none (`single_of_not_overtakes`), and after the beginning of one the run can go on
to a second child (`starts_twice_of_overtakes`).
-/

namespace Rustybox.Init

open State

variable {s s' : State} {l : Label} {actions actions' : List Action}

/-! ### The identity of an entry -/

theorem key_eq_of_entryId_eq {i j : ℕ} {a b : Action}
    (h : entryId actions i a = entryId actions' j b) : a.key = b.key := by
  simp only [entryId, EntryId.mk.injEq] at h
  simp only [Action.key, h]

theorem countP_take_map_key (k : String × UInt8 × String) (i : ℕ) :
    (actions.take i).countP (fun b => b.key = k) =
      ((actions.map Action.key).take i).countP (fun x => x = k) := by
  rw [← List.map_take, List.countP_map]
  rfl

theorem entryId_congr {a a' : Action} (i : ℕ)
    (hkeys : actions'.map Action.key = actions.map Action.key) (ha : a'.key = a.key) :
    entryId actions' i a' = entryId actions i a := by
  have hfields := ha
  simp only [Action.key, Prod.mk.injEq] at hfields
  rw [entryId, entryId, countP_take_map_key, countP_take_map_key, hkeys, ha, hfields.1,
    hfields.2.1, hfields.2.2]

theorem countP_take_lt {i j : ℕ} {a : Action} (hij : i < j) (ha : actions[i]? = some a) :
    (actions.take i).countP (fun b => b.key = a.key) <
      (actions.take j).countP (fun b => b.key = a.key) := by
  have hsucc : (actions.take (i + 1)).countP (fun b => b.key = a.key) =
      (actions.take i).countP (fun b => b.key = a.key) + 1 := by
    rw [List.take_add_one, ha, List.countP_append]
    simp
  have hle : (actions.take (i + 1)).countP (fun b => b.key = a.key) ≤
      (actions.take j).countP (fun b => b.key = a.key) :=
    (List.take_sublist_take_left hij).countP_le
  omega

/-- **No two entries of a table have the same identity.** -/
theorem entryId_injective {i j : ℕ} {a b : Action} (ha : actions[i]? = some a)
    (hb : actions[j]? = some b) (h : entryId actions i a = entryId actions j b) : i = j := by
  have hkey := key_eq_of_entryId_eq h
  have hnth : (actions.take i).countP (fun c => c.key = a.key) =
      (actions.take j).countP (fun c => c.key = a.key) := by
    have h' := congrArg EntryId.nth h
    rwa [entryId, entryId, ← hkey] at h'
  rcases Nat.lt_trichotomy i j with hij | hij | hij
  · exact absurd hnth (Nat.ne_of_lt (countP_take_lt hij ha))
  · exact hij
  · have hlt := countP_take_lt hij hb
    rw [← hkey] at hlt
    exact absurd hnth (Nat.ne_of_gt hlt)

theorem map_key_set {i : ℕ} {a : Action} (ha : actions[i]? = some a) (p : Option Pid) :
    (actions.set i { a with pid := p }).map Action.key = actions.map Action.key := by
  rw [List.map_set]
  refine List.ext_getElem? fun j => ?_
  rw [List.getElem?_set]
  split
  · next hij =>
    subst hij
    split
    · rw [List.getElem?_map, ha]
      rfl
    · next hlt =>
      rw [eq_comm, List.getElem?_eq_none_iff]
      exact Nat.le_of_not_lt hlt
  · rfl

/-! ### Children and their entries -/

/-- The actions of `actionKeyword`. -/
def actionCodes : List UInt8 :=
  [actSysinit, actWait, actOnce, actRespawn, actAskfirst, actCtrlaltdel, actShutdown, actRestart]

theorem mask_apart : ∀ k ∈ actionCodes, k &&& (actRespawn ||| actAskfirst) ≠ 0 →
    k &&& actCtrlaltdel = 0 ∧ k &&& actShutdown = 0 := by decide +kernel

namespace State

/-- An entry records the child `p` that was started for `id`. -/
def Owns (s : State) (id : EntryId) (p : Pid) : Prop :=
  ∃ i a, s.actions[i]? = some a ∧ entryId s.actions i a = id ∧ a.pid = some p

/-- A child of an entry that was started since the last reload is recorded by it. -/
def Owned (s : State) : Prop :=
  ∀ c ∈ s.children, c.gen ≤ s.gen ∧ (c.gen = s.gen → ∀ id, c.origin = some id → s.Owns id c.pid)

/-- No entry has two running children. -/
def Single (s : State) : Prop :=
  ∀ c ∈ s.children, ∀ d ∈ s.children, c.running = true → d.running = true →
    c.origin ≠ none → c.origin = d.origin → c.pid = d.pid

/-- A child from before the last reload that is still running, of a supervised entry
that the table has and that records no child. -/
def LeftBehind (s : State) (c : Child) : Prop :=
  c ∈ s.children ∧ c.running = true ∧ c.gen < s.gen ∧ ∃ i a, s.actions[i]? = some a ∧
    a.Supervised ∧ a.pid = none ∧ c.origin = some (entryId s.actions i a)

/-- A pass over the supervised entries begins while a child is left behind. -/
def Overtakes (s : State) : Label → Prop
  | .tau => (∃ any, s.ctrl = .check .first [] any) ∧ ∃ c, s.LeftBehind c
  | _ => False

/-- What is known when `run_actions` was called by `caller`. -/
def Clear (s : State) (mask : UInt8) : Caller → Prop
  | .boot _ => s.gen = 0
  | .respawn => ∀ c, ¬ s.LeftBehind c
  | .ctrlAltDel _ _ => mask = actCtrlaltdel
  | .shutdown _ => mask = actShutdown

/-- A pass over the supervised entries goes on with no child left behind. -/
def PassClear (s : State) : Prop :=
  match s.ctrl with
  | .runActions mask _ caller | .waitFor _ mask _ caller => s.Clear mask caller
  | _ => True

/-- Every entry has one of the actions of `actionKeyword`. -/
def Keyed (s : State) : Prop := ∀ a ∈ s.actions, a.action ∈ actionCodes

theorem leftBehind_iff {c : Child} : s.LeftBehind c ↔
    c ∈ s.children ∧ c.running = true ∧ c.gen < s.gen ∧ ∃ x ∈ s.actions.zipIdx,
      x.1.Supervised ∧ x.1.pid = none ∧ c.origin = some (entryId s.actions x.2 x.1) := by
  refine and_congr_right' (and_congr_right' (and_congr_right' ⟨?_, ?_⟩))
  · rintro ⟨i, a, ha, h⟩
    exact ⟨(a, i), List.mem_zipIdx_iff_getElem?.mpr ha, h⟩
  · rintro ⟨⟨a, i⟩, ha, h⟩
    exact ⟨i, a, List.mem_zipIdx_iff_getElem?.mp ha, h⟩

instance (s : State) (c : Child) : Decidable (s.LeftBehind c) := decidable_of_iff _ leftBehind_iff.symm

instance (s : State) : Decidable (∃ c, s.LeftBehind c) :=
  decidable_of_iff (∃ c ∈ s.children, s.LeftBehind c)
    ⟨fun ⟨c, _, h⟩ => ⟨c, h⟩, fun ⟨c, h⟩ => ⟨c, h.1, h⟩⟩

instance (s : State) (l : Label) : Decidable (s.Overtakes l) :=
  match l with
  | .tau => inferInstanceAs (Decidable (_ ∧ _))
  | .exit _ | .adopt _ | .signal _ | .fork _ | .reap _ | .stillAlive | .echild | .readInittab _
  | .execvp _ => inferInstanceAs (Decidable False)

instance (s : State) : Decidable s.Single :=
  inferInstanceAs (Decidable (∀ c ∈ s.children, ∀ d ∈ s.children, c.running = true →
    d.running = true → c.origin ≠ none → c.origin = d.origin → c.pid = d.pid))

end State

/-- An entry keeps its child as long as its record is not touched. -/
theorem owns_of_map {f : Action → Action} {id : EntryId} {p : Pid}
    (hactions : s'.actions = s.actions.map f) (hkey : ∀ a, (f a).key = a.key)
    (hpid : ∀ a, a.pid = some p → (f a).pid = some p) (h : s.Owns id p) : s'.Owns id p := by
  obtain ⟨i, a, ha, rfl, hp⟩ := h
  refine ⟨i, f a, ?_, ?_, hpid a hp⟩
  · rw [hactions, List.getElem?_map, ha]
    rfl
  · refine entryId_congr i ?_ (hkey a)
    rw [hactions, List.map_map]
    exact List.map_congr_left fun b _ => hkey b

theorem owns_of_set {i : ℕ} {a : Action} {q p : Pid} {id : EntryId} (ha : s.actions[i]? = some a)
    (hnone : a.pid = none) (hactions : s'.actions = s.actions.set i { a with pid := some q })
    (h : s.Owns id p) : s'.Owns id p := by
  obtain ⟨j, b, hb, rfl, hp⟩ := h
  have hij : i ≠ j := by
    rintro rfl
    cases ha.symm.trans hb
    cases hnone.symm.trans hp
  refine ⟨j, b, ?_, entryId_congr j (by rw [hactions, map_key_set ha]) rfl, hp⟩
  rw [hactions, List.getElem?_set_ne hij]
  exact hb

theorem owns_set_self {i : ℕ} {a : Action} {p : Pid} (ha : s.actions[i]? = some a)
    (hactions : s'.actions = s.actions.set i { a with pid := some p }) :
    s'.Owns (entryId s.actions i a) p := by
  refine ⟨i, { a with pid := some p }, ?_, ?_, rfl⟩
  · rw [hactions, List.getElem?_set_self (List.getElem?_eq_some_iff.mp ha).1]
  · exact entryId_congr i (by rw [hactions, map_key_set ha]) rfl

theorem owns_congr {id : EntryId} {p : Pid} (hactions : s'.actions = s.actions) (h : s.Owns id p) :
    s'.Owns id p := by
  rw [Owns] at h ⊢
  rw [hactions]
  exact h

/-- A child that was there before is still owned if no reload comes between and its
entry still records it. -/
theorem owned_keep {c : Child} (ho : s.Owned) (hc : c ∈ s.children) (hgen : s'.gen = s.gen)
    (hkeep : ∀ id, s.Owns id c.pid → s'.Owns id c.pid) :
    c.gen ≤ s'.gen ∧ (c.gen = s'.gen → ∀ id, c.origin = some id → s'.Owns id c.pid) := by
  rw [hgen]
  exact ⟨(ho c hc).1, fun hg id hid => hkeep id ((ho c hc).2 hg id hid)⟩

theorem owned_step (h : step s l = some s') (ho : s.Owned) : s'.Owned := by
  intro c' hc'
  cases step_effect h with
  | quiet _ hactions hchildren hgen =>
    exact owned_keep ho (hchildren ▸ hc') hgen fun _ => owns_congr hactions
  | exited hactions hchildren hgen =>
    rw [hchildren] at hc'
    obtain ⟨c, hc, rfl⟩ := List.mem_map.mp hc'
    have hkeep := owned_keep ho hc hgen fun _ => owns_congr hactions
    split
    · exact hkeep
    · exact hkeep
  | forked _ hfresh hactions hchildren hgen =>
    rcases List.mem_cons.mp (hchildren ▸ hc') with rfl | hc
    · exact ⟨Nat.le_of_eq hgen.symm, fun _ id hid => nomatch hid⟩
    · exact owned_keep ho hc hgen fun _ => owns_congr hactions
  | started hctrl ha hmask hsup hpid hfresh hactions hchildren hgen =>
    rcases List.mem_cons.mp (hchildren ▸ hc') with rfl | hc
    · refine ⟨Nat.le_of_eq hgen.symm, fun _ id hid => ?_⟩
      cases hid
      exact owns_set_self ha hactions
    · exact owned_keep ho hc hgen fun _ => owns_of_set ha hpid hactions
  | @marked p _ hctrl hzombie hactions hchildren hgen =>
    obtain ⟨hc, hne⟩ := mem_reaped.mp (hchildren ▸ hc')
    refine owned_keep ho hc hgen fun _ => owns_of_map hactions ?_ ?_
    · intro a
      split <;> rfl
    · intro a ha
      have hap : a.pid ≠ some p := fun hap => hne (Option.some.inj (ha.symm.trans hap))
      rw [if_neg hap]
      exact ha
  | unmarked hctrl hzombie hactions hchildren hgen =>
    exact owned_keep ho (mem_reaped.mp (hchildren ▸ hc')).1 hgen fun _ => owns_congr hactions
  | reloaded hactions hchildren hgen =>
    -- the children there are were all started before
    have hle := (ho c' (hchildren ▸ hc')).1
    rw [hgen]
    exact ⟨by omega, fun hg => by omega⟩

/-- An entry that records no child has none that was started since the last reload. -/
theorem gen_lt_of_owned {i : ℕ} {a : Action} {c : Child} (ho : s.Owned)
    (ha : s.actions[i]? = some a) (hpid : a.pid = none) (hc : c ∈ s.children)
    (horigin : c.origin = some (entryId s.actions i a)) : c.gen < s.gen := by
  refine Nat.lt_of_le_of_ne (ho c hc).1 fun hgen => ?_
  obtain ⟨j, b, hb, hid, hp⟩ := (ho c hc).2 hgen _ horigin
  cases entryId_injective hb ha hid
  cases ha.symm.trans hb
  cases hpid.symm.trans hp

/-! ### Second children -/

theorem single_of_subset (hs : s.Single)
    (h : ∀ c' ∈ s'.children, c'.running = true → c'.origin ≠ none →
      ∃ c ∈ s.children, c.running = true ∧ c.pid = c'.pid ∧ c.origin = c'.origin) :
    s'.Single := by
  intro c' hc' d' hd' hcr hdr hco horigin
  obtain ⟨c, hc, hcr, hcp, hco'⟩ := h c' hc' hcr hco
  obtain ⟨d, hd, hdr, hdp, hdo'⟩ := h d' hd' hdr (horigin ▸ hco)
  rw [← hcp, ← hdp]
  exact hs c hc d hd hcr hdr (hco' ▸ hco) (by rw [hco', hdo', horigin])

/-- A pass that has left no child behind starts no entry twice. -/
theorem origin_ne_of_passClear {mask : UInt8} {i : ℕ} {caller : Caller} {a : Action} {c : Child}
    (ho : s.Owned) (hk : s.Keyed) (hp : s.PassClear) (hctrl : s.ctrl = .runActions mask i caller)
    (ha : s.actions[i]? = some a) (hmask : a.action &&& mask ≠ 0) (hsup : a.Supervised)
    (hpid : a.pid = none) (hc : c ∈ s.children) (hr : c.running = true) :
    c.origin ≠ some (entryId s.actions i a) := by
  intro horigin
  have hgen := gen_lt_of_owned ho ha hpid hc horigin
  rw [PassClear, hctrl] at hp
  have hapart := mask_apart _ (hk a (List.mem_of_getElem? ha)) hsup
  cases caller with
  | boot => exact absurd (hp ▸ hgen) (Nat.not_lt_zero _)
  | respawn => exact hp c ⟨hc, hr, hgen, i, a, ha, hsup, hpid, horigin⟩
  | ctrlAltDel => exact hmask (hp ▸ hapart.1)
  | shutdown => exact hmask (hp ▸ hapart.2)

theorem single_step (h : step s l = some s') (ho : s.Owned) (hk : s.Keyed) (hp : s.PassClear)
    (hs : s.Single) : s'.Single := by
  cases step_effect h with
  | quiet _ _ hchildren _ | reloaded _ hchildren _ =>
    exact single_of_subset hs fun c hc hr _ => ⟨c, hchildren ▸ hc, hr, rfl, rfl⟩
  | exited _ hchildren _ =>
    refine single_of_subset hs fun c' hc' hr _ => ?_
    rw [hchildren] at hc'
    obtain ⟨c, hc, rfl⟩ := List.mem_map.mp hc'
    split at hr
    · cases hr
    · next hne => exact ⟨c, hc, hr, by rw [if_neg hne], by rw [if_neg hne]⟩
  | forked _ _ _ hchildren _ =>
    refine single_of_subset hs fun c hc hr hne => ?_
    rcases List.mem_cons.mp (hchildren ▸ hc) with rfl | hc
    · exact absurd rfl hne
    · exact ⟨c, hc, hr, rfl, rfl⟩
  | marked _ _ _ hchildren _ | unmarked _ _ _ hchildren _ =>
    exact single_of_subset hs fun c hc hr _ =>
      ⟨c, (mem_reaped.mp (hchildren ▸ hc)).1, hr, rfl, rfl⟩
  | started hctrl ha hmask hsup hpid _ _ hchildren _ =>
    intro c hc d hd hcr hdr hne horigin
    rw [hchildren] at hc hd
    rcases List.mem_cons.mp hc with rfl | hc <;> rcases List.mem_cons.mp hd with rfl | hd
    · rfl
    · exact absurd horigin.symm (origin_ne_of_passClear ho hk hp hctrl ha hmask hsup hpid hd hdr)
    · exact absurd horigin (origin_ne_of_passClear ho hk hp hctrl ha hmask hsup hpid hc hcr)
    · exact hs c hc d hd hcr hdr hne horigin

/-! ### The pass over the table -/

theorem mem_actionCodes {keyword : String} {action : UInt8}
    (h : actionKeyword keyword = some action) : action ∈ actionCodes := by
  rw [actionKeyword.eq_def] at h
  split at h
  case h_9 => cases h
  all_goals
    cases h
    decide

theorem keyed_parseInittab (content : Option String) :
    ∀ a ∈ (parseInittab content).1, a.action ∈ actionCodes := by
  have hdefault : ∀ a ∈ defaultInittab, a.action ∈ actionCodes := by decide
  cases content with
  | none => exact hdefault
  | some content =>
    intro a ha
    rw [parseInittab] at ha
    dsimp only at ha
    split at ha
    · exact hdefault a ha
    · obtain ⟨entry, hentry, ha⟩ := List.mem_flatMap.mp ha
      obtain ⟨⟨raw, lineno⟩, -, rfl⟩ := List.mem_map.mp hentry
      rw [parseEntry] at ha
      split at ha
      · exact absurd ha (by simp)
      split at ha
      · split at ha
        · next action haction =>
          rw [List.mem_singleton.mp ha]
          exact mem_actionCodes haction
        · exact absurd ha (by simp)
      · exact absurd ha (by simp)

theorem keyed_step (h : step s l = some s') (hk : s.Keyed) : s'.Keyed := by
  intro a' ha'
  cases step_effect h with
  | quiet _ hactions | exited hactions | forked _ _ hactions | unmarked _ _ hactions =>
    exact hk a' (hactions ▸ ha')
  | @started _ i _ a _ _ _ ha _ _ _ _ hactions =>
    rw [hactions] at ha'
    rcases List.mem_or_eq_of_mem_set ha' with ha' | rfl
    · exact hk a' ha'
    · exact hk a (List.mem_of_getElem? ha)
  | marked _ _ hactions =>
    rw [hactions] at ha'
    obtain ⟨a, ha, rfl⟩ := List.mem_map.mp ha'
    split
    · exact hk a ha
    · exact hk a ha
  | reloaded hactions => exact keyed_parseInittab _ a' (hactions ▸ ha')

theorem leftBehind_of_step {c : Child} (h : step s l = some s') (hgen : s'.gen = s.gen)
    (hmain : s.ctrl ≠ .drain true ∧ s.ctrl ≠ .waiting) (hc : s'.LeftBehind c) :
    s.LeftBehind c := by
  obtain ⟨hmem, hr, hlt, i, a, ha, hsup, hpid, horigin⟩ := hc
  rw [hgen] at hlt
  cases step_effect h with
  | quiet _ hactions hchildren _ =>
    rw [hactions] at ha horigin
    exact ⟨hchildren ▸ hmem, hr, hlt, i, a, ha, hsup, hpid, horigin⟩
  | exited hactions hchildren _ =>
    rw [hactions] at ha horigin
    rw [hchildren] at hmem
    obtain ⟨d, hd, rfl⟩ := List.mem_map.mp hmem
    split at hr
    · cases hr
    · next hne =>
      rw [if_neg hne] at hlt horigin ⊢
      exact ⟨hd, hr, hlt, i, a, ha, hsup, hpid, horigin⟩
  | forked _ _ hactions hchildren _ =>
    rw [hactions] at ha horigin
    rcases List.mem_cons.mp (hchildren ▸ hmem) with rfl | hmem
    · exact absurd hlt (Nat.lt_irrefl _)
    · exact ⟨hmem, hr, hlt, i, a, ha, hsup, hpid, horigin⟩
  | @started _ j _ b p _ _ hb _ _ _ _ hactions hchildren _ =>
    have hij : j ≠ i := by
      rintro rfl
      rw [hactions, List.getElem?_set_self (List.getElem?_eq_some_iff.mp hb).1] at ha
      cases ha
      cases hpid
    rw [@entryId_congr s.actions _ _ _ i (by rw [hactions, map_key_set hb]) rfl] at horigin
    rw [hactions, List.getElem?_set_ne hij] at ha
    rcases List.mem_cons.mp (hchildren ▸ hmem) with rfl | hmem
    · exact absurd hlt (Nat.lt_irrefl _)
    · exact ⟨hmem, hr, hlt, i, a, ha, hsup, hpid, horigin⟩
  | marked hctrl => exact absurd hctrl (not_or.mpr hmain)
  | unmarked _ _ hactions hchildren _ =>
    rw [hactions] at ha horigin
    exact ⟨(mem_reaped.mp (hchildren ▸ hmem)).1, hr, hlt, i, a, ha, hsup, hpid, horigin⟩
  | reloaded _ _ hg => omega

/-- What is known in a pass stays known to its end. -/
theorem clear_of_step {mask : UInt8} {caller : Caller} (h : step s l = some s')
    (hgen : s'.gen = s.gen) (hmain : s.ctrl ≠ .drain true ∧ s.ctrl ≠ .waiting)
    (hc : s.Clear mask caller) : s'.Clear mask caller := by
  cases caller with
  | boot => exact hgen.trans hc
  | respawn => exact fun c hleft => hc c (leftBehind_of_step h hgen hmain hleft)
  | ctrlAltDel => exact hc
  | shutdown => exact hc

theorem passClear_congr (h : step s l = some s') (hgen : s'.gen = s.gen)
    (hctrl : s'.ctrl = s.ctrl) (hp : s.PassClear) : s'.PassClear := by
  rw [PassClear] at hp ⊢
  rw [hctrl]
  split at hp
  · next hc => exact clear_of_step h hgen (by rw [hc]; exact ⟨nofun, nofun⟩) hp
  · next hc => exact clear_of_step h hgen (by rw [hc]; exact ⟨nofun, nofun⟩) hp
  · trivial

theorem passClear_step (h : step s l = some s') (hp : s.PassClear) (hok : ¬ s.Overtakes l) :
    s'.PassClear := by
  have hpass {mask : UInt8} {i : ℕ} {caller : Caller} (hctrl : s.ctrl = .runActions mask i caller)
      (hgen : s'.gen = s.gen) : s'.Clear mask caller := by
    rw [PassClear, hctrl] at hp
    exact clear_of_step h hgen (by rw [hctrl]; exact ⟨nofun, nofun⟩) hp
  have hwait {pid : Pid} {mask : UInt8} {i : ℕ} {caller : Caller}
      (hctrl : s.ctrl = .waitFor pid mask i caller) (hgen : s'.gen = s.gen) :
      s'.Clear mask caller := by
    rw [PassClear, hctrl] at hp
    exact clear_of_step h hgen (by rw [hctrl]; exact ⟨nofun, nofun⟩) hp
  cases step_transition h with
  | exit | adopt | ignored => exact passClear_congr h rfl rfl hp
  | signal => exact passClear_congr h rfl (interrupted_saFlags _) hp
  | @done _ _ caller hctrl =>
    have hclear := hpass hctrl rfl
    rcases caller with (_ | _) | _ | _ | _ | _
    case boot.cons => exact hclear
    all_goals trivial
  | skip hctrl | forkFailed hctrl | start hctrl => exact hpass hctrl rfl
  | fork hctrl =>
    have hclear := hpass hctrl rfl
    rw [PassClear]
    split_ifs
    · exact hclear
    · exact hclear
  | waitedFor hctrl =>
    have hclear := hwait hctrl rfl
    rw [PassClear, hctrl]
    split_ifs
    · exact hclear
    · exact hclear
  | waitedInVain hctrl => exact hwait hctrl rfl
  | @checked c any hctrl =>
    rcases c with _ | _ | _
    case first =>
      intro c hleft
      exact hok ⟨⟨any, hctrl⟩, c, leftBehind_of_step h rfl (by rw [hctrl]; exact ⟨nofun, nofun⟩)
        hleft⟩
    all_goals cases any <;> trivial
  | mark hctrl => rcases hctrl with ⟨_, rfl⟩ | ⟨_, rfl⟩ <;> trivial
  | execRestart _ _ hctrl' =>
    rcases hctrl' with rfl | rfl | ⟨_, _, rfl⟩
    · exact rfl
    · trivial
    · trivial
  | ctrlAltDel | shutdown => exact rfl
  | _ => trivial

theorem boot_owned (runlevel : String) (content : Option String) :
    (boot runlevel content).Owned := by
  intro c hc
  cases hc

theorem boot_single (runlevel : String) (content : Option String) :
    (boot runlevel content).Single := by
  intro c hc
  cases hc

theorem boot_keyed (runlevel : String) (content : Option String) :
    (boot runlevel content).Keyed := by
  intro a ha
  rw [boot] at ha
  dsimp only at ha
  split at ha
  · rw [List.mem_singleton.mp ha]
    decide
  · exact keyed_parseInittab content a ha

/-- **No entry has two running children** in a run in which no pass over the supervised
entries begins while a child from before the last reload still runs. -/
theorem single_of_not_overtakes (runlevel : String) (content : Option String)
    (labels : List Label)
    (hok : ∀ m ∈ Machine.moves step (boot runlevel content) labels, ¬ m.1.Overtakes m.2) :
    ∀ s ∈ Machine.states step (boot runlevel content) labels, s.Single := by
  intro s hs
  refine (Machine.states_of_moves (I := fun s => s.Owned ∧ s.Keyed ∧ s.PassClear ∧ s.Single)
    (G := fun s l => ¬ s.Overtakes l) ?_ labels _ ⟨boot_owned runlevel content,
      boot_keyed runlevel content, rfl, boot_single runlevel content⟩ hok s hs).2.2.2
  rintro s l s' h hok ⟨ho, hk, hp, hs⟩
  exact ⟨owned_step h ho, keyed_step h hk, passClear_step h hp hok, single_step h ho hk hp hs⟩

/-- A getty ends between a reload and the pass after it. -/
def gettyEnds : List Label :=
  List.replicate 13 .tau ++ [.fork (.ok 10)] ++ List.replicate 8 .tau ++
    [.signal .hup, .tau, .readInittab (some "tty1::respawn:/bin/getty\n"), .exit 10] ++
    List.replicate 6 .tau ++ [.reap 10, .echild] ++ List.replicate 7 .tau ++ [.fork (.ok 11)]

/-- It is started again. -/
theorem single_of_not_overtakes_getty :
    (∃ s ∈ Machine.states step (boot "" (some "tty1::respawn:/bin/getty\n")) gettyEnds,
      11 ∈ s.children.map Child.pid) ∧
    ∀ s ∈ Machine.states step (boot "" (some "tty1::respawn:/bin/getty\n")) gettyEnds, s.Single :=
  ⟨by decide, single_of_not_overtakes "" _ _ (by decide)⟩

/-! ### What is left out -/

theorem exists_fresh (s : State) : ∃ p, s.Fresh p := by
  have hle (c : Child) (hc : c ∈ s.children) :
      c.pid ≤ (s.children.map Child.pid).foldr max 0 := by
    generalize s.children = children at hc ⊢
    induction children with
    | nil => cases hc
    | cons d ds ih =>
      rw [List.map_cons, List.foldr_cons]
      rcases List.mem_cons.mp hc with rfl | hc
      · exact Nat.le_max_left _ _
      · exact Nat.le_trans (ih hc) (Nat.le_max_right _ _)
  exact ⟨(s.children.map Child.pid).foldr max 0 + 1, fun c hc hcp =>
    absurd (hcp ▸ hle c hc) (Nat.not_succ_le_self _)⟩

/-- The entry at the head of the pass was started as `p`. -/
def started (s : State) (i : ℕ) (a : Action) (p : Pid) : State :=
  { s with
    actions := s.actions.set i { a with pid := some p }
    children := s.withChild p (some (entryId s.actions i a))
    ctrl := .runActions (actRespawn ||| actAskfirst) (i + 1) .respawn }

theorem step_start {i : ℕ} {a : Action} {p : Pid}
    (hctrl : s.ctrl = .runActions (actRespawn ||| actAskfirst) i .respawn)
    (ha : s.actions[i]? = some a) (hsup : a.Supervised) (hpid : a.pid = none) (hp : s.Fresh p) :
    step s (.fork (.ok p)) = some (started s i a p) := by
  change stepInit s _ = _
  rw [stepInit.eq_def, hctrl]
  dsimp only
  rw [stepRunActions.eq_def, ha]
  dsimp only
  rw [if_neg hsup, if_pos hsup, hpid]
  exact if_pos hp

theorem step_skip {i : ℕ} {a : Action}
    (hctrl : s.ctrl = .runActions (actRespawn ||| actAskfirst) i .respawn)
    (ha : s.actions[i]? = some a) (hskip : ¬ (a.Supervised ∧ a.pid = none)) :
    step s .tau =
      some { s with ctrl := .runActions (actRespawn ||| actAskfirst) (i + 1) .respawn } := by
  change stepInit s _ = _
  rw [stepInit.eq_def, hctrl]
  dsimp only
  rw [stepRunActions.eq_def, ha]
  dsimp only
  by_cases hsup : a.Supervised
  · obtain ⟨p, hp⟩ := Option.ne_none_iff_exists'.mp (not_and.mp hskip hsup)
    rw [if_neg hsup, if_pos hsup, hp]
  · rw [if_pos (not_not.mp hsup)]

theorem pass_starts_twice {c : Child} {a : Action} {j : ℕ} (n : ℕ) : ∀ (s : State) (i : ℕ),
    i + n = j → s.ctrl = .runActions (actRespawn ||| actAskfirst) i .respawn →
    s.actions[j]? = some a → a.Supervised → a.pid = none → c ∈ s.children → c.running = true →
    c.origin = some (entryId s.actions j a) →
    ∃ more, ∃ t ∈ Machine.states step s more, ¬ t.Single := by
  induction n with
  | zero =>
    rintro s i rfl hctrl ha hsup hpid hc hr horigin
    obtain ⟨p, hp⟩ := exists_fresh s
    refine ⟨[.fork (.ok p)], started s i a p, ?_, fun hs => ?_⟩
    · rw [Machine.states_cons_of_some (step_start hctrl ha hsup hpid hp)]
      exact List.mem_cons_of_mem _ (Machine.self_mem_states _ _ _)
    · exact hp c hc (hs c (List.mem_cons_of_mem _ hc) _ List.mem_cons_self hr rfl
        (by rw [horigin]; exact Option.some_ne_none _) horigin)
  | succ n ih =>
    intro s i hij hctrl ha hsup hpid hc hr horigin
    have hlt : i < s.actions.length := by
      have := (List.getElem?_eq_some_iff.mp ha).1
      omega
    have hb := List.getElem?_eq_getElem hlt
    by_cases hstart : s.actions[i].Supervised ∧ s.actions[i].pid = none
    · obtain ⟨p, hp⟩ := exists_fresh s
      have hstep := step_start hctrl hb hstart.1 hstart.2 hp
      have hj : (started s i s.actions[i] p).actions[j]? = some a := by
        rw [← ha]
        exact List.getElem?_set_ne (by omega)
      obtain ⟨more, t, ht, hbad⟩ := ih (started s i s.actions[i] p) (i + 1) (by omega) rfl hj
        hsup hpid
        (List.mem_cons_of_mem _ hc) hr
        (by rw [horigin]; exact congrArg some (entryId_congr j (map_key_set hb _).symm rfl))
      refine ⟨.fork (.ok p) :: more, t, ?_, hbad⟩
      rw [Machine.states_cons_of_some hstep]
      exact List.mem_cons_of_mem _ ht
    · have hstep := step_skip hctrl hb hstart
      obtain ⟨more, t, ht, hbad⟩ := ih { s with
          ctrl := .runActions (actRespawn ||| actAskfirst) (i + 1) .respawn }
        (i + 1) (by omega) rfl ha hsup hpid hc hr horigin
      refine ⟨.tau :: more, t, ?_, hbad⟩
      rw [Machine.states_cons_of_some hstep]
      exact List.mem_cons_of_mem _ ht

/-- **From each pass that is left out** the run can go on to a second child. -/
theorem starts_twice_of_overtakes (h : s.Overtakes l) :
    ∃ more, ∃ t ∈ Machine.states step s (l :: more), ¬ t.Single := by
  cases l with
  | tau =>
    obtain ⟨⟨any, hctrl⟩, c, hc, hr, -, j, a, ha, hsup, hpid, horigin⟩ := h
    have hstep : step s .tau =
        some { s with ctrl := .runActions (actRespawn ||| actAskfirst) 0 .respawn } := by
      change stepInit s .tau = _
      rw [stepInit.eq_def, hctrl]
      rfl
    obtain ⟨more, t, ht, hbad⟩ := pass_starts_twice (s := { s with
      ctrl := .runActions (actRespawn ||| actAskfirst) 0 .respawn }) j 0 (Nat.zero_add j) rfl ha
      hsup hpid hc hr horigin
    refine ⟨more, t, ?_, hbad⟩
    rw [Machine.states_cons_of_some hstep]
    exact List.mem_cons_of_mem _ ht
  | _ => exact h.elim

/-- The same table is read again while its getty runs, and a second getty is started. -/
theorem reload_starts_getty_twice :
    ¬ ∀ s ∈ Machine.states step (boot "" (some "tty1::respawn:/bin/getty\n"))
        (List.replicate 13 .tau ++ [.fork (.ok 10)] ++ List.replicate 8 .tau ++
          [.signal .hup, .tau, .readInittab (some "tty1::respawn:/bin/getty\n")] ++
          List.replicate 6 .tau ++ [.stillAlive] ++ List.replicate 7 .tau ++ [.fork (.ok 11)]),
      s.Single := by
  decide

end Rustybox.Init
