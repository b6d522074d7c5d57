import Rustybox.Passwd.Update
import Mathlib.Data.List.Nodup

/-!
# No lost update

`FILE+` is created exclusively, so at most one run is between creating it and replacing it, and in
that time the file does not change.  What such a run makes is the update of the file that it
opened, and it opened that file before it had `FILE+`.  If what it opened is still what the file
holds when it creates `FILE+`, the file is always what the runs that have renamed make of it, one
after the other.
-/

namespace Rustybox.Passwd

open Rustybox.Rust

variable {ι : Type}

/-- The move does not act on an old file: a run that creates `FILE+` has opened what the file
still holds, and a shadow file that cannot be opened is missing. -/
structure Current (calls : ι → Call) (s : State ι) (m : Move ι) : Prop where
  opened : s.phase m.who = .start → (calls m.who).shadow = true → m.ok = true ∨ s.file = none
  created : ∀ old ∈ (s.phase m.who).opened, s.plus = none → m.ok = true →
    s.content = some (s.data old)

/-! ### The invariant -/

/-- The run with this work has `FILE+` for itself, and what it reads is what the file holds. -/
structure Holds (s : State ι) (k : Work) : Prop where
  plus : s.plus = some k.new
  new_lt : k.new < s.next
  old_ne : k.old ≠ k.new
  file_ne : s.file ≠ some k.new
  backup_ne : s.backup ≠ some k.new
  content : s.content = some (s.data k.old)

/-- What is still to be read makes the update complete. -/
def Progress (c : Call) (data : ℕ → Str) : Phase → Prop
  | .backup k | .linking k _ | .locking k | .reading k =>
    finish c (linesOf ((data k.old).drop k.pos)) (data k.new) k.changed = update c (data k.old)
  | .writing k line =>
    finish c (line :: linesOf ((data k.old).drop k.pos)) (data k.new) k.changed =
      update c (data k.old)
  | .ending k =>
    k.readError = false → finish c [] (data k.new) k.changed = update c (data k.old)
  | .unlocking k | .closing k => k.readError = false → data k.new = update c (data k.old)
  | .replacing k => data k.new = update c (data k.old)
  | .removing _ ret => ret < 0
  | .start | .waiting _ _ | .returned _ => True

/-- What is true as long as no count of changed lines has become negative. -/
structure Inv (calls : ι → Call) (c0 : Option Str) (s : State ι) : Prop where
  file : ∀ n, s.file = some n → n < s.next ∧ s.data n ∈ s.versions
  backup : ∀ n, s.backup = some n → n < s.next ∧ s.data n ∈ s.versions
  content : s.content = serial calls s.order c0
  waiting : ∀ p old i, s.phase p = .waiting old i → old < s.next
  holds : ∀ p k, (s.phase p).work = some k → Holds s k
  progress : ∀ p, Progress (calls p) s.data (s.phase p)
  alone : ∀ p q k k', (s.phase p).work = some k → (s.phase q).work = some k' → p = q
  returned : ∀ p ret, s.phase p = .returned ret → 0 ≤ ret → p ∈ s.order ∨ c0 = none
  ordered : ∀ p ∈ s.order, ∃ ret, s.phase p = .returned ret
  nodup : s.order.Nodup

/-- A run has renamed, and then taken its negative count for an error. -/
def Spoiled (s : State ι) : Prop :=
  ∃ p ∈ s.order, ∃ ret : Int32, ret < 0 ∧
    (s.phase p = .returned ret ∨ ∃ k, s.phase p = .removing k ret)

theorem serial_append (calls : ι → Call) (order : List ι) (p : ι) (c0 : Option Str) :
    serial calls (order ++ [p]) c0 = (serial calls order c0).map (update (calls p)) := by
  rw [serial, serial, List.foldl_append]
  rfl

theorem serial_eq_none {calls : ι → Call} {order : List ι} {c0 : Option Str} :
    serial calls order c0 = none ↔ c0 = none := by
  induction order generalizing c0 with
  | nil => exact Iff.rfl
  | cons p order ih =>
    show serial calls order _ = none ↔ _
    rw [ih, Option.map_eq_none_iff]

theorem inv_of_initial {calls : ι → Call} {s : State ι} (h : Initial s) :
    Inv calls s.content s := by
  have hfile : ∀ n, s.file = some n → s.data n ∈ s.versions := fun n hn => by
    rw [h.versions, State.content, hn]
    simp
  have hbackup : ∀ n, s.backup = some n → s.data n ∈ s.versions := fun n hn => by
    rw [h.versions, hn]
    simp
  exact {
    file := fun n hn => ⟨h.file n hn, hfile n hn⟩
    backup := fun n hn => ⟨h.backup n hn, hbackup n hn⟩
    content := by rw [h.order]; rfl
    waiting := fun p old i hp => by rw [h.phase] at hp; cases hp
    holds := fun p k hp => by rw [h.phase] at hp; cases hp
    progress := fun p => by rw [h.phase]; trivial
    alone := fun p q k k' hp => by rw [h.phase] at hp; cases hp
    returned := fun p ret hp => by rw [h.phase] at hp; cases hp
    ordered := by rw [h.order]; simp
    nodup := by rw [h.order]; exact List.nodup_nil }

theorem progress_of_idle {c : Call} {data : ℕ → Str} {phase : Phase} (h : phase.work = none) :
    Progress c data phase := by
  cases phase with
  | start => trivial
  | waiting old i => trivial
  | returned ret => trivial
  | _ => cases h

instance (calls : ι → Call) (s : State ι) (m : Move ι) : Decidable (Current calls s m) :=
  decidable_of_iff
    ((s.phase m.who = .start → (calls m.who).shadow = true → m.ok = true ∨ s.file = none) ∧
      ∀ old ∈ (s.phase m.who).opened, s.plus = none → m.ok = true →
        s.content = some (s.data old))
    ⟨fun h => ⟨h.1, h.2⟩, fun h => ⟨h.opened, h.created⟩⟩

variable [DecidableEq ι]

/-! ### Steps -/

theorem phase_cases {s s' : State ι} {p : ι} {phase : Phase}
    (hphase : s'.phase = Function.update s.phase p phase) (q : ι) :
    q = p ∧ s'.phase q = phase ∨ q ≠ p ∧ s'.phase q = s.phase q := by
  rw [hphase]
  by_cases hq : q = p
  · subst hq
    exact Or.inl ⟨rfl, Function.update_self _ _ _⟩
  · exact Or.inr ⟨hq, Function.update_of_ne hq _ _⟩

theorem Inv.waiting_of_phase {calls : ι → Call} {c0 : Option Str} {s s' : State ι} {p : ι}
    {phase : Phase} (h : Inv calls c0 s) (hphase : s'.phase = Function.update s.phase p phase)
    (hwaiting : ∀ old i, phase = .waiting old i → old < s'.next) (hnext : s.next ≤ s'.next) :
    ∀ q old i, s'.phase q = .waiting old i → old < s'.next := by
  intro q old i hq
  rcases phase_cases hphase q with ⟨-, hr⟩ | ⟨-, hr⟩
  · exact hwaiting old i (hr.symm.trans hq)
  · exact Nat.lt_of_lt_of_le (h.waiting q old i (hr.symm.trans hq)) hnext

theorem Inv.returned_of_phase {calls : ι → Call} {c0 : Option Str} {s s' : State ι} {p : ι}
    {phase : Phase} (h : Inv calls c0 s) (hphase : s'.phase = Function.update s.phase p phase)
    (hreturned : ∀ ret, phase = .returned ret → 0 ≤ ret → p ∈ s'.order ∨ c0 = none)
    (horder : s.order ⊆ s'.order) :
    ∀ q ret, s'.phase q = .returned ret → 0 ≤ ret → q ∈ s'.order ∨ c0 = none := by
  intro q ret hq hret
  rcases phase_cases hphase q with ⟨he, hr⟩ | ⟨-, hr⟩
  · rw [he]
    exact hreturned ret (hr.symm.trans hq) hret
  · exact (h.returned q ret (hr.symm.trans hq) hret).imp (@horder q) id

/-- A run that has not returned has not renamed, so its new phase takes no run from the list. -/
theorem Inv.ordered_of_phase {calls : ι → Call} {c0 : Option Str} {s s' : State ι} {p : ι}
    {phase : Phase} (h : Inv calls c0 s) (hphase : s'.phase = Function.update s.phase p phase)
    (hnot : ∀ ret, s.phase p ≠ .returned ret) :
    ∀ q ∈ s.order, ∃ ret, s'.phase q = .returned ret := by
  intro q hq
  obtain ⟨ret, hret⟩ := h.ordered q hq
  rcases phase_cases hphase q with ⟨he, -⟩ | ⟨-, hr⟩
  · exact absurd (he ▸ hret) (hnot ret)
  · exact ⟨ret, hr.trans hret⟩

omit [DecidableEq ι] in
/-- What the file holds, where neither its name nor its inode changes. -/
theorem State.content_congr {s s' : State ι} (hfile : s'.file = s.file)
    (hdata : ∀ n, s.file = some n → s'.data n = s.data n) : s'.content = s.content := by
  rw [State.content, State.content, hfile]
  cases hf : s.file with
  | none => rfl
  | some f => rw [Option.map_some, Option.map_some, hdata f hf]

/-- A run that holds nothing moves on to another phase in which it holds nothing. -/
theorem Inv.idle {calls : ι → Call} {c0 : Option Str} {s : State ι} {p : ι} {phase : Phase}
    (h : Inv calls c0 s) (hp : ∀ ret, s.phase p ≠ .returned ret) (hwork : phase.work = none)
    (hwaiting : ∀ old i, phase = .waiting old i → old < s.next)
    (hreturned : ∀ ret, phase = .returned ret → 0 ≤ ret → c0 = none) :
    Inv calls c0 (s.goto p phase) := by
  have hcases : ∀ q, q = p ∧ (s.goto p phase).phase q = phase ∨
      q ≠ p ∧ (s.goto p phase).phase q = s.phase q := phase_cases rfl
  have hbusy : ∀ q k, ((s.goto p phase).phase q).work = some k → (s.phase q).work = some k := by
    intro q k hq
    rcases hcases q with ⟨-, hr⟩ | ⟨-, hr⟩
    · rw [hr, hwork] at hq
      cases hq
    · rwa [hr] at hq
  exact {
    file := h.file
    backup := h.backup
    content := h.content
    waiting := h.waiting_of_phase rfl hwaiting (Nat.le_refl _)
    holds := fun q k hq => by
      have hs := h.holds q k (hbusy q k hq)
      exact ⟨hs.plus, hs.new_lt, hs.old_ne, hs.file_ne, hs.backup_ne, hs.content⟩
    progress := fun q => by
      rcases hcases q with ⟨-, hr⟩ | ⟨-, hr⟩
      · rw [hr]
        exact progress_of_idle hwork
      · rw [hr]
        exact h.progress q
    alone := fun q q' k k' hq hq' => h.alone q q' k k' (hbusy q k hq) (hbusy q' k' hq')
    returned := h.returned_of_phase rfl (fun ret he hret => Or.inr (hreturned ret he hret))
      fun _ hq => hq
    ordered := h.ordered_of_phase rfl hp
    nodup := h.nodup }

omit [DecidableEq ι] in
theorem Holds.advance {s s' : State ι} {k k' : Work} (hs : Holds s k) (hold : k'.old = k.old)
    (hnew : k'.new = k.new) (hfile : s'.file = s.file) (hplus : s'.plus = s.plus)
    (hnext : s'.next = s.next) (hdata : s'.data k.old = s.data k.old)
    (hbackup : s'.backup ≠ some k.new) (hcontent : s'.content = s.content) : Holds s' k' where
  plus := by rw [hplus, hnew]; exact hs.plus
  new_lt := by rw [hnext, hnew]; exact hs.new_lt
  old_ne := by rw [hold, hnew]; exact hs.old_ne
  file_ne := by rw [hfile, hnew]; exact hs.file_ne
  backup_ne := by rw [hnew]; exact hbackup
  content := by rw [hcontent, hold, hdata]; exact hs.content

/-- The one run that holds `FILE+` moves on.  It may write to the new inode, and the backup may
become a name for the file. -/
theorem Inv.advance {calls : ι → Call} {c0 : Option Str} {s s' : State ι} {p : ι}
    {k k' : Work} {phase : Phase} (h : Inv calls c0 s) (hk : (s.phase p).work = some k)
    (hphase : s'.phase = Function.update s.phase p phase) (hwork : phase.work = some k')
    (hold : k'.old = k.old) (hnew : k'.new = k.new) (hfile : s'.file = s.file)
    (hplus : s'.plus = s.plus) (hnext : s'.next = s.next) (horder : s'.order = s.order)
    (hversions : s'.versions = s.versions) (hdata : ∀ n, n ≠ k.new → s'.data n = s.data n)
    (hbackup : s'.backup = s.backup ∨ s'.backup = none ∨ s'.backup = s.file)
    (hprogress : Progress (calls p) s'.data phase) : Inv calls c0 s' := by
  have hcases := phase_cases hphase
  have hs := h.holds p k hk
  have hothers : ∀ q k1, (s.phase q).work = some k1 → q = p :=
    fun q k1 hq => h.alone q p k1 k hq hk
  have hnot : ∀ ret, s.phase p ≠ .returned ret := fun ret he => by rw [he] at hk; cases hk
  have hcontent : s'.content = s.content :=
    State.content_congr hfile fun n hn => hdata n fun he => hs.file_ne (he ▸ hn)
  have hversion : ∀ n, n ≠ k.new → (n < s.next ∧ s.data n ∈ s.versions) →
      n < s'.next ∧ s'.data n ∈ s'.versions := by
    intro n hn hv
    rwa [hnext, hversions, hdata n hn]
  have hbackup_cases : ∀ n, s'.backup = some n → s.backup = some n ∨ s.file = some n := by
    intro n hn
    rcases hbackup with hb | hb | hb
    · exact Or.inl (hb ▸ hn)
    · rw [hb] at hn
      cases hn
    · exact Or.inr (hb ▸ hn)
  have hbackup_ne : s'.backup ≠ some k.new := fun he =>
    (hbackup_cases k.new he).elim hs.backup_ne hs.file_ne
  exact {
    file := fun n hn => by
      rw [hfile] at hn
      exact hversion n (fun he => hs.file_ne (he ▸ hn)) (h.file n hn)
    backup := fun n hn => by
      have hn' : n ≠ k.new := fun he => hbackup_ne (he ▸ hn)
      rcases hbackup_cases n hn with hb | hb
      · exact hversion n hn' (h.backup n hb)
      · exact hversion n hn' (h.file n hb)
    content := by rw [hcontent, horder]; exact h.content
    waiting := h.waiting_of_phase hphase (fun old i he => by rw [he] at hwork; cases hwork)
      (Nat.le_of_eq hnext.symm)
    holds := fun q k1 hq => by
      rcases hcases q with ⟨-, hr⟩ | ⟨hne, hr⟩
      · rw [hr, hwork] at hq
        cases hq
        exact hs.advance hold hnew hfile hplus hnext (hdata _ hs.old_ne) hbackup_ne hcontent
      · rw [hr] at hq
        exact absurd (hothers q k1 hq) hne
    progress := fun q => by
      rcases hcases q with ⟨he, hr⟩ | ⟨hne, hr⟩
      · rw [hr, he]
        exact hprogress
      · rw [hr]
        refine progress_of_idle ?_
        cases hw : (s.phase q).work with
        | none => rfl
        | some k1 => exact absurd (hothers q k1 hw) hne
    alone := fun q q' k1 k2 hq hq' => by
      have hwho : ∀ r k3, (s'.phase r).work = some k3 → r = p := fun r k3 hr => by
        rcases hcases r with ⟨he, -⟩ | ⟨-, hr'⟩
        · exact he
        · exact hothers r k3 (hr' ▸ hr)
      rw [hwho q k1 hq, hwho q' k2 hq']
    returned := h.returned_of_phase hphase (fun ret he => by rw [he] at hwork; cases hwork)
      (by rw [horder]; exact fun _ hq => hq)
    ordered := by rw [horder]; exact h.ordered_of_phase hphase hnot
    nodup := by rw [horder]; exact h.nodup }

theorem inv_openFile {calls : ι → Call} {c0 : Option Str} {s : State ι} {p : ι} {ok : Bool}
    (h : Inv calls c0 s) (hp : s.phase p = .start)
    (hcur : (calls p).shadow = true → ok = true ∨ s.file = none) :
    Inv calls c0 (openFile (calls p) s p ok) := by
  have hnot : ∀ ret, s.phase p ≠ .returned ret := fun ret he => by rw [hp] at he; cases he
  have hfailed : ok = false ∨ s.file = none →
      Inv calls c0 (s.goto p (.returned (if (calls p).shadow then 0 else -1))) := by
    intro hf
    refine h.idle hnot rfl (fun old i he => by cases he) fun ret he hret => ?_
    by_cases hshadow : (calls p).shadow = true
    · have hfile : s.file = none := by
        rcases hcur hshadow with hok | hfile
        · exact hf.elim (fun h => by rw [h] at hok; cases hok) id
        · exact hfile
      have hnone : s.content = none := by rw [State.content, hfile]; rfl
      rw [h.content] at hnone
      exact serial_eq_none.mp hnone
    · rw [if_neg hshadow] at he
      cases he
      exact absurd hret (by decide)
  cases hok : ok with
  | false => exact hfailed (Or.inl hok)
  | true =>
    cases hfile : s.file with
    | none =>
      simp only [openFile, hfile]
      exact hfailed (Or.inr hfile)
    | some old =>
      simp only [openFile, hfile]
      refine h.idle hnot rfl (fun old' i he => ?_) (fun ret he => by cases he)
      cases he
      exact (h.file old hfile).1

/-- A run creates `FILE+` where it is missing: it alone has a new inode then, and the file still
holds what it has opened. -/
theorem Inv.created {calls : ι → Call} {c0 : Option Str} {s s' : State ι} {p : ι} {old i : ℕ}
    (h : Inv calls c0 s) (hp : s.phase p = .waiting old i) (hplus : s.plus = none)
    (hcur : s.content = some (s.data old))
    (hs' : s' = { s with
      data := Function.update s.data s.next []
      next := s.next + 1
      plus := some s.next }.goto p (.backup ⟨old, s.next, 0, 0, false⟩)) :
    Inv calls c0 s' := by
  have hold := h.waiting p old i hp
  have hnot : ∀ ret, s.phase p ≠ .returned ret := fun ret he => by rw [hp] at he; cases he
  -- nobody else holds a new inode, since `FILE+` is missing
  have hfree : ∀ q, (s.phase q).work = none := fun q => by
    cases hw : (s.phase q).work with
    | none => rfl
    | some k => exact absurd (hplus.symm.trans (h.holds q k hw).plus) (by simp)
  have hphase : s'.phase = Function.update s.phase p (.backup ⟨old, s.next, 0, 0, false⟩) := by
    rw [hs']
    rfl
  have hcases := phase_cases hphase
  have hnext : s'.next = s.next + 1 := by rw [hs']; rfl
  have horder : s'.order = s.order := by rw [hs']; rfl
  have hnew : s'.data s.next = [] := by rw [hs']; exact Function.update_self _ _ _
  have hdata : ∀ n, n < s.next → s'.data n = s.data n := fun n hn => by
    rw [hs']
    exact Function.update_of_ne (Nat.ne_of_lt hn) _ _
  have hcontent : s'.content = s.content :=
    State.content_congr (by rw [hs']; rfl) fun n hn => hdata n (h.file n hn).1
  have hversion : ∀ n, n < s.next ∧ s.data n ∈ s.versions →
      n < s'.next ∧ s'.data n ∈ s'.versions := by
    intro n hn
    rw [hdata n hn.1, hnext, hs']
    exact ⟨Nat.lt_succ_of_lt hn.1, hn.2⟩
  have hwho : ∀ r k, (s'.phase r).work = some k →
      r = p ∧ k = ⟨old, s.next, 0, 0, false⟩ := fun r k hr => by
    rcases hcases r with ⟨he, hr'⟩ | ⟨-, hr'⟩
    · rw [hr'] at hr
      exact ⟨he, (Option.some.inj hr).symm⟩
    · rw [hr', hfree r] at hr
      cases hr
  exact {
    file := fun n hn => hversion n (h.file n (by rw [hs'] at hn; exact hn))
    backup := fun n hn => hversion n (h.backup n (by rw [hs'] at hn; exact hn))
    content := by rw [hcontent, horder]; exact h.content
    waiting := h.waiting_of_phase hphase (fun old i he => by cases he) (by omega)
    holds := fun q k hq => by
      obtain ⟨-, rfl⟩ := hwho q k hq
      exact {
        plus := by rw [hs']; rfl
        new_lt := by rw [hnext]; exact Nat.lt_succ_self _
        old_ne := Nat.ne_of_lt hold
        file_ne := fun he => by
          rw [hs'] at he
          exact Nat.lt_irrefl _ (h.file _ he).1
        backup_ne := fun he => by
          rw [hs'] at he
          exact Nat.lt_irrefl _ (h.backup _ he).1
        content := by rw [hcontent, hdata old hold]; exact hcur }
    progress := fun q => by
      rcases hcases q with ⟨-, hr⟩ | ⟨-, hr⟩
      · rw [hr]
        show finish _ (linesOf _) (s'.data s.next) 0 = update _ _
        rw [hnew, List.drop_zero]
        rfl
      · rw [hr]
        exact progress_of_idle (hfree q)
    alone := fun q q' k k' hq hq' => by rw [(hwho q k hq).1, (hwho q' k' hq').1]
    returned := h.returned_of_phase hphase (fun ret he => by cases he)
      (by rw [horder]; exact fun _ hq => hq)
    ordered := by rw [horder]; exact h.ordered_of_phase hphase hnot
    nodup := by rw [horder]; exact h.nodup }

theorem inv_createPlus {calls : ι → Call} {c0 : Option Str} {s : State ι} {p : ι} {ok : Bool}
    {old i : ℕ} (h : Inv calls c0 s) (hp : s.phase p = .waiting old i)
    (hcur : s.plus = none → ok = true → s.content = some (s.data old)) :
    Inv calls c0 (createPlus s p old i ok) := by
  have hnot : ∀ ret, s.phase p ≠ .returned ret := fun ret he => by rw [hp] at he; cases he
  have hfailed : Inv calls c0 (s.goto p (.returned (-1))) :=
    h.idle hnot rfl (fun old i he => by cases he) fun ret he hret => by
      cases he
      exact absurd hret (by decide)
  cases hok : ok with
  | false => exact hfailed
  | true =>
  cases hplus : s.plus with
  | some n =>
    simp only [createPlus, hplus]
    show Inv calls c0 (s.goto p (if i - 1 = 0 then .returned (-1) else .waiting old (i - 1)))
    split
    · exact hfailed
    · refine h.idle hnot rfl (fun old' i' he => ?_) (fun ret he => by cases he)
      cases he
      exact h.waiting p old i hp
  | none =>
    simp only [createPlus, hplus]
    exact h.created hp hplus (hcur hplus hok) rfl

theorem inv_deleteBackup {calls : ι → Call} {c0 : Option Str} {s : State ι} {p : ι} {ok : Bool}
    {k : Work} (h : Inv calls c0 s) (hp : s.phase p = .backup k) :
    Inv calls c0 (deleteBackup s p k ok) := by
  have hk : (s.phase p).work = some k := by rw [hp]; rfl
  have hprog : Progress (calls p) s.data (.backup k) := hp ▸ h.progress p
  rw [deleteBackup]
  split
  · exact h.advance hk rfl rfl rfl rfl rfl rfl rfl rfl rfl (fun _ _ => rfl) (Or.inr (Or.inl rfl))
      hprog
  · exact h.advance hk rfl rfl rfl rfl rfl rfl rfl rfl rfl (fun _ _ => rfl) (Or.inl rfl) hprog

theorem inv_linkBackup {calls : ι → Call} {c0 : Option Str} {s : State ι} {p : ι}
    {failed ok : Bool} {k : Work} (h : Inv calls c0 s) (hp : s.phase p = .linking k failed) :
    Inv calls c0 (linkBackup s p k failed ok) := by
  have hk : (s.phase p).work = some k := by rw [hp]; rfl
  have hprog : Progress (calls p) s.data (.linking k failed) := hp ▸ h.progress p
  rw [linkBackup]
  split
  · exact h.advance hk rfl rfl rfl rfl rfl rfl rfl rfl rfl (fun _ _ => rfl) (Or.inr (Or.inr rfl))
      hprog
  · exact h.advance hk rfl rfl rfl rfl rfl rfl rfl rfl rfl (fun _ _ => rfl) (Or.inl rfl) hprog

theorem inv_lockFile {calls : ι → Call} {c0 : Option Str} {s : State ι} {p : ι} {ok : Bool}
    {k : Work} (h : Inv calls c0 s) (hp : s.phase p = .locking k) :
    Inv calls c0 (lockFile s p k ok) := by
  have hk : (s.phase p).work = some k := by rw [hp]; rfl
  have hprog : Progress (calls p) s.data (.locking k) := hp ▸ h.progress p
  rw [lockFile]
  split
  · exact h.advance hk rfl rfl rfl rfl rfl rfl rfl rfl rfl (fun _ _ => rfl) (Or.inl rfl) hprog
  · exact h.advance hk rfl rfl rfl rfl rfl rfl rfl rfl rfl (fun _ _ => rfl) (Or.inl rfl) hprog

theorem inv_readLine {calls : ι → Call} {c0 : Option Str} {s : State ι} {p : ι} {ok : Bool}
    {k : Work} (h : Inv calls c0 s) (hp : s.phase p = .reading k) :
    Inv calls c0 (readLine s p k ok) := by
  have hk : (s.phase p).work = some k := by rw [hp]; rfl
  have hprog : finish (calls p) (linesOf ((s.data k.old).drop k.pos)) (s.data k.new) k.changed =
      update (calls p) (s.data k.old) := by
    have := h.progress p
    rwa [hp] at this
  rw [linesOf_eq] at hprog
  rw [readLine]
  split
  · cases hline : xmallocFgetline ((s.data k.old).drop k.pos) with
    | none =>
      rw [hline] at hprog
      exact h.advance hk rfl rfl rfl rfl rfl rfl rfl rfl rfl (fun _ _ => rfl) (Or.inl rfl)
        fun _ => hprog
    | some r =>
      rw [hline] at hprog
      refine h.advance hk rfl rfl rfl rfl rfl rfl rfl rfl rfl (fun _ _ => rfl) (Or.inl rfl) ?_
      show finish (calls p) (r.1 :: linesOf ((s.data k.old).drop (k.pos + r.2))) _ _ = _
      rw [← List.drop_drop]
      exact hprog
  · exact h.advance hk rfl rfl rfl rfl rfl rfl rfl rfl rfl (fun _ _ => rfl) (Or.inl rfl)
      fun he => by cases he

theorem inv_writeLine {calls : ι → Call} {c0 : Option Str} {s : State ι} {p : ι} {k : Work}
    {line : Str} (h : Inv calls c0 s) (hp : s.phase p = .writing k line) :
    Inv calls c0 (writeLine (calls p) s p k line) := by
  have hk : (s.phase p).work = some k := by rw [hp]; rfl
  have hs := h.holds p k hk
  have hprog : Progress (calls p) s.data (.writing k line) := hp ▸ h.progress p
  refine h.advance hk rfl rfl rfl rfl rfl rfl rfl rfl rfl (fun n hn => Function.update_of_ne hn _ _)
    (Or.inl rfl) ?_
  show finish _ (linesOf ((Function.update s.data k.new _ k.old).drop k.pos))
    (Function.update s.data k.new _ k.new) _ = update _ (Function.update s.data k.new _ k.old)
  rw [Function.update_self, Function.update_of_ne hs.old_ne]
  exact hprog

theorem inv_writeEntry {calls : ι → Call} {c0 : Option Str} {s : State ι} {p : ι} {k : Work}
    (h : Inv calls c0 s) (hp : s.phase p = .ending k) :
    Inv calls c0 (writeEntry (calls p) s p k) := by
  have hk : (s.phase p).work = some k := by rw [hp]; rfl
  have hs := h.holds p k hk
  have hprog : Progress (calls p) s.data (.ending k) := hp ▸ h.progress p
  refine h.advance hk rfl rfl rfl rfl rfl rfl rfl rfl rfl (fun n hn => Function.update_of_ne hn _ _)
    (Or.inl rfl) fun hread => ?_
  show Function.update s.data k.new _ k.new = update _ (Function.update s.data k.new _ k.old)
  rw [Function.update_self, Function.update_of_ne hs.old_ne]
  exact hprog hread

theorem inv_unlockFile {calls : ι → Call} {c0 : Option Str} {s : State ι} {p : ι} {k : Work}
    (h : Inv calls c0 s) (hp : s.phase p = .unlocking k) :
    Inv calls c0 (unlockFile s p k) := by
  have hk : (s.phase p).work = some k := by rw [hp]; rfl
  have hprog : Progress (calls p) s.data (.unlocking k) := hp ▸ h.progress p
  exact h.advance hk rfl rfl rfl rfl rfl rfl rfl rfl rfl (fun _ _ => rfl) (Or.inl rfl) hprog

theorem inv_closePlus {calls : ι → Call} {c0 : Option Str} {s : State ι} {p : ι} {ok : Bool}
    {k : Work} (h : Inv calls c0 s) (hp : s.phase p = .closing k) :
    Inv calls c0 (closePlus s p k ok) := by
  have hk : (s.phase p).work = some k := by rw [hp]; rfl
  have hprog : Progress (calls p) s.data (.closing k) := hp ▸ h.progress p
  rw [closePlus]
  split
  · rename_i hok
    exact h.advance hk rfl rfl rfl rfl rfl rfl rfl rfl rfl (fun _ _ => rfl) (Or.inl rfl)
      (hprog hok.2)
  · exact h.advance hk rfl rfl rfl rfl rfl rfl rfl rfl rfl (fun _ _ => rfl) (Or.inl rfl)
      (by decide : (-1 : Int32) < 0)

/-- Once the one run that holds `FILE+` is done, no run holds anything. -/
theorem Inv.free {calls : ι → Call} {c0 : Option Str} {s s' : State ι} {p : ι} {k : Work}
    {ret : Int32} (h : Inv calls c0 s) (hk : (s.phase p).work = some k)
    (hphase : s'.phase = Function.update s.phase p (.returned ret)) (q : ι) :
    (s'.phase q).work = none := by
  rcases phase_cases hphase q with ⟨-, hr⟩ | ⟨hne, hr⟩
  · rw [hr]
    rfl
  · rw [hr]
    cases hw : (s.phase q).work with
    | none => rfl
    | some k' => exact absurd (h.alone q p k' k hw hk) hne

theorem inv_removePlus {calls : ι → Call} {c0 : Option Str} {s : State ι} {p : ι} {ok : Bool}
    {k : Work} {ret : Int32} (h : Inv calls c0 s) (hp : s.phase p = .removing k ret) :
    Inv calls c0 (removePlus s p ret ok) := by
  have hk : (s.phase p).work = some k := by rw [hp]; rfl
  have hret : ret < 0 := by
    have : Progress (calls p) s.data (.removing k ret) := hp ▸ h.progress p
    exact this
  have hphase : (removePlus s p ret ok).phase = Function.update s.phase p (.returned ret) := rfl
  have hfree := h.free hk hphase
  exact {
    file := h.file
    backup := h.backup
    content := h.content
    waiting := h.waiting_of_phase hphase (fun old i he => by cases he)
      (Nat.le_refl _)
    holds := fun q k' hq => by
      rw [hfree q] at hq
      cases hq
    progress := fun q => progress_of_idle (hfree q)
    alone := fun q q' k1 k2 hq => by
      rw [hfree q] at hq
      cases hq
    returned := h.returned_of_phase hphase (fun ret' he hret' => by
      cases he
      exact absurd hret' (Int32.not_le.mpr hret)) fun _ hq => hq
    ordered := h.ordered_of_phase hphase fun ret he => by rw [hp] at he; cases he
    nodup := h.nodup }

theorem inv_renamePlus {calls : ι → Call} {c0 : Option Str} {s : State ι} {p : ι} {ok : Bool}
    {k : Work} (h : Inv calls c0 s) (hp : s.phase p = .replacing k) :
    Inv calls c0 (renamePlus s p k ok) ∨ Spoiled (renamePlus s p k ok) := by
  have hk : (s.phase p).work = some k := by rw [hp]; rfl
  have hs := h.holds p k hk
  have hprog : s.data k.new = update (calls p) (s.data k.old) := by
    have := h.progress p
    rwa [hp] at this
  cases hok : ok with
  | false =>
    exact Or.inl (h.advance hk rfl rfl rfl rfl rfl rfl rfl rfl rfl (fun _ _ => rfl) (Or.inl rfl)
      (by decide : (-1 : Int32) < 0))
  | true =>
  simp only [renamePlus, hs.plus]
  by_cases hneg : k.changed < 0
  · rw [if_pos hneg]
    exact Or.inr ⟨p, List.mem_append_right _ List.mem_cons_self, k.changed, hneg,
      Or.inr ⟨k, Function.update_self _ _ _⟩⟩
  rw [if_neg hneg]
  refine Or.inl ?_
  obtain ⟨s', hs'⟩ : ∃ s' : State ι, s' = { s with
      file := some k.new
      plus := none
      order := s.order ++ [p]
      versions := s.versions ++ [s.data k.new] }.goto p (.returned k.changed) := ⟨_, rfl⟩
  have hphase : s'.phase = Function.update s.phase p (.returned k.changed) := by rw [hs']; rfl
  have hcases := phase_cases hphase
  have hfree := h.free hk hphase
  have hnew : p ∉ s.order := fun hmem => by
    obtain ⟨ret, hret⟩ := h.ordered p hmem
    rw [hp] at hret
    cases hret
  rw [← hs']
  exact {
    file := fun n hn => by
      rw [hs'] at hn ⊢
      cases hn
      exact ⟨hs.new_lt, List.mem_append_right _ List.mem_cons_self⟩
    backup := fun n hn => by
      rw [hs'] at hn ⊢
      exact ⟨(h.backup n hn).1, List.mem_append_left _ (h.backup n hn).2⟩
    content := by
      have hcontent : s'.content = some (s.data k.new) := by rw [hs']; rfl
      have horder : s'.order = s.order ++ [p] := by rw [hs']; rfl
      rw [hcontent, horder, serial_append, ← h.content, hs.content, hprog, Option.map_some]
    waiting := h.waiting_of_phase hphase (fun old i he => by cases he)
      (by rw [hs']; exact Nat.le_refl _)
    holds := fun q k' hq => by
      rw [hfree q] at hq
      cases hq
    progress := fun q => progress_of_idle (hfree q)
    alone := fun q q' k1 k2 hq => by
      rw [hfree q] at hq
      cases hq
    returned := h.returned_of_phase hphase
      (fun _ _ _ => Or.inl (by rw [hs']; exact List.mem_append_right _ List.mem_cons_self))
      (by rw [hs']; exact List.subset_append_left _ _)
    ordered := fun q hq => by
      rcases hcases q with ⟨-, hr⟩ | ⟨hne, hr⟩
      · exact ⟨k.changed, hr⟩
      · rw [hs'] at hq
        rcases List.mem_append.mp hq with hq | hq
        · obtain ⟨ret, hret⟩ := h.ordered q hq
          exact ⟨ret, hr.trans hret⟩
        · exact absurd (List.mem_singleton.mp hq) hne
    nodup := by
      rw [hs']
      exact List.nodup_append.mpr ⟨h.nodup, List.nodup_singleton p, fun a ha b hb he => by
        rw [List.mem_singleton.mp hb] at he
        exact hnew (he ▸ ha)⟩ }

/-! ### Runs -/

/-- **One step.** -/
theorem inv_step {calls : ι → Call} {c0 : Option Str} {s s' : State ι} {m : Move ι}
    (hstep : step calls s m = some s') (hcur : Current calls s m) (h : Inv calls c0 s) :
    Inv calls c0 s' ∨ Spoiled s' := by
  rw [step] at hstep
  cases hp : s.phase m.who with
  | start =>
    rw [hp] at hstep
    cases hstep
    exact Or.inl (inv_openFile h hp (hcur.opened hp))
  | waiting old i =>
    rw [hp] at hstep
    cases hstep
    exact Or.inl (inv_createPlus h hp (hcur.created old (by rw [hp]; rfl)))
  | backup k =>
    rw [hp] at hstep
    cases hstep
    exact Or.inl (inv_deleteBackup h hp)
  | linking k failed =>
    rw [hp] at hstep
    cases hstep
    exact Or.inl (inv_linkBackup h hp)
  | locking k =>
    rw [hp] at hstep
    cases hstep
    exact Or.inl (inv_lockFile h hp)
  | reading k =>
    rw [hp] at hstep
    cases hstep
    exact Or.inl (inv_readLine h hp)
  | writing k line =>
    rw [hp] at hstep
    cases hstep
    exact Or.inl (inv_writeLine h hp)
  | ending k =>
    rw [hp] at hstep
    cases hstep
    exact Or.inl (inv_writeEntry h hp)
  | unlocking k =>
    rw [hp] at hstep
    cases hstep
    exact Or.inl (inv_unlockFile h hp)
  | closing k =>
    rw [hp] at hstep
    cases hstep
    exact Or.inl (inv_closePlus h hp)
  | replacing k =>
    rw [hp] at hstep
    cases hstep
    exact inv_renamePlus h hp
  | removing k ret =>
    rw [hp] at hstep
    cases hstep
    exact Or.inl (inv_removePlus h hp)
  | returned ret =>
    rw [hp] at hstep
    cases hstep

/-- A step changes the phase of the run whose step it is, and forgets no run that has renamed. -/
theorem step_effect {calls : ι → Call} {s s' : State ι} {m : Move ι}
    (hstep : step calls s m = some s') :
    (∃ phase, s'.phase = Function.update s.phase m.who phase) ∧ ∀ p ∈ s.order, p ∈ s'.order := by
  rw [step] at hstep
  have hkeep : ∀ phase, (∃ phase', (s.goto m.who phase).phase =
      Function.update s.phase m.who phase') ∧ ∀ p ∈ s.order, p ∈ (s.goto m.who phase).order :=
    fun phase => ⟨⟨phase, rfl⟩, fun _ h => h⟩
  cases hp : s.phase m.who with
  | start =>
    rw [hp] at hstep
    cases hstep
    rw [openFile.eq_def]
    split
    · exact hkeep _
    · exact hkeep _
  | waiting old i =>
    rw [hp] at hstep
    cases hstep
    rw [createPlus.eq_def]
    split
    · exact hkeep _
    · exact hkeep _
    · exact ⟨⟨_, rfl⟩, fun _ h => h⟩
  | backup k =>
    rw [hp] at hstep
    cases hstep
    rw [deleteBackup]
    split
    · exact ⟨⟨_, rfl⟩, fun _ h => h⟩
    · exact hkeep _
  | linking k failed =>
    rw [hp] at hstep
    cases hstep
    rw [linkBackup]
    split
    · exact ⟨⟨_, rfl⟩, fun _ h => h⟩
    · exact hkeep _
  | locking k =>
    rw [hp] at hstep
    cases hstep
    rw [lockFile]
    split
    · exact ⟨⟨_, rfl⟩, fun _ h => h⟩
    · exact hkeep _
  | reading k =>
    rw [hp] at hstep
    cases hstep
    rw [readLine]
    split
    · split
      · exact hkeep _
      · exact hkeep _
    · exact hkeep _
  | writing k line =>
    rw [hp] at hstep
    cases hstep
    exact ⟨⟨_, rfl⟩, fun _ h => h⟩
  | ending k =>
    rw [hp] at hstep
    cases hstep
    exact ⟨⟨_, rfl⟩, fun _ h => h⟩
  | unlocking k =>
    rw [hp] at hstep
    cases hstep
    exact ⟨⟨_, rfl⟩, fun _ h => h⟩
  | closing k =>
    rw [hp] at hstep
    cases hstep
    rw [closePlus]
    split
    · exact hkeep _
    · exact hkeep _
  | replacing k =>
    rw [hp] at hstep
    cases hstep
    rw [renamePlus.eq_def]
    split
    · exact ⟨⟨_, rfl⟩, fun _ h => List.mem_append_left _ h⟩
    · exact hkeep _
  | removing k ret =>
    rw [hp] at hstep
    cases hstep
    exact ⟨⟨_, rfl⟩, fun _ h => h⟩
  | returned ret =>
    rw [hp] at hstep
    cases hstep

theorem spoiled_step {calls : ι → Call} {s s' : State ι} {m : Move ι}
    (hstep : step calls s m = some s') (h : Spoiled s) : Spoiled s' := by
  obtain ⟨p, hmem, ret, hret, hp⟩ := h
  obtain ⟨⟨phase, hphase⟩, horder⟩ := step_effect hstep
  refine ⟨p, horder p hmem, ret, hret, ?_⟩
  rcases phase_cases hphase p with ⟨he, -⟩ | ⟨-, hr⟩
  · rw [step, ← he] at hstep
    rcases hp with hp | ⟨k, hp⟩
    · rw [hp] at hstep
      cases hstep
    · rw [hp] at hstep
      cases hstep
      exact Or.inl (Function.update_self _ _ _)
  · rw [hr]
    exact hp

/-- **Every run over current files.**  When all runs have succeeded, the file is what they make of
it in the order in which they renamed, or it was missing and still is; the backup is a version. -/
theorem serial_of_allSucceeded {calls : ι → Call} {s t : State ι} {moves : List (Move ι)}
    (h : Initial s) (hcur : ∀ m ∈ Machine.moves (step calls) s moves, Current calls m.1 m.2)
    (ht : t ∈ Machine.states (step calls) s moves) (hall : AllSucceeded t) :
    t.content = serial calls t.order s.content ∧ t.order.Nodup ∧
      (∀ p, p ∈ t.order ∨ s.content = none) ∧ ∀ n, t.backup = some n → t.data n ∈ t.versions := by
  have hinv := Machine.states_of_moves (I := fun s1 => Inv calls s.content s1 ∨ Spoiled s1)
    (G := Current calls) (fun s1 m s2 hstep hcur hs1 => by
      rcases hs1 with hs1 | hs1
      · exact inv_step hstep hcur hs1
      · exact Or.inr (spoiled_step hstep hs1)) moves s (Or.inl (inv_of_initial h)) hcur t ht
  rcases hinv with hinv | ⟨p, -, ret, hneg, hp⟩
  · refine ⟨hinv.content, hinv.nodup, fun p => ?_, fun n hn => (hinv.backup n hn).2⟩
    obtain ⟨ret, hret, hpos⟩ := hall p
    exact hinv.returned p ret hret hpos
  · obtain ⟨ret', hret', hpos⟩ := hall p
    rcases hp with hp | ⟨k, hp⟩
    · rw [hp] at hret'
      cases hret'
      exact absurd hpos (Int32.not_le.mpr hneg)
    · rw [hp] at hret'
      cases hret'

end Rustybox.Passwd
