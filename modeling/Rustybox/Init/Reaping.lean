import Rustybox.Init.Transition

/-!
# Who is told that a child is dead

An entry of the table records the child that runs for it, and is started again
when the record is gone.  So a record must not outlive its child: as long as
`pid` is `Some(p)` nobody starts the entry, whether `p` is alive or not.

Children are reaped in three places.  The main loop passes each one it reaps to
`mark_terminated`, and then no record of it is left.  `halt_reboot_pwoff` waits for
one child that no entry records.  But `wait_for` reaps whatever child dies while it
waits, and keeps the news to itself: `tracked_iff` says that the records are right
along a run exactly when `wait_for` never reaps a recorded child.
-/

namespace Rustybox.Init

open State

variable {s s' : State} {l : Label}

/-! ### Records -/

theorem mem_reaped {p : Pid} {c : Child} : c ∈ s.reaped p ↔ c ∈ s.children ∧ c.pid ≠ p := by
  simp [State.reaped]

theorem mem_markTerminated {actions : List Action} {p : Pid} {a : Action} :
    a ∈ (markTerminated actions p).1 ↔
      ∃ b ∈ actions, (if b.pid = some p then { b with pid := none } else b) = a :=
  List.mem_map

theorem recorded_of_mem_markTerminated {actions : List Action} {p q : Pid} {a : Action}
    (ha : a ∈ (markTerminated actions p).1) (hq : a.pid = some q) : a ∈ actions ∧ q ≠ p := by
  obtain ⟨b, hb, rfl⟩ := mem_markTerminated.mp ha
  split at hq
  · cases hq
  · next hne =>
    rw [if_neg hne]
    exact ⟨hb, fun h => hne (h ▸ hq)⟩

def Ctrl.inWaitFor : Ctrl → Bool
  | .waitFor _ _ _ _ => true
  | _ => false

namespace State

/-- Some entry records the child `p`. -/
def Records (s : State) (p : Pid) : Prop := ∃ a ∈ s.actions, a.pid = some p

/-- Every record is of a child that has not been reaped. -/
def Tracked (s : State) : Prop := ∀ a ∈ s.actions, ∀ p ∈ a.pid, ∃ c ∈ s.children, c.pid = p

/-- The child that reboots is recorded nowhere. -/
def RebootUnrecorded (s : State) : Prop :=
  ∀ magic p, s.ctrl = .awaitReboot magic p → ¬ s.Records p

/-- `wait_for` is about to reap a recorded child. -/
def Forgets (s : State) : Label → Prop
  | .reap p => s.Records p ∧ s.ctrl.inWaitFor = true
  | _ => False

instance (s : State) (p : Pid) : Decidable (s.Records p) :=
  inferInstanceAs (Decidable (∃ a ∈ s.actions, a.pid = some p))

instance (s : State) : Decidable s.Tracked :=
  inferInstanceAs (Decidable (∀ a ∈ s.actions, ∀ p ∈ a.pid, ∃ c ∈ s.children, c.pid = p))

instance (s : State) : DecidablePred s.Forgets
  | .reap p => inferInstanceAs (Decidable (s.Records p ∧ s.ctrl.inWaitFor = true))
  | .exit _ | .adopt _ | .signal _ | .tau | .fork _ | .stillAlive | .echild | .readInittab _
  | .execvp _ => instDecidableFalse

end State

@[simp]
theorem interrupted_saFlags (ctrl : Ctrl) : interrupted saFlags ctrl = ctrl := by
  cases ctrl <;> rfl

/-- The child that reboots is forked for it, and was not there before. -/
theorem Transition.awaitReboot (h : Transition s l s') {magic : Magic} {p : Pid}
    (hctrl' : s'.ctrl = .awaitReboot magic p) :
    s'.actions = s.actions ∧ (s.ctrl = .awaitReboot magic p ∨ s.Fresh p) := by
  cases h with
  | exit | adopt | ignored => exact ⟨rfl, Or.inl hctrl'⟩
  | signal => exact ⟨rfl, Or.inl ((interrupted_saFlags _).symm.trans hctrl')⟩
  | reboot hctrl hfresh =>
    cases hctrl'
    exact ⟨rfl, Or.inr hfresh⟩
  | _ => grind [returnTo.eq_def, afterCheck.eq_def, mainLoop]

theorem rebootUnrecorded_step (h : step s l = some s') (ht : s.Tracked)
    (hr : s.RebootUnrecorded) : s'.RebootUnrecorded := by
  intro magic p hctrl' ⟨a, ha, hp⟩
  obtain ⟨hactions, hctrl | hfresh⟩ := (step_transition h).awaitReboot hctrl'
  · exact hr magic p hctrl ⟨a, hactions ▸ ha, hp⟩
  · obtain ⟨c, hc, hcp⟩ := ht a (hactions ▸ ha) p hp
    exact hfresh c hc hcp

/-- Every step but one of `wait_for` keeps the records right. -/
theorem tracked_step (h : step s l = some s') (hr : s.RebootUnrecorded) (ht : s.Tracked)
    (hok : ¬ s.Forgets l) : s'.Tracked := by
  intro a ha q hq
  cases step_effect h with
  | quiet _ hactions hchildren =>
    rw [hchildren]
    exact ht a (hactions ▸ ha) q hq
  | exited hactions hchildren =>
    obtain ⟨c, hc, hcq⟩ := ht a (hactions ▸ ha) q hq
    rw [hchildren]
    refine ⟨_, List.mem_map_of_mem hc, ?_⟩
    split
    · exact hcq
    · exact hcq
  | forked _ _ hactions hchildren =>
    obtain ⟨c, hc, hcq⟩ := ht a (hactions ▸ ha) q hq
    exact ⟨c, hchildren ▸ List.mem_cons_of_mem _ hc, hcq⟩
  | started hctrl hb hmask hsup hpid hfresh hactions hchildren =>
    rw [hchildren]
    rcases List.mem_or_eq_of_mem_set (hactions ▸ ha) with ha | rfl
    · obtain ⟨c, hc, hcq⟩ := ht a ha q hq
      exact ⟨c, List.mem_cons_of_mem _ hc, hcq⟩
    · exact ⟨_, List.mem_cons_self, Option.some.inj hq⟩
  | marked hctrl hzombie hactions hchildren =>
    obtain ⟨ha, hne⟩ := recorded_of_mem_markTerminated (hactions ▸ ha) hq
    obtain ⟨c, hc, hcq⟩ := ht a ha q hq
    exact ⟨c, hchildren ▸ mem_reaped.mpr ⟨hc, hcq ▸ hne⟩, hcq⟩
  | @unmarked p _ hctrl hzombie hactions hchildren =>
    have hne : q ≠ p := by
      rintro rfl
      have hrec : s.Records q := ⟨a, hactions ▸ ha, hq⟩
      rcases hctrl with ⟨_, _, _, _, hctrl⟩ | ⟨magic, hctrl⟩
      · exact hok ⟨hrec, by rw [hctrl]; rfl⟩
      · exact hr magic q hctrl hrec
    obtain ⟨c, hc, hcq⟩ := ht a (hactions ▸ ha) q hq
    exact ⟨c, hchildren ▸ mem_reaped.mpr ⟨hc, hcq ▸ hne⟩, hcq⟩
  | reloaded hactions =>
    rw [parseInittab_pid _ a (hactions ▸ ha)] at hq
    cases hq

theorem not_tracked_of_forgets (h : step s l = some s') (hf : s.Forgets l) : ¬ s'.Tracked := by
  cases l with
  | reap p =>
    obtain ⟨⟨a, ha, hp⟩, hwait⟩ := hf
    intro ht
    cases step_effect h with
    | quiet hl | forked hl => exact hl p rfl
    | marked hctrl =>
      rcases hctrl with hctrl | hctrl <;> rw [hctrl] at hwait <;> cases hwait
    | unmarked hctrl hzombie hactions hchildren =>
      obtain ⟨c, hc, hcp⟩ := ht a (hactions ▸ ha) p hp
      exact (mem_reaped.mp (hchildren ▸ hc)).2 hcp
  | _ => exact hf.elim

theorem boot_pid (runlevel : String) (content : Option String) :
    ∀ a ∈ (boot runlevel content).actions, a.pid = none := by
  intro a ha
  rw [boot] at ha
  dsimp only at ha
  split at ha
  · rw [List.mem_singleton.mp ha]
  · exact parseInittab_pid content a ha

theorem boot_tracked (runlevel : String) (content : Option String) :
    (boot runlevel content).Tracked := by
  intro a ha p hp
  rw [boot_pid runlevel content a ha] at hp
  cases hp

theorem boot_rebootUnrecorded (runlevel : String) (content : Option String) :
    (boot runlevel content).RebootUnrecorded := by
  intro magic p hctrl
  cases hctrl

/-- **No record outlives its child** exactly when `wait_for` never reaps a recorded
child: every entry that records a child records one that `init` has not reaped, in
all states of a run. -/
theorem tracked_iff (runlevel : String) (content : Option String) (labels : List Label) :
    (∀ s ∈ Machine.states step (boot runlevel content) labels, s.Tracked) ↔
      ∀ m ∈ Machine.moves step (boot runlevel content) labels, ¬ m.1.Forgets m.2 := by
  refine Machine.states_iff_moves (J := RebootUnrecorded) (P := Tracked) (A := fun _ _ => True)
    (G := fun s l => ¬ s.Forgets l) ?_ ?_ ?_ (boot_rebootUnrecorded runlevel content)
    (boot_tracked runlevel content) labels (fun _ _ => trivial)
  · intro s l s' h _ hr ht
    exact rebootUnrecorded_step h ht hr
  · intro s l s' h _ hr ht hok
    exact tracked_step h hr ht hok
  · intro s l s' h _ _ _ ht' hf
    exact not_tracked_of_forgets h hf ht'

/-- A getty dies while the `ctrlaltdel` action runs.  `wait_for` reaps it, and its
entry records it ever after. -/
theorem wait_for_forgets_getty :
    ¬ ∀ s ∈ Machine.states step
        (boot "" (some "::respawn:/bin/getty\n::ctrlaltdel:/sbin/reboot\n"))
        (List.replicate 16 .tau ++ [.fork (.ok 10), .tau, .tau] ++ List.replicate 7 .tau ++
          [.signal .int, .tau, .tau, .tau, .tau, .fork (.ok 11), .exit 10, .reap 10]),
      s.Tracked := by
  decide

end Rustybox.Init
