import Rustybox.Init.Supervisor

/-!
# What a step can do

`Transition` is the step function read backwards: one constructor for each way a
step can go, with the guards that let it through and the state it leads to.
`step_transition` says that there is no other way, and nothing after it unfolds
`step` again.

Most steps only move the control point.  `Effect` lists the ways to change
anything else that lasts: a child exits, a child is forked that no entry records,
an entry is started and recorded, a child is reaped by the main loop and marked, a
child is reaped elsewhere and not marked, the table is read again.  Invariants of
the table and of the children are proved from `Effect`, those that follow the
control point from `Transition`.
-/

namespace Rustybox.Init

open State

/-- The ways a step can go. -/
inductive Transition (s : State) : Label → State → Prop
  | exit {p : Pid} : Transition s (.exit p)
      { s with
        children := s.children.map fun c => if c.pid = p then { c with running := false } else c }
  | adopt {p : Pid} (hfresh : s.Fresh p) :
      Transition s (.adopt p) { s with children := s.withChild p none }
  | signal {sig : Sig} (hinstalled : handlersInstalled s.ctrl = true) : Transition s (.signal sig)
      { s with
        pending := Function.update s.pending sig true
        ctrl := interrupted saFlags s.ctrl }
  | ignored {sig : Sig} : Transition s (.signal sig) s
  | done {mask : UInt8} {i : ℕ} {caller : Caller} (hctrl : s.ctrl = .runActions mask i caller)
      (hi : s.actions[i]? = none) : Transition s .tau { s with ctrl := returnTo caller }
  | skip {mask : UInt8} {i : ℕ} {caller : Caller} {a : Action}
      (hctrl : s.ctrl = .runActions mask i caller) (ha : s.actions[i]? = some a)
      (hskip : a.action &&& mask = 0 ∨ a.pid ≠ none) :
      Transition s .tau { s with ctrl := .runActions mask (i + 1) caller }
  | forkFailed {mask : UInt8} {i : ℕ} {caller : Caller} {a : Action} {e : String}
      (hctrl : s.ctrl = .runActions mask i caller) (ha : s.actions[i]? = some a) :
      Transition s (.fork (.error e))
        { s with
          ctrl := .runActions mask (i + 1) caller
          stderr := s.stderr ++ ["init: fork failed: " ++ e] }
  | start {mask : UInt8} {i : ℕ} {caller : Caller} {a : Action} {p : Pid}
      (hctrl : s.ctrl = .runActions mask i caller) (ha : s.actions[i]? = some a)
      (hmask : a.action &&& mask ≠ 0) (hsup : a.Supervised) (hpid : a.pid = none)
      (hfresh : s.Fresh p) : Transition s (.fork (.ok p))
        { s with
          actions := s.actions.set i { a with pid := some p }
          children := s.withChild p (some (entryId s.actions i a))
          ctrl := .runActions mask (i + 1) caller }
  | fork {mask : UInt8} {i : ℕ} {caller : Caller} {a : Action} {p : Pid}
      (hctrl : s.ctrl = .runActions mask i caller) (ha : s.actions[i]? = some a)
      (hmask : a.action &&& mask ≠ 0) (hsup : ¬ a.Supervised) (hfresh : s.Fresh p) :
      Transition s (.fork (.ok p))
        { s with
          children := s.withChild p none
          ctrl := if waitsForCompletion mask then .waitFor p mask i caller
            else .runActions mask (i + 1) caller }
  | waitedFor {pid p : Pid} {mask : UInt8} {i : ℕ} {caller : Caller}
      (hctrl : s.ctrl = .waitFor pid mask i caller) (hzombie : s.Zombie p) :
      Transition s (.reap p)
        { s with
          children := s.reaped p
          ctrl := if p = pid then .runActions mask (i + 1) caller else s.ctrl }
  | waitedInVain {pid : Pid} {mask : UInt8} {i : ℕ} {caller : Caller}
      (hctrl : s.ctrl = .waitFor pid mask i caller) :
      Transition s .echild { s with ctrl := .runActions mask (i + 1) caller }
  | checked {c : Check} {any : Bool} (hctrl : s.ctrl = .check c [] any) :
      Transition s .tau { s with ctrl := afterCheck c any }
  | unset {c : Check} {sig : Sig} {todo : List Sig} {any : Bool}
      (hctrl : s.ctrl = .check c (sig :: todo) any) (hpending : s.pending sig = false) :
      Transition s .tau { s with ctrl := .check c todo any }
  | reload {c : Check} {todo : List Sig} {any : Bool} {content : Option String}
      (hctrl : s.ctrl = .check c (.hup :: todo) any) : Transition s (.readInittab content)
        { actions := (parseInittab content).1
          pending := Function.update s.pending .hup false
          children := s.children
          ctrl := .check c todo true
          stderr := s.stderr ++ (parseInittab content).2
          gen := s.gen + 1 }
  | ctrlAltDel {c : Check} {todo : List Sig} {any : Bool}
      (hctrl : s.ctrl = .check c (.int :: todo) any) : Transition s .tau
        { s with
          pending := Function.update s.pending .int false
          ctrl := .runActions actCtrlaltdel 0 (.ctrlAltDel c todo) }
  | shutdown {c : Check} {sig : Sig} {todo : List Sig} {any : Bool} (goal : Goal)
      (hctrl : s.ctrl = .check c (sig :: todo) any) : Transition s .tau
        { s with
          pending := Function.update s.pending sig false
          ctrl := .runActions actShutdown 0 (.shutdown goal) }
  | wake (hctrl : s.ctrl = .sleep) :
      Transition s .tau { s with ctrl := .check .third Sig.all false }
  | mark {p : Pid} {ctrl : Ctrl}
      (hctrl : s.ctrl = .drain true ∧ ctrl = .drain true ∨ s.ctrl = .waiting ∧ ctrl = .drain false)
      (hzombie : s.Zombie p) : Transition s (.reap p)
        { s with
          actions := (markTerminated s.actions p).1
          stderr := s.stderr ++ (markTerminated s.actions p).2
          children := s.reaped p
          ctrl }
  | stillAlive (hctrl : s.ctrl = .drain true) :
      Transition s .stillAlive { s with ctrl := mainLoop }
  | childless {nohang : Bool} (hctrl : s.ctrl = .drain nohang) :
      Transition s .echild { s with ctrl := mainLoop }
  | block (hctrl : s.ctrl = .drain false) (hchildren : s.children ≠ []) :
      Transition s .tau { s with ctrl := .waiting }
  | execRestart {l : Label} {ctrl : Ctrl} (hctrl : s.ctrl = .execRestart)
      (hl : l = .tau ∨ ∃ ok, l = .execvp ok)
      (hctrl' : ctrl = .runActions actShutdown 0 (.shutdown (.halt .usr1)) ∨ ctrl = .exited ∨
        ∃ path argv, ctrl = .execed path argv) : Transition s l { s with ctrl }
  | reboot {magic : Magic} {p : Pid} (hctrl : s.ctrl = .reboot magic) (hfresh : s.Fresh p) :
      Transition s (.fork (.ok p))
        { s with children := s.withChild p none, ctrl := .awaitReboot magic p }
  | rebootFailed {magic : Magic} {e : String} (hctrl : s.ctrl = .reboot magic) :
      Transition s (.fork (.error e)) { s with ctrl := .exited }
  | rebooted {magic : Magic} {p : Pid} (hctrl : s.ctrl = .awaitReboot magic p)
      (hzombie : s.Zombie p) :
      Transition s (.reap p) { s with children := s.reaped p, ctrl := .exited }

variable {s s' : State} {l : Label}

/-! ### There is no other way -/

theorem stepRunActions_transition {mask : UInt8} {i : ℕ} {caller : Caller}
    (hctrl : s.ctrl = .runActions mask i caller)
    (h : stepRunActions s mask i caller l = some s') : Transition s l s' := by
  rw [stepRunActions.eq_def] at h
  dsimp only at h
  split at h
  · next hi =>
    split at h
    · cases h
      exact .done hctrl hi
    · cases h
  · next a ha =>
    split at h
    · next hmask =>
      split at h
      · cases h
        exact .skip hctrl ha (Or.inl hmask)
      · cases h
    · next hmask =>
      split at h
      · next hsup =>
        split at h
        · next p hpid =>
          cases h
          exact .skip hctrl ha (Or.inr (by rw [hpid]; exact Option.some_ne_none p))
        · next p hpid =>
          split at h
          · next hfresh =>
            cases h
            exact .start hctrl ha hmask hsup hpid hfresh
          · cases h
        · cases h
          exact .forkFailed hctrl ha
        · cases h
      · next hsup =>
        split at h
        · split at h
          · next hfresh =>
            cases h
            exact .fork hctrl ha hmask hsup hfresh
          · cases h
        · cases h
          exact .forkFailed hctrl ha
        · cases h

theorem stepWaitFor_transition {pid : Pid} {mask : UInt8} {i : ℕ} {caller : Caller}
    (hctrl : s.ctrl = .waitFor pid mask i caller)
    (h : stepWaitFor s pid mask i caller l = some s') : Transition s l s' := by
  rw [stepWaitFor.eq_def] at h
  split at h
  · split at h
    · next hzombie =>
      cases h
      exact .waitedFor hctrl hzombie
    · cases h
  · split at h
    · cases h
      exact .waitedInVain hctrl
    · cases h
  · cases h

theorem stepCheck_transition {c : Check} {todo : List Sig} {any : Bool}
    (hctrl : s.ctrl = .check c todo any) (h : stepCheck s c todo any l = some s') :
    Transition s l s' := by
  rw [stepCheck.eq_def] at h
  dsimp only at h
  split at h
  · split at h
    · cases h
      exact .checked hctrl
    · cases h
  · split at h
    · split at h
      · cases h
        exact .reload hctrl
      · cases h
        exact .ctrlAltDel hctrl
      · cases h
        exact .shutdown .restart hctrl
      · cases h
        exact .shutdown (.halt .term) hctrl
      · cases h
        exact .shutdown (.halt .usr1) hctrl
      · cases h
        exact .shutdown (.halt .usr2) hctrl
      · cases h
    · next hpending =>
      split at h
      · cases h
        exact .unset hctrl (Bool.eq_false_iff.mpr hpending)
      · cases h

theorem reapMarked_transition {p : Pid} {ctrl : Ctrl}
    (hctrl : s.ctrl = .drain true ∧ ctrl = .drain true ∨ s.ctrl = .waiting ∧ ctrl = .drain false)
    (h : reapMarked s p ctrl = some s') : Transition s (.reap p) s' := by
  rw [reapMarked] at h
  split at h
  · next hzombie =>
    cases h
    exact .mark hctrl hzombie
  · cases h

theorem stepDrain_transition {nohang : Bool} (hctrl : s.ctrl = .drain nohang)
    (h : stepDrain s nohang l = some s') : Transition s l s' := by
  rw [stepDrain.eq_def] at h
  split at h
  · exact reapMarked_transition (Or.inl ⟨hctrl, rfl⟩) h
  · split at h
    · cases h
      exact .stillAlive hctrl
    · cases h
  · split at h
    · next hchildren =>
      cases h
      exact .block hctrl hchildren
    · cases h
  · split at h
    · cases h
      exact .childless hctrl
    · cases h
  · cases h

theorem stepExecRestart_transition (hctrl : s.ctrl = .execRestart)
    (h : stepExecRestart s l = some s') : Transition s l s' := by
  rw [stepExecRestart.eq_def] at h
  dsimp only at h
  split at h
  · cases h
    exact .execRestart hctrl (Or.inl rfl) (Or.inl rfl)
  · next ok _ =>
    have hl : Label.execvp ok = .tau ∨ ∃ ok', Label.execvp ok = .execvp ok' := Or.inr ⟨ok, rfl⟩
    split at h
    · cases h
      exact .execRestart hctrl hl (Or.inr (Or.inl rfl))
    · next path argv _ =>
      cases h
      cases ok with
      | true => exact .execRestart hctrl hl (Or.inr (Or.inr ⟨path, argv, rfl⟩))
      | false => exact .execRestart hctrl hl (Or.inl rfl)
  · cases h

theorem stepReboot_transition {magic : Magic} (hctrl : s.ctrl = .reboot magic)
    (h : stepReboot s magic l = some s') : Transition s l s' := by
  rw [stepReboot.eq_def] at h
  split at h
  · split at h
    · next hfresh =>
      cases h
      exact .reboot hctrl hfresh
    · cases h
  · cases h
    exact .rebootFailed hctrl
  · cases h

theorem stepAwaitReboot_transition {magic : Magic} {pid : Pid}
    (hctrl : s.ctrl = .awaitReboot magic pid) (h : stepAwaitReboot s pid l = some s') :
    Transition s l s' := by
  rw [stepAwaitReboot.eq_def] at h
  split at h
  · split at h
    · next hp =>
      cases h
      obtain ⟨rfl, hzombie⟩ := hp
      exact .rebooted hctrl hzombie
    · cases h
  · cases h

theorem stepInit_transition (h : stepInit s l = some s') : Transition s l s' := by
  rw [stepInit.eq_def] at h
  split at h
  · next hctrl => exact stepRunActions_transition hctrl h
  · next hctrl => exact stepWaitFor_transition hctrl h
  · next hctrl => exact stepCheck_transition hctrl h
  · next hctrl =>
    split at h
    · cases h
      exact .wake hctrl
    · cases h
  · next hctrl => exact stepDrain_transition hctrl h
  · next hctrl =>
    split at h
    · exact reapMarked_transition (Or.inr ⟨hctrl, rfl⟩) h
    · cases h
  · next hctrl => exact stepExecRestart_transition hctrl h
  · next hctrl => exact stepReboot_transition hctrl h
  · next hctrl => exact stepAwaitReboot_transition hctrl h
  · cases h
  · cases h

/-- **Every step is one of the transitions.** -/
theorem step_transition (h : step s l = some s') : Transition s l s' := by
  rw [step.eq_def] at h
  split at h
  · split at h
    · cases h
      exact .exit
    · cases h
  · split at h
    · next hfresh =>
      cases h
      exact .adopt hfresh
    · cases h
  · split at h
    · next hinstalled =>
      cases h
      exact .signal hinstalled
    · cases h
      exact .ignored
  · exact stepInit_transition h

/-! ### Effects -/

/-- What a step does to the table, the children and the count of reloads. -/
inductive Effect (s : State) : Label → State → Prop
  | quiet {l : Label} {s' : State} (hl : ∀ p, l ≠ .reap p) (hactions : s'.actions = s.actions)
      (hchildren : s'.children = s.children) (hgen : s'.gen = s.gen) : Effect s l s'
  | exited {p : Pid} {s' : State} (hactions : s'.actions = s.actions)
      (hchildren : s'.children =
        s.children.map fun c => if c.pid = p then { c with running := false } else c)
      (hgen : s'.gen = s.gen) : Effect s (.exit p) s'
  | forked {l : Label} {p : Pid} {s' : State} (hl : ∀ p, l ≠ .reap p) (hfresh : s.Fresh p)
      (hactions : s'.actions = s.actions) (hchildren : s'.children = s.withChild p none)
      (hgen : s'.gen = s.gen) : Effect s l s'
  | started {mask : UInt8} {i : ℕ} {caller : Caller} {a : Action} {p : Pid} {s' : State}
      (hctrl : s.ctrl = .runActions mask i caller) (ha : s.actions[i]? = some a)
      (hmask : a.action &&& mask ≠ 0) (hsup : a.Supervised) (hpid : a.pid = none)
      (hfresh : s.Fresh p) (hactions : s'.actions = s.actions.set i { a with pid := some p })
      (hchildren : s'.children = s.withChild p (some (entryId s.actions i a)))
      (hgen : s'.gen = s.gen) : Effect s (.fork (.ok p)) s'
  | marked {p : Pid} {s' : State} (hctrl : s.ctrl = .drain true ∨ s.ctrl = .waiting)
      (hzombie : s.Zombie p) (hactions : s'.actions = (markTerminated s.actions p).1)
      (hchildren : s'.children = s.reaped p) (hgen : s'.gen = s.gen) : Effect s (.reap p) s'
  | unmarked {p : Pid} {s' : State}
      (hctrl : (∃ pid mask i caller, s.ctrl = .waitFor pid mask i caller) ∨
        ∃ magic, s.ctrl = .awaitReboot magic p)
      (hzombie : s.Zombie p) (hactions : s'.actions = s.actions)
      (hchildren : s'.children = s.reaped p) (hgen : s'.gen = s.gen) : Effect s (.reap p) s'
  | reloaded {content : Option String} {s' : State}
      (hactions : s'.actions = (parseInittab content).1) (hchildren : s'.children = s.children)
      (hgen : s'.gen = s.gen + 1) : Effect s (.readInittab content) s'

theorem Transition.effect (h : Transition s l s') : Effect s l s' := by
  cases h with
  | exit => exact .exited rfl rfl rfl
  | adopt hfresh => exact .forked nofun hfresh rfl rfl rfl
  | start hctrl ha hmask hsup hpid hfresh =>
    exact .started hctrl ha hmask hsup hpid hfresh rfl rfl rfl
  | fork _ _ _ _ hfresh => exact .forked nofun hfresh rfl rfl rfl
  | waitedFor hctrl hzombie => exact .unmarked (Or.inl ⟨_, _, _, _, hctrl⟩) hzombie rfl rfl rfl
  | reload => exact .reloaded rfl rfl rfl
  | mark hctrl hzombie => exact .marked (hctrl.imp And.left And.left) hzombie rfl rfl rfl
  | reboot _ hfresh => exact .forked nofun hfresh rfl rfl rfl
  | rebooted hctrl hzombie => exact .unmarked (Or.inr ⟨_, hctrl⟩) hzombie rfl rfl rfl
  | execRestart _ hl =>
    rcases hl with rfl | ⟨_, rfl⟩
    · exact .quiet nofun rfl rfl rfl
    · exact .quiet nofun rfl rfl rfl
  | _ => exact .quiet nofun rfl rfl rfl

/-- **There is no other effect.** -/
theorem step_effect (h : step s l = some s') : Effect s l s' := (step_transition h).effect

end Rustybox.Init
