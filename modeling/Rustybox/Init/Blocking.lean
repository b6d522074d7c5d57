import Rustybox.Init.Reaping

/-!
# What holds when the main loop blocks

A round of the main loop ends in `waitpid`.  With `WNOHANG` the call only collects
what has terminated; without it, it sleeps until a child does.  Before it sleeps
the loop should have nothing left to do: every supervised entry is running, and
every signal has been acted on.

Both hold when the call is made for the first time.  The pass over the table fills
every supervised entry, and the flags choose the blocking call only if no signal
was seen after that, so the table is still full (`Fed`).

But the call is in a loop that keeps its flags.  It returns with a child, the loop
clears the entry of that child and calls again, and now it sleeps on an entry that
nobody runs (`sleeps_full_iff`).
-/

namespace Rustybox.Init

open State

variable {s s' : State} {l : Label}

/-! ### The table is full -/

def Label.forkFails : Label → Bool
  | .fork (.error _) => true
  | _ => false

namespace State

/-- Every supervised entry before position `k` records a child. -/
def FilledUpTo (s : State) (k : ℕ) : Prop :=
  ∀ i < k, ∀ a, s.actions[i]? = some a → a.Supervised → a.pid ≠ none

/-- Every supervised entry records a child. -/
def Filled (s : State) : Prop := ∀ a ∈ s.actions, a.Supervised → a.pid ≠ none

/-- From the pass over the table to the call of `waitpid`, as long as no signal is seen. -/
def Fed (s : State) : Prop :=
  match s.ctrl with
  | .runActions mask i .respawn => mask = actRespawn ||| actAskfirst ∧ s.FilledUpTo i
  | .waitFor _ _ _ .respawn => False
  | .check .second _ false | .check .third _ false | .sleep => s.Filled
  | _ => True

end State

theorem filled_of_filledUpTo {i : ℕ} (h : s.FilledUpTo i) (hi : s.actions[i]? = none) :
    s.Filled := by
  intro a ha
  obtain ⟨j, hj⟩ := List.getElem?_of_mem ha
  have hlt : j < s.actions.length := (List.getElem?_eq_some_iff.mp hj).1
  exact h j (Nat.lt_of_lt_of_le hlt (List.getElem?_eq_none_iff.mp hi)) a hj

theorem filledUpTo_succ {i : ℕ} {a : Action} (h : s.FilledUpTo i) (ha : s.actions[i]? = some a)
    (hpid : a.Supervised → a.pid ≠ none) : s.FilledUpTo (i + 1) := by
  intro j hj b hb
  rcases Nat.lt_succ_iff_lt_or_eq.mp hj with hj | rfl
  · exact h j hj b hb
  · cases ha.symm.trans hb
    exact hpid

/-- The pass goes on: the entry at `i` was started. -/
theorem filledUpTo_set {i : ℕ} {a : Action} {p : Pid} (h : s.FilledUpTo i)
    (hactions : s'.actions = s.actions.set i { a with pid := some p }) : s'.FilledUpTo (i + 1) := by
  intro j hj b hb
  rw [hactions] at hb
  rcases Nat.lt_succ_iff_lt_or_eq.mp hj with hj | rfl
  · rw [List.getElem?_set_ne (Nat.ne_of_gt hj)] at hb
    exact h j hj b hb
  · intro _ hnone
    rw [List.getElem?_set] at hb
    split at hb
    · split at hb
      · cases hb
        cases hnone
      · cases hb
    · contradiction

theorem fed_step (h : step s l = some s') (hfork : l.forkFails = false) (hfed : s.Fed) :
    s'.Fed := by
  cases step_transition h with
  | exit | adopt | ignored => exact hfed
  | signal => rw [interrupted_saFlags]; exact hfed
  | @done _ _ caller hctrl hi =>
    rw [Fed, hctrl] at hfed
    rcases caller with (_ | _) | _ | ⟨_ | _ | _, _⟩ | _ | _
    case respawn => exact filled_of_filledUpTo hfed.2 hi
    all_goals trivial
  | @skip _ _ caller _ hctrl ha hskip =>
    rw [Fed, hctrl] at hfed
    cases caller with
    | respawn =>
      obtain ⟨rfl, hfilled⟩ := hfed
      exact ⟨rfl, filledUpTo_succ hfilled ha fun hsup => hskip.resolve_left hsup⟩
    | _ => trivial
  | forkFailed => cases hfork
  | @start _ _ caller _ _ hctrl =>
    rw [Fed, hctrl] at hfed
    cases caller with
    | respawn => exact ⟨hfed.1, filledUpTo_set hfed.2 rfl⟩
    | _ => trivial
  | @fork _ _ caller _ _ hctrl ha hmask hsup =>
    rw [Fed, hctrl] at hfed
    cases caller with
    | respawn =>
      -- what the pass does not skip is supervised
      obtain ⟨rfl, _⟩ := hfed
      exact absurd hmask hsup
    | _ => rw [Fed]; split_ifs <;> trivial
  | @waitedFor _ _ _ _ caller hctrl =>
    rw [Fed, hctrl] at hfed
    cases caller with
    | respawn => exact hfed.elim
    | _ => rw [Fed, hctrl]; split_ifs <;> trivial
  | @waitedInVain _ _ _ caller hctrl =>
    rw [Fed, hctrl] at hfed
    cases caller with
    | respawn => exact hfed.elim
    | _ => trivial
  | @checked c any hctrl =>
    rw [Fed, hctrl] at hfed
    rcases c with _ | _ | _ <;> cases any
    · exact ⟨rfl, nofun⟩
    · exact ⟨rfl, nofun⟩
    · exact hfed
    all_goals trivial
  | @unset c _ _ any hctrl =>
    rw [Fed, hctrl] at hfed
    rcases c with _ | _ | _ <;> cases any
    all_goals exact hfed
  | @reload c => rcases c with _ | _ | _ <;> trivial
  | wake hctrl =>
    rw [Fed, hctrl] at hfed
    exact hfed
  | mark hctrl => rcases hctrl with ⟨_, rfl⟩ | ⟨_, rfl⟩ <;> trivial
  | execRestart _ _ hctrl' => rcases hctrl' with rfl | rfl | ⟨_, _, rfl⟩ <;> trivial
  | ctrlAltDel | shutdown | stillAlive | childless | block | reboot | rebootFailed | rebooted =>
    trivial

theorem boot_fed (runlevel : String) (content : Option String) : (boot runlevel content).Fed :=
  trivial

/-! ### Holes -/

namespace State

/-- The main loop is at a `waitpid` without `WNOHANG`, about to call it or in it. -/
def Blocking (s : State) : Prop := s.ctrl = .drain false ∨ s.ctrl = .waiting

/-- Every supervised entry has a child that was not reaped: if the call does sleep,
because nothing is there to be reaped, the child is running. -/
def NoHole (s : State) : Prop :=
  ∀ a ∈ s.actions, a.Supervised → ∃ c ∈ s.children, a.pid = some c.pid ∧
    ((∀ d ∈ s.children, d.running = true) → c.running = true)

/-- The blocking `waitpid` is about to return the child of a supervised entry. -/
def Reopens (s : State) : Label → Prop
  | .reap p => s.ctrl = .waiting ∧ ∃ a ∈ s.actions, a.Supervised ∧ a.pid = some p
  | _ => False

/-- The main loop is about to have a hole and something to wait for: the call returns
the child of a supervised entry and another child is left, or there is no child at all
and an orphan arrives. -/
def Abandons (s : State) : Label → Prop
  | .reap p => s.Reopens (.reap p) ∧ ∃ c ∈ s.children, c.pid ≠ p
  | .adopt _ => s.Blocking ∧ s.children = [] ∧ ∃ a ∈ s.actions, a.Supervised
  | _ => False

instance (s : State) : Decidable s.Blocking :=
  inferInstanceAs (Decidable (s.ctrl = .drain false ∨ s.ctrl = .waiting))

instance (s : State) : Decidable s.NoHole :=
  inferInstanceAs (Decidable (∀ a ∈ s.actions, a.Supervised →
    ∃ c ∈ s.children, a.pid = some c.pid ∧
      ((∀ d ∈ s.children, d.running = true) → c.running = true)))

end State

theorem noHole_of_tracked (ht : s.Tracked) (hf : s.Filled) : s.NoHole := by
  intro a ha hsup
  obtain ⟨p, hp⟩ := Option.ne_none_iff_exists'.mp (hf a ha hsup)
  obtain ⟨c, hc, rfl⟩ := ht a ha p hp
  exact ⟨c, hc, hp, fun hall => hall c hc⟩

theorem filled_of_noHole (h : s.NoHole) : s.Filled := by
  intro a ha hsup
  obtain ⟨c, _, hc, _⟩ := h a ha hsup
  rw [hc]
  exact Option.some_ne_none _

/-- Where the blocking call comes from: from the third check, or it goes on, or it
has returned a child. -/
theorem Transition.blocking (h : Transition s l s') (hb : s'.Blocking) :
    (s.ctrl = .check .third [] false ∧ s'.actions = s.actions) ∨
    (s.Blocking ∧ s'.actions = s.actions ∧
      (s'.children ≠ [] → s.children = [] → ∃ p, l = .adopt p)) ∨
    ∃ p, l = .reap p ∧ s.ctrl = .waiting ∧ s'.actions = (markTerminated s.actions p).1 ∧
      s'.children = s.reaped p := by
  cases h with
  | exit =>
    refine Or.inr (Or.inl ⟨hb, rfl, fun hne h => absurd ?_ hne⟩)
    simp [h]
  | adopt => exact Or.inr (Or.inl ⟨hb, rfl, fun _ _ => ⟨_, rfl⟩⟩)
  | signal =>
    rw [Blocking, interrupted_saFlags] at hb
    exact Or.inr (Or.inl ⟨hb, rfl, fun hne h => absurd h hne⟩)
  | ignored => exact Or.inr (Or.inl ⟨hb, rfl, fun hne h => absurd h hne⟩)
  | @checked c any hctrl =>
    rcases c with _ | _ | _ <;> cases any
    case third.false => exact Or.inl ⟨hctrl, rfl⟩
    all_goals rcases hb with hb | hb <;> cases hb
  | mark hctrl =>
    rcases hctrl with ⟨_, rfl⟩ | ⟨hctrl, rfl⟩
    · rcases hb with hb | hb <;> cases hb
    · exact Or.inr (Or.inr ⟨_, rfl, hctrl, rfl, rfl⟩)
  | block hctrl => exact Or.inr (Or.inl ⟨Or.inl hctrl, rfl, fun hne h => absurd h hne⟩)
  | _ => rcases hb with hb | hb <;> grind [returnTo.eq_def, mainLoop]

theorem filled_markTerminated {p : Pid} (hf : s.Filled)
    (hactions : s'.actions = (markTerminated s.actions p).1)
    (hp : ¬ ∃ a ∈ s.actions, a.Supervised ∧ a.pid = some p) : s'.Filled := by
  intro a ha hsup
  rw [hactions] at ha
  obtain ⟨b, hb, rfl⟩ := mem_markTerminated.mp ha
  split at hsup
  · next hbp => exact absurd ⟨b, hb, hsup, hbp⟩ hp
  · next hbp =>
    rw [if_neg hbp]
    exact hf b hb hsup

theorem not_filled_markTerminated {p : Pid} (hactions : s'.actions = (markTerminated s.actions p).1)
    (hp : ∃ a ∈ s.actions, a.Supervised ∧ a.pid = some p) : ¬ s'.Filled := by
  obtain ⟨a, ha, hsup, hpid⟩ := hp
  intro hf
  have hmem : { a with pid := none } ∈ s'.actions := by
    rw [hactions]
    exact mem_markTerminated.mpr ⟨a, ha, if_pos hpid⟩
  exact hf _ hmem hsup rfl

theorem Transition.reap_waiting {p : Pid} (h : Transition s (.reap p) s')
    (hctrl : s.ctrl = .waiting) :
    s'.ctrl = .drain false ∧ s'.actions = (markTerminated s.actions p).1 ∧
      s'.children = s.reaped p := by
  cases h with
  | waitedFor hctrl' | rebooted hctrl' => cases hctrl.symm.trans hctrl'
  | execRestart hctrl' => cases hctrl.symm.trans hctrl'
  | mark hctrl' =>
    rcases hctrl' with ⟨hctrl', _⟩ | ⟨_, rfl⟩
    · cases hctrl.symm.trans hctrl'
    · exact ⟨rfl, rfl, rfl⟩

/-- A blocking call finds the table full, if the steps before it did and this one
does not take out the child of an entry.  With `busy` the calls that find no child at
all do not count. -/
theorem filled_blocking_step {busy : Bool} (h : step s l = some s') (hfed : s.Fed)
    (hnext : s.Blocking → (busy = true → s.children ≠ []) → s.Filled)
    (hok : ¬ bif busy then s.Abandons l else s.Reopens l) (hb : s'.Blocking)
    (hbusy : busy = true → s'.children ≠ []) : s'.Filled := by
  rcases (step_transition h).blocking hb with ⟨hctrl, hactions⟩ | ⟨hb', hactions, hchildren⟩ |
    ⟨p, rfl, hctrl, hactions, hchildren⟩
  · rw [Fed, hctrl] at hfed
    rw [Filled, hactions]
    exact hfed
  · rw [Filled, hactions]
    by_cases hempty : busy = true ∧ s.children = []
    · -- an orphan has arrived, and there is no entry it could keep from being started
      obtain ⟨rfl, hnil⟩ := hempty
      obtain ⟨p, rfl⟩ := hchildren (hbusy rfl) hnil
      intro a ha hsup
      exact absurd ⟨hb', hnil, a, ha, hsup⟩ hok
    · exact hnext hb' fun hbs hnil => hempty ⟨hbs, hnil⟩
  · have hleft : busy = true → ∃ c ∈ s.children, c.pid ≠ p := by
      intro hbs
      obtain ⟨c, hc⟩ := List.exists_mem_of_ne_nil _ (hbusy hbs)
      rw [hchildren] at hc
      exact ⟨c, mem_reaped.mp hc⟩
    have hne : busy = true → s.children ≠ [] := by
      intro hbs
      obtain ⟨c, hc, _⟩ := hleft hbs
      exact List.ne_nil_of_mem hc
    refine filled_markTerminated (hnext (Or.inr hctrl) hne) hactions fun hp => hok ?_
    cases busy with
    | false => exact ⟨hctrl, hp⟩
    | true => exact ⟨⟨hctrl, hp⟩, hleft rfl⟩

/-- A step that takes out the child of an entry leaves a hole. -/
theorem not_noHole_of_reopens {p : Pid} (h : step s (.reap p) = some s')
    (hopen : s.Reopens (.reap p)) : s'.Blocking ∧ s'.children = s.reaped p ∧ ¬ s'.NoHole := by
  obtain ⟨hctrl, hp⟩ := hopen
  obtain ⟨hctrl', hactions, hchildren⟩ := (step_transition h).reap_waiting hctrl
  exact ⟨Or.inl hctrl', hchildren,
    fun hhole => not_filled_markTerminated hactions hp (filled_of_noHole hhole)⟩

theorem Transition.adopted {p : Pid} (h : Transition s (.adopt p) s') :
    s'.ctrl = s.ctrl ∧ s'.actions = s.actions ∧ s'.children ≠ [] := by
  cases h with
  | adopt => exact ⟨rfl, rfl, List.cons_ne_nil _ _⟩
  | execRestart _ hl => rcases hl with hl | ⟨_, hl⟩ <;> cases hl

theorem not_noHole_of_abandons (h : step s l = some s') (ht : s.Tracked) (ha : s.Abandons l) :
    s'.Blocking ∧ s'.children ≠ [] ∧ ¬ s'.NoHole := by
  cases l with
  | reap p =>
    obtain ⟨hopen, c, hc, hcp⟩ := ha
    obtain ⟨hb, hchildren, hhole⟩ := not_noHole_of_reopens h hopen
    refine ⟨hb, ?_, hhole⟩
    rw [hchildren]
    exact List.ne_nil_of_mem (mem_reaped.mpr ⟨hc, hcp⟩)
  | adopt p =>
    obtain ⟨hb, hnil, a, ha, hsup⟩ := ha
    obtain ⟨hctrl, hactions, hne⟩ := (step_transition h).adopted
    refine ⟨by rw [Blocking, hctrl]; exact hb, hne, fun hhole => ?_⟩
    obtain ⟨c, _, hpid, _⟩ := hhole a (hactions ▸ ha) hsup
    obtain ⟨d, hd, _⟩ := ht a ha c.pid hpid
    rw [hnil] at hd
    cases hd
  | _ => exact ha.elim

/-- With `busy` the calls that find no child at all do not count. -/
theorem noHole_iff (busy : Bool) (runlevel : String) (content : Option String)
    (labels : List Label)
    (hforks : ∀ m ∈ Machine.moves step (boot runlevel content) labels, m.2.forkFails = false)
    (hkept : ∀ m ∈ Machine.moves step (boot runlevel content) labels, ¬ m.1.Forgets m.2) :
    (∀ s ∈ Machine.states step (boot runlevel content) labels,
        s.Blocking → (busy = true → s.children ≠ []) → s.NoHole) ↔
      ∀ m ∈ Machine.moves step (boot runlevel content) labels,
        ¬ bif busy then m.1.Abandons m.2 else m.1.Reopens m.2 := by
  refine Machine.states_iff_moves
    (J := fun s => s.Tracked ∧ s.RebootUnrecorded ∧ s.Fed)
    (P := fun s => s.Blocking → (busy = true → s.children ≠ []) → s.NoHole)
    (A := fun s l => l.forkFails = false ∧ ¬ s.Forgets l)
    (G := fun s l => ¬ bif busy then s.Abandons l else s.Reopens l)
    ?_ ?_ ?_ ⟨boot_tracked _ _, boot_rebootUnrecorded _ _, boot_fed _ _⟩ ?_ labels
    (fun m hm => ⟨hforks m hm, hkept m hm⟩)
  · rintro s l s' h ⟨hfork, hok⟩ ⟨ht, hr, hfed⟩ _
    exact ⟨tracked_step h hr ht hok, rebootUnrecorded_step h ht hr, fed_step h hfork hfed⟩
  · rintro s l s' h ⟨_, hok⟩ ⟨ht, hr, hfed⟩ hP hgood hb hbusy
    exact noHole_of_tracked (tracked_step h hr ht hok)
      (filled_blocking_step h hfed (fun hb hne => filled_of_noHole (hP hb hne)) hgood hb hbusy)
  · rintro s l s' h _ ⟨ht, _⟩ _ hP' hbad
    cases busy with
    | true =>
      obtain ⟨hb, hne, hhole⟩ := not_noHole_of_abandons h ht hbad
      exact hhole (hP' hb fun _ => hne)
    | false =>
      cases l with
      | reap p =>
        obtain ⟨hb, _, hhole⟩ := not_noHole_of_reopens h hbad
        exact hhole (hP' hb nofun)
      | _ => exact hbad.elim
  · intro hb
    rcases hb with hb | hb <;> cases hb

/-- **The main loop does not block on a hole** exactly when its blocking `waitpid`
never returns the child of a supervised entry, and does not sleep on one exactly when
it never abandons one.  Every `fork` succeeds, and no record is wrong for the other
reason (`Forgets`). -/
theorem sleeps_full_iff (runlevel : String) (content : Option String) (labels : List Label)
    (hforks : ∀ m ∈ Machine.moves step (boot runlevel content) labels, m.2.forkFails = false)
    (hkept : ∀ m ∈ Machine.moves step (boot runlevel content) labels, ¬ m.1.Forgets m.2) :
    ((∀ s ∈ Machine.states step (boot runlevel content) labels, s.Blocking → s.NoHole) ↔
      ∀ m ∈ Machine.moves step (boot runlevel content) labels, ¬ m.1.Reopens m.2) ∧
    ((∀ s ∈ Machine.states step (boot runlevel content) labels,
        s.Blocking → s.children ≠ [] → s.NoHole) ↔
      ∀ m ∈ Machine.moves step (boot runlevel content) labels, ¬ m.1.Abandons m.2) := by
  have hlit := noHole_iff false runlevel content labels hforks hkept
  have hbusy := noHole_iff true runlevel content labels hforks hkept
  simp only [Bool.false_eq_true, false_implies, true_implies, cond_false, cond_true] at hlit hbusy
  exact ⟨hlit, hbusy⟩

/-- Two entries are started, the signals are looked at, and the loop blocks. -/
def twoGettys : State × List Label :=
  (boot "" (some "tty1::respawn:/bin/getty\ntty2::respawn:/bin/getty\n"),
    List.replicate 16 .tau ++ [.fork (.ok 10), .fork (.ok 11)] ++ List.replicate 17 .tau)

/-- One of two gettys dies, and the loop goes back to sleep. -/
theorem sleeps_on_dead_getty :
    (∀ m ∈ Machine.moves step twoGettys.1 (twoGettys.2 ++ [.exit 10, .reap 10, .tau]),
      m.2.forkFails = false) ∧
    ¬ ∀ s ∈ Machine.states step twoGettys.1 (twoGettys.2 ++ [.exit 10, .reap 10, .tau]),
      s.Blocking → s.children ≠ [] → s.NoHole := by
  decide

theorem sleeps_full_two_gettys :
    ((∀ s ∈ Machine.states step twoGettys.1 (twoGettys.2 ++ [.exit 10]), s.Blocking → s.NoHole) ↔
      ∀ m ∈ Machine.moves step twoGettys.1 (twoGettys.2 ++ [.exit 10]), ¬ m.1.Reopens m.2) ∧
    ∃ s ∈ Machine.states step twoGettys.1 (twoGettys.2 ++ [.exit 10]), s.ctrl = .waiting :=
  ⟨(sleeps_full_iff _ _ _ (by decide) (by decide)).1, by decide⟩

end Rustybox.Init
