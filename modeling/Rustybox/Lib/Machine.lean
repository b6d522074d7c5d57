import Mathlib.Data.List.Induction

/-!
# Runs of a machine

A machine is a partial step function `step : S → L → Option S`: in state `s` the
label `l` is either refused or leads to one next state.  What the machine does
not decide itself (the answers of the outside world, and the order in which
things happen) is in the labels, so a run is a list of labels, and a run from `s`
goes on until the list ends or a label is refused.  No list of labels has to be
excluded: `states` and `moves` are total.

`states` are the states a run passes through and `moves` its steps, each with the
state it starts from.  The rules below turn facts about one step into facts about
all of a run: `states_of_moves` for an invariant that holds as long as every move
is good, and `states_iff_moves` for a property that good moves keep and bad moves break.

Where nothing is left to the outside world the state is a function of the log of
labels alone, and a property of states is a property of logs: `prefix_induction`
and `forall_prefix_iff` are the same rules, over the prefixes of a log.
-/

namespace Machine

variable {S L : Type*}

/-- The states a run passes through, its first and its last included. -/
def states (step : S → L → Option S) : S → List L → List S
  | s, [] => [s]
  | s, l :: ls =>
    match step s l with
    | some s' => s :: states step s' ls
    | none => [s]

/-- The moves of a run: each label that was taken, with the state it was taken in. -/
def moves (step : S → L → Option S) : S → List L → List (S × L)
  | _, [] => []
  | s, l :: ls =>
    match step s l with
    | some s' => (s, l) :: moves step s' ls
    | none => []

variable {step : S → L → Option S}

theorem states_cons_of_some {s s' : S} {l : L} (h : step s l = some s') (ls : List L) :
    states step s (l :: ls) = s :: states step s' ls := by rw [states, h]

theorem states_cons_of_none {s : S} {l : L} (h : step s l = none) (ls : List L) :
    states step s (l :: ls) = [s] := by rw [states, h]

theorem moves_cons_of_some {s s' : S} {l : L} (h : step s l = some s') (ls : List L) :
    moves step s (l :: ls) = (s, l) :: moves step s' ls := by rw [moves, h]

theorem moves_cons_of_none {s : S} {l : L} (h : step s l = none) (ls : List L) :
    moves step s (l :: ls) = [] := by rw [moves, h]

theorem self_mem_states (step : S → L → Option S) (s : S) (ls : List L) :
    s ∈ states step s ls := by
  cases ls with
  | nil => exact List.mem_singleton.mpr rfl
  | cons l ls =>
    cases h : step s l with
    | some s' => rw [states_cons_of_some h]; exact List.mem_cons_self
    | none => rw [states_cons_of_none h]; exact List.mem_singleton.mpr rfl

/-- **What good moves preserve holds along a run of good moves.** -/
theorem states_of_moves {I : S → Prop} {G : S → L → Prop}
    (hstep : ∀ s l s', step s l = some s' → G s l → I s → I s') :
    ∀ (ls : List L) (s : S), I s → (∀ m ∈ moves step s ls, G m.1 m.2) →
      ∀ t ∈ states step s ls, I t := by
  intro ls
  induction ls with
  | nil =>
    intro s hs _ t ht
    exact List.mem_singleton.mp ht ▸ hs
  | cons l ls ih =>
    intro s hs hok t ht
    cases h : step s l with
    | none =>
      rw [states_cons_of_none h] at ht
      exact List.mem_singleton.mp ht ▸ hs
    | some s' =>
      rw [states_cons_of_some h] at ht
      rw [moves_cons_of_some h] at hok
      rcases List.mem_cons.mp ht with rfl | ht
      · exact hs
      · exact ih s' (hstep s l s' h (hok _ List.mem_cons_self) hs)
          (fun m hm => hok m (List.mem_cons_of_mem _ hm)) t ht

theorem mem_of_mem_moves : ∀ (ls : List L) (s : S) {m : S × L}, m ∈ moves step s ls →
    m.2 ∈ ls := by
  intro ls
  induction ls with
  | nil => intro s m hm; cases hm
  | cons l ls ih =>
    intro s m hm
    cases h : step s l with
    | none =>
      rw [moves_cons_of_none h] at hm
      cases hm
    | some s' =>
      rw [moves_cons_of_some h] at hm
      rcases List.mem_cons.mp hm with rfl | hm
      · exact List.mem_cons_self
      · exact List.mem_cons_of_mem _ (ih s' hm)

theorem mem_states_of_mem_moves : ∀ (ls : List L) (s : S) {m : S × L}, m ∈ moves step s ls →
    m.1 ∈ states step s ls ∧ ∃ s' ∈ states step s ls, step m.1 m.2 = some s' := by
  intro ls
  induction ls with
  | nil => intro s m hm; exact absurd hm (by simp [moves])
  | cons l ls ih =>
    intro s m hm
    cases h : step s l with
    | none =>
      rw [moves_cons_of_none h] at hm
      exact absurd hm (by simp)
    | some s' =>
      rw [moves_cons_of_some h] at hm
      rw [states_cons_of_some h]
      rcases List.mem_cons.mp hm with rfl | hm
      · exact ⟨List.mem_cons_self, s', List.mem_cons_of_mem _ (self_mem_states step s' ls), h⟩
      · obtain ⟨h1, t, ht, hstep⟩ := ih s' hm
        exact ⟨List.mem_cons_of_mem _ h1, t, List.mem_cons_of_mem _ ht, hstep⟩

/-- **A property that good moves keep and bad moves break** holds along a run
exactly when all of its moves are good.  `J` is what is known of the states as long
as the property holds, and `A` what is known of the moves. -/
theorem states_iff_moves {J P : S → Prop} {A G : S → L → Prop}
    (hJ : ∀ s l s', step s l = some s' → A s l → J s → P s → J s')
    (hgood : ∀ s l s', step s l = some s' → A s l → J s → P s → G s l → P s')
    (hbad : ∀ s l s', step s l = some s' → A s l → J s → P s → P s' → G s l)
    {s : S} (hJs : J s) (hPs : P s) (ls : List L) (hadm : ∀ m ∈ moves step s ls, A m.1 m.2) :
    (∀ t ∈ states step s ls, P t) ↔ ∀ m ∈ moves step s ls, G m.1 m.2 := by
  constructor
  · intro h m hm
    have hinv := states_of_moves (I := J) (G := fun s l => A s l ∧ P s)
      (fun s l s' hs hok hinv => hJ s l s' hs hok.1 hinv hok.2) ls s hJs
      (fun m hm => ⟨hadm m hm, h _ (mem_states_of_mem_moves ls s hm).1⟩)
    obtain ⟨hm1, s', hs', hstep⟩ := mem_states_of_mem_moves ls s hm
    exact hbad _ _ s' hstep (hadm m hm) (hinv _ hm1) (h _ hm1) (h s' hs')
  · intro h t ht
    exact (states_of_moves (I := fun s => J s ∧ P s) (G := fun s l => A s l ∧ G s l)
      (fun s l s' hs hok hinv =>
        ⟨hJ s l s' hs hok.1 hinv.1 hinv.2, hgood s l s' hs hok.1 hinv.1 hinv.2 hok.2⟩)
      ls s ⟨hJs, hPs⟩ (fun m hm => ⟨hadm m hm, h m hm⟩) t ht).2

/-! ### Logs -/

/-- **What one more good entry preserves holds of every log of good entries.** -/
theorem prefix_induction {Q : List L → Prop} {G : List L → L → Prop} (hnil : Q [])
    (hgood : ∀ log l, Q log → G log l → Q (log ++ [l])) :
    ∀ log : List L, (∀ init l, init ++ [l] <+: log → G init l) → Q log := by
  intro log
  induction log using List.reverseRecOn with
  | nil => intro _; exact hnil
  | append_singleton log l ih =>
    intro hok
    exact hgood log l (ih fun init l' h => hok init l' (h.trans (List.prefix_append _ _)))
      (hok log l (List.prefix_refl _))

/-- **A property that good entries keep and bad entries break** holds of every
prefix of a log exactly when all entries of the log are good. -/
theorem forall_prefix_iff {Q : List L → Prop} {G : List L → L → Prop} (hnil : Q [])
    (hgood : ∀ log l, Q log → G log l → Q (log ++ [l]))
    (hbad : ∀ log l, Q log → Q (log ++ [l]) → G log l) (log : List L) :
    (∀ init, init <+: log → Q init) ↔ ∀ init l, init ++ [l] <+: log → G init l := by
  constructor
  · intro h init l hl
    exact hbad init l (h init ((List.prefix_append _ _).trans hl)) (h _ hl)
  · intro h init hinit
    exact prefix_induction hnil hgood init (fun init' l hl => h init' l (hl.trans hinit))

end Machine
