import Rustybox.Passwd.Serial

/-!
# Two runs

Two runs that both succeed have changed the file one after the other, as long as neither acts on
an old file.  A run that opens the file before the other one renames, and waits for `FILE+`, does
act on an old file: it reads the inode that had the name, and what the other one did is lost.
-/

namespace Rustybox.Passwd

open Rustybox.Rust

inductive Run where
  | first
  | second
  deriving DecidableEq

/-- The file is what both calls make of it in some order, and the backup is a version of it. -/
def Serializable (calls : Run → Call) (content : Option Str) (t : State Run) : Prop :=
  (t.content = serial calls [.first, .second] content ∨
    t.content = serial calls [.second, .first] content) ∧
  ∀ n, t.backup = some n → t.data n ∈ t.versions

theorem order_of_both {order : List Run} (hnodup : order.Nodup) (hfirst : Run.first ∈ order)
    (hsecond : Run.second ∈ order) :
    order = [.first, .second] ∨ order = [.second, .first] := by
  have hperm : List.Perm order [.first, .second] :=
    (List.perm_ext_iff_of_nodup hnodup (by decide)).mpr fun p => by cases p <;> simp [*]
  have hlen : order.length = 2 := hperm.length_eq
  cases order with
  | nil => cases hlen
  | cons a order =>
    cases order with
    | nil => cases hlen
    | cons b order =>
      cases order with
      | cons c order => cases hlen
      | nil => cases a <;> cases b <;> simp at *

/-- **No lost update over current files.**  In every run whose moves all act on current files, two
calls that both succeed have had the effect of one after the other. -/
theorem serializable_of_current {calls : Run → Call} {s t : State Run} {moves : List (Move Run)}
    (h : Initial s) (hcur : ∀ m ∈ Machine.moves (step calls) s moves, Current calls m.1 m.2)
    (ht : t ∈ Machine.states (step calls) s moves) (hall : AllSucceeded t) :
    Serializable calls s.content t := by
  obtain ⟨hcontent, hnodup, hmem, hbackup⟩ := serial_of_allSucceeded h hcur ht hall
  refine ⟨?_, hbackup⟩
  by_cases hnone : s.content = none
  · -- a missing file stays missing
    rw [hnone] at hcontent ⊢
    exact Or.inl (hcontent.trans (serial_eq_none.mpr rfl))
  · have hin : ∀ p, p ∈ t.order := fun p => (hmem p).resolve_right hnone
    rcases order_of_both hnodup (hin .first) (hin .second) with ho | ho
    · exact Or.inl (by rw [hcontent, ho])
    · exact Or.inr (by rw [hcontent, ho])

/-! ### Runs on a small file -/

/-- Two calls of `deluser`, for `a` and for `b`. -/
def deleteTwo : Run → Call
  | .first => ⟨bytes "/etc/passwd", some (bytes "a"), [], none, 100, 0⟩
  | .second => ⟨bytes "/etc/passwd", some (bytes "b"), [], none, 100, 0⟩

/-- A file with the users `a` and `b`, and no backup. -/
def twoUsers : State Run where
  data := fun _ => bytes "a:\nb:\n"
  next := 1
  file := some 0
  plus := none
  backup := none
  locks := []
  phase := fun _ => .start
  order := []
  versions := [bytes "a:\nb:\n"]

theorem initial_twoUsers : Initial twoUsers where
  file n hn := by cases hn; decide
  backup n hn := by cases hn
  phase _ := rfl
  order := rfl
  versions := rfl

/-- `n` moves of a run, all of which work. -/
def works (n : ℕ) (p : Run) : List (Move Run) := List.replicate n ⟨p, true⟩

/-- Where a run of moves ends. -/
def last (calls : Run → Call) (s : State Run) (moves : List (Move Run)) : State Run :=
  (Machine.states (step calls) s moves).getLastD s

theorem last_mem (calls : Run → Call) (s : State Run) (moves : List (Move Run)) :
    last calls s moves ∈ Machine.states (step calls) s moves := by
  have hne := List.ne_nil_of_mem (Machine.self_mem_states (step calls) s moves)
  rw [last, List.getLastD_eq_getLast?, List.getLast?_eq_some_getLast hne]
  exact List.getLast_mem hne

theorem allSucceeded_of {t : State Run} (ret ret' : Int32) (h : t.phase .first = .returned ret)
    (h' : t.phase .second = .returned ret') (hret : 0 ≤ ret) (hret' : 0 ≤ ret') :
    AllSucceeded t := by
  intro p
  cases p with
  | first => exact ⟨ret, h, hret⟩
  | second => exact ⟨ret', h', hret'⟩

/-- One call after the other: the file is empty in the end. -/
theorem serializable_one_by_one :
    Serializable deleteTwo (some (bytes "a:\nb:\n"))
      (last deleteTwo twoUsers (works 14 .first ++ works 12 .second)) :=
  serializable_of_current initial_twoUsers (by decide +kernel) (last_mem _ _ _)
    (allSucceeded_of 0 0 (by decide +kernel) (by decide +kernel) (by decide) (by decide))

/-- Both open the file before either renames. -/
def bothOpen : State Run :=
  last deleteTwo twoUsers
    (works 1 .first ++ works 1 .second ++ works 13 .first ++ works 13 .second)

/-- What the first one did is lost. -/
theorem update_lost :
    ¬ ∀ (calls : Run → Call) (s t : State Run) (moves : List (Move Run)), Initial s →
      (calls .first).name ≠ (calls .second).name →
      t ∈ Machine.states (step calls) s moves → AllSucceeded t →
      Serializable calls s.content t := by
  intro h
  have hlost : Serializable deleteTwo twoUsers.content bothOpen :=
    h deleteTwo twoUsers bothOpen _ initial_twoUsers (by decide) (last_mem _ _ _)
      (allSucceeded_of 0 0 (by decide +kernel) (by decide +kernel) (by decide) (by decide))
  have hcontent : bothOpen.content = some (bytes "a:\n") := by decide +kernel
  have hserial : serial deleteTwo [.first, .second] twoUsers.content = some [] ∧
      serial deleteTwo [.second, .first] twoUsers.content = some [] := by decide +kernel
  rcases hlost.1 with ha | hb
  · rw [hcontent, hserial.1] at ha
    exact absurd ha (by decide)
  · rw [hcontent, hserial.2] at hb
    exact absurd hb (by decide)

end Rustybox.Passwd
