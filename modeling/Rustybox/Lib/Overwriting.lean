import Mathlib.Data.List.Basic
import Mathlib.Data.List.Induction

/-!
# Switches set one after another

Each element of a list switches something on or off or leaves it.  What it is in the end is what the
last one that does not leave it says.
-/

namespace Overwriting

variable {α : Type} (act : α → Option Bool)

/-- The switch after the list. -/
def after (l : List α) : Bool := l.foldl (fun b a => (act a).getD b) false

variable {act}

theorem after_concat (l : List α) (a : α) : after act (l ++ [a]) = (act a).getD (after act l) := by
  rw [after, List.foldl_append]
  rfl

theorem append_eq_concat {l c a : List α} {s x : α} (h : l ++ [x] = a ++ s :: c) :
    (c = [] ∧ l = a ∧ x = s) ∨ ∃ c', c = c' ++ [x] ∧ l = a ++ s :: c' := by
  rcases List.eq_nil_or_concat' c with rfl | ⟨c', y, rfl⟩
  · obtain ⟨hl, hx⟩ := List.append_inj' h rfl
    exact Or.inl ⟨rfl, hl, List.singleton_inj.mp hx⟩
  · rw [← List.cons_append, ← List.append_assoc] at h
    obtain ⟨hl, hx⟩ := List.append_inj' h rfl
    rw [List.singleton_inj.mp hx]
    exact Or.inr ⟨c', rfl, hl⟩

/-- It is off where whatever switches it on is followed by something that switches it. -/
theorem after_eq_false_iff (l : List α) :
    after act l = false ↔
      ∀ a s b, l = a ++ s :: b → act s = some true → ∃ u ∈ b, act u ≠ none := by
  induction l using List.reverseRecOn with
  | nil =>
    refine iff_of_true rfl fun a s b h => ?_
    cases List.append_eq_nil_iff.mp h.symm |>.2
  | append_singleton l x ih =>
    rw [after_concat]
    cases hx : act x with
    | none =>
      rw [Option.getD_none, ih]
      constructor
      · intro h a s b hl hs
        rcases append_eq_concat hl with ⟨-, -, rfl⟩ | ⟨b', rfl, hl'⟩
        · rw [hx] at hs
          cases hs
        · obtain ⟨u, hu, hact⟩ := h a s b' hl' hs
          exact ⟨u, List.mem_append_left _ hu, hact⟩
      · rintro h a s b rfl hs
        obtain ⟨u, hu, hact⟩ := h a s (b ++ [x]) (by simp) hs
        rcases List.mem_append.mp hu with hu | hu
        · exact ⟨u, hu, hact⟩
        · rw [List.mem_singleton.mp hu] at hact
          exact absurd hx hact
    | some v =>
      rw [Option.getD_some]
      constructor
      · rintro rfl a s b hl hs
        rcases append_eq_concat hl with ⟨-, -, rfl⟩ | ⟨b', rfl, -⟩
        · rw [hx] at hs
          cases hs
        · exact ⟨x, List.mem_append_right _ (List.mem_singleton_self x), by rw [hx]; simp⟩
      · intro h
        cases v with
        | false => rfl
        | true =>
          obtain ⟨u, hu, -⟩ := h l x [] rfl hx
          cases hu

section

variable (act) (off : α → Bool)

/-- Some elements that leave the switch are to switch it off. -/
def switchedOff (a : α) : Option Bool := if off a then some false else act a

variable {act off}

/-- It is the same where each of these that comes after one that switches on has some other one that
switches between the two or behind it. -/
theorem after_eq_iff (hoff : ∀ a, off a = true → act a = none) (l : List α) :
    after act l = after (switchedOff act off) l ↔
      ∀ a s b t c, l = a ++ s :: (b ++ t :: c) → act s = some true → off t = true →
        ∃ u ∈ b ++ c, act u ≠ none := by
  induction l using List.reverseRecOn with
  | nil =>
    refine iff_of_true rfl fun a s b t c h => ?_
    cases List.append_eq_nil_iff.mp h.symm |>.2
  | append_singleton l x ih =>
    rw [after_concat, after_concat]
    cases hxoff : off x with
    | true =>
      have hx := hoff x hxoff
      rw [switchedOff, hxoff, if_pos rfl, hx, Option.getD_none, Option.getD_some, after_eq_false_iff]
      constructor
      · intro h a s b t c hl hs ht
        rw [← List.cons_append, ← List.append_assoc] at hl
        rcases append_eq_concat hl with ⟨rfl, hl', -⟩ | ⟨c', rfl, hl'⟩
        · obtain ⟨u, hu, hact⟩ := h a s b hl' hs
          exact ⟨u, List.mem_append_left _ hu, hact⟩
        · obtain ⟨u, hu, hact⟩ := h a s (b ++ t :: c') (by simpa using hl') hs
          refine ⟨u, ?_, hact⟩
          rcases List.mem_append.mp hu with hu | hu
          · exact List.mem_append_left _ hu
          · rcases List.mem_cons.mp hu with rfl | hu
            · exact absurd (hoff u ht) hact
            · exact List.mem_append_right _ (List.mem_append_left _ hu)
      · rintro h a s b rfl hs
        obtain ⟨u, hu, hact⟩ := h a s b x [] (by simp) hs hxoff
        rw [List.append_nil] at hu
        exact ⟨u, hu, hact⟩
    | false =>
      rw [switchedOff, hxoff, if_neg Bool.false_ne_true]
      cases hx : act x with
      | none =>
        rw [Option.getD_none, Option.getD_none, ih]
        constructor
        · intro h a s b t c hl hs ht
          rw [← List.cons_append, ← List.append_assoc] at hl
          rcases append_eq_concat hl with ⟨-, -, rfl⟩ | ⟨c', rfl, hl'⟩
          · rw [hxoff] at ht
            cases ht
          · obtain ⟨u, hu, hact⟩ := h a s b t c' (by simpa using hl') hs ht
            refine ⟨u, ?_, hact⟩
            rw [← List.append_assoc]
            exact List.mem_append_left _ hu
        · rintro h a s b t c rfl hs ht
          obtain ⟨u, hu, hact⟩ := h a s b t (c ++ [x]) (by simp) hs ht
          rw [← List.append_assoc] at hu
          rcases List.mem_append.mp hu with hu | hu
          · exact ⟨u, hu, hact⟩
          · rw [List.mem_singleton.mp hu] at hact
            exact absurd hx hact
      | some v =>
        rw [Option.getD_some, Option.getD_some]
        refine iff_of_true rfl fun a s b t c hl hs ht => ?_
        rw [← List.cons_append, ← List.append_assoc] at hl
        rcases append_eq_concat hl with ⟨-, -, rfl⟩ | ⟨c', rfl, hl'⟩
        · rw [hxoff] at ht
          cases ht
        · refine ⟨x, ?_, by rw [hx]; simp⟩
          exact List.mem_append_right _ (List.mem_append_right _ (List.mem_singleton_self x))

end

end Overwriting
