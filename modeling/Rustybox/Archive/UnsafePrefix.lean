import Rustybox.Rust.Tokens

/-!
# Names of archive members

`strip_unsafe_prefix`, which is to leave a name that leads down from the current directory.
-/

namespace Rustybox.Archive

open Rustybox.Rust

/-! ### The function -/

def dotdot : Str := [dot, dot]

/-- `strstr`: the string from the first occurrence of `key` on. -/
def strstr : Str → Str → Option Str
  | [], key => if key = [] then some [] else none
  | b :: s, key => if key.isPrefixOf (b :: s) then some (b :: s) else strstr s key

theorem strstr_eq_some {s key r : Str} (h : strstr s key = some r) :
    ∃ u v, s = u ++ r ∧ r = key ++ v := by
  induction s with
  | nil =>
    rw [strstr] at h
    split at h
    · rename_i hkey
      cases h
      exact ⟨[], [], rfl, by rw [hkey]; rfl⟩
    · cases h
  | cons b s ih =>
    rw [strstr] at h
    split at h
    · rename_i hpre
      cases h
      obtain ⟨v, hv⟩ := List.isPrefixOf_iff_prefix.mp hpre
      exact ⟨[], v, rfl, hv.symm⟩
    · obtain ⟨u, v, rfl, hr⟩ := ih h
      exact ⟨b :: u, v, rfl, hr⟩

theorem strstr_eq_none {s key : Str} : strstr s key = none ↔ ¬ key <:+: s := by
  induction s with
  | nil =>
    rw [strstr, List.infix_nil]
    split <;> simp [*]
  | cons b s ih =>
    rw [strstr, List.infix_cons_iff, not_or]
    split
    · rename_i hpre
      exact iff_of_false (by simp) fun h => h.1 (List.isPrefixOf_iff_prefix.mp hpre)
    · rename_i hpre
      rw [ih]
      exact (and_iff_right fun hp => hpre (List.isPrefixOf_iff_prefix.mpr hp)).symm

theorem isPrefixedWith_isSome {s key : Str} : (isPrefixedWith s key).isSome ↔ key <+: s := by
  rw [isPrefixedWith, ← List.isPrefixOf_iff_prefix]
  split <;> simp [*]

/-- One turn of the loop; there is none when it ends. -/
def stripTurn (cp : Str) : Option Str :=
  if startsWith slash cp then some cp.tail
  else if (isPrefixedWith cp (dotdot ++ [slash])).isSome then some (cp.drop 3)
  else (strstr cp (slash :: dotdot ++ [slash])).map (List.drop 4)

theorem stripTurn_eq_some {cp cp' : Str} (h : stripTurn cp = some cp') :
    ∃ u, cp = u ++ slash :: cp' := by
  rw [stripTurn] at h
  split at h
  · rename_i hslash
    cases cp with
    | nil => cases hslash
    | cons b cp =>
      obtain rfl : b = slash := by simpa [startsWith] using hslash
      exact ⟨[], by rw [← Option.some.inj h]; rfl⟩
  · split at h
    · rename_i hpre
      obtain ⟨v, rfl⟩ := isPrefixedWith_isSome.mp hpre
      exact ⟨dotdot, by rw [← Option.some.inj h]; rfl⟩
    · obtain ⟨cp2, hfind, rfl⟩ := Option.map_eq_some_iff.mp h
      obtain ⟨u, v, rfl, rfl⟩ := strstr_eq_some hfind
      exact ⟨u ++ slash :: dotdot, by simp [dotdot]⟩

/-- When the loop ends there is no slash at the start and no `..` before a slash. -/
theorem stripTurn_eq_none {cp : Str} : stripTurn cp = none ↔ startsWith slash cp = false ∧
    ¬ dotdot ++ [slash] <+: cp ∧ ¬ slash :: dotdot ++ [slash] <:+: cp := by
  rw [← isPrefixedWith_isSome, ← strstr_eq_none, stripTurn]
  split
  · simp [*]
  · split <;> simp [*]

/-- `strip_unsafe_prefix`, with the pointer `cp` as what is there. -/
def stripUnsafePrefix (cp : Str) : Str :=
  match _h : stripTurn cp with
  | some cp' => stripUnsafePrefix cp'
  | none => cp
termination_by cp.length
decreasing_by
  obtain ⟨u, rfl⟩ := stripTurn_eq_some _h
  rw [List.length_append, List.length_cons]
  omega

theorem stripUnsafePrefix_some {s s' : Str} (h : stripTurn s = some s') :
    stripUnsafePrefix s = stripUnsafePrefix s' := by
  rw [stripUnsafePrefix]
  split
  · rename_i h'
    rw [Option.some.inj (h.symm.trans h')]
  · rename_i h'
    cases h.symm.trans h'

theorem stripUnsafePrefix_none {s : Str} (h : stripTurn s = none) : stripUnsafePrefix s = s := by
  rw [stripUnsafePrefix]
  split
  · rename_i h'
    cases h.symm.trans h'
  · rfl

/-- **The loop** strips the string up to some slash, or not at all, and ends where no turn is
left. -/
theorem stripUnsafePrefix_spec (s : Str) :
    (s = stripUnsafePrefix s ∨ ∃ u, s = u ++ slash :: stripUnsafePrefix s) ∧
      stripTurn (stripUnsafePrefix s) = none := by
  induction s using stripUnsafePrefix.induct with
  | case1 s s' h ih =>
    obtain ⟨u, rfl⟩ := stripTurn_eq_some h
    rw [stripUnsafePrefix_some h]
    refine ⟨Or.inr ?_, ih.2⟩
    rcases ih.1 with he | ⟨u', he⟩
    · exact ⟨u, by rw [← he]⟩
    · exact ⟨u ++ slash :: u', by rw [List.append_assoc, List.cons_append, ← he]⟩
  | case2 s h =>
    rw [stripUnsafePrefix_none h]
    exact ⟨Or.inl rfl, h⟩

/-! ### Components -/

/-- A name that leads down: it is relative, and no component of it is `..`. -/
def LeadsDown (s : Str) : Prop := startsWith slash s = false ∧ dotdot ∉ strsep s slash

/-- **A string without ways up** is left as it is. -/
theorem stripUnsafePrefix_of_leadsDown {s : Str} (h : LeadsDown s) : stripUnsafePrefix s = s := by
  refine stripUnsafePrefix_none (stripTurn_eq_none.mpr ⟨h.1, ?_, ?_⟩)
  · rintro ⟨v, rfl⟩
    apply h.2
    rw [List.append_assoc, List.singleton_append, strsep_component (by decide)]
    exact List.mem_cons_self
  · rintro ⟨u, v, rfl⟩
    apply h.2
    have hsplit : u ++ (slash :: dotdot ++ [slash]) ++ v =
        u ++ slash :: (dotdot ++ slash :: v) := by
      simp
    rw [hsplit, strsep_append, strsep_component (by decide)]
    exact List.mem_append_right _ List.mem_cons_self

/-- What is left has no way up but `..` at its end. -/
theorem leadsDown_of_stripTurn {s : Str} (h : stripTurn s = none)
    (hlast : (strsep s slash).getLast? ≠ some dotdot) : LeadsDown s := by
  obtain ⟨hslash, hprefix, hinfix⟩ := stripTurn_eq_none.mp h
  refine ⟨hslash, fun hmem => ?_⟩
  obtain ⟨hnot, u, v, rfl, hu, hv⟩ := exists_of_mem_strsep hmem
  rcases hv with rfl | ⟨v, rfl⟩
  · rw [List.append_nil] at hlast
    rcases hu with rfl | ⟨u, rfl⟩
    · rw [List.nil_append, strsep_of_notMem hnot] at hlast
      exact hlast rfl
    · rw [List.append_assoc, List.singleton_append, getLast?_strsep_append,
        strsep_of_notMem hnot] at hlast
      exact hlast rfl
  · rcases hu with rfl | ⟨u, rfl⟩
    · exact hprefix ⟨v, by simp⟩
    · exact hinfix ⟨u, v, by simp⟩

/-- The last component is never stripped. -/
theorem getLast?_stripUnsafePrefix (s : Str) :
    (strsep (stripUnsafePrefix s) slash).getLast? = (strsep s slash).getLast? := by
  rcases (stripUnsafePrefix_spec s).1 with h | ⟨u, h⟩
  · rw [← h]
  · conv_rhs => rw [h, getLast?_strsep_append]

/-- What `strip_unsafe_prefix` is for. -/
structure Strips (strip : Str → Str) (s : Str) : Prop where
  suffix : strip s <:+ s
  leadsDown : LeadsDown (strip s)
  same : LeadsDown s → strip s = s
  twice : strip (strip s) = strip s

/-- `..` at the end is a way up that is not stripped. -/
theorem not_leadsDown_of_getLast? {s : Str} (h : (strsep s slash).getLast? = some dotdot) :
    ¬ LeadsDown (stripUnsafePrefix s) := by
  intro hdown
  apply hdown.2
  rw [← getLast?_stripUnsafePrefix] at h
  exact List.mem_of_getLast? h

/-- **`strip_unsafe_prefix`** removes every way up unless the last component is one. -/
theorem strips_iff (s : Str) :
    Strips stripUnsafePrefix s ↔ (strsep s slash).getLast? ≠ some dotdot := by
  constructor
  · intro h hlast
    exact not_leadsDown_of_getLast? hlast h.leadsDown
  · intro hlast
    obtain ⟨hsuffix, hdone⟩ := stripUnsafePrefix_spec s
    refine ⟨?_, ?_, stripUnsafePrefix_of_leadsDown, stripUnsafePrefix_none hdone⟩
    · rcases hsuffix with h | ⟨u, h⟩
      · exact ⟨[], h.symm⟩
      · exact ⟨u ++ [slash], by rw [List.append_assoc, List.singleton_append, ← h]⟩
    · rw [← getLast?_stripUnsafePrefix] at hlast
      exact leadsDown_of_stripTurn hdone hlast

theorem not_strips_parent : ¬ Strips stripUnsafePrefix (bytes "a/..") :=
  fun h => not_leadsDown_of_getLast? (by decide) h.leadsDown

end Rustybox.Archive
