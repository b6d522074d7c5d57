import Rustybox.Httpd.Request
import Rustybox.Rust.Tokens
import Mathlib.Data.List.TakeWhile

/-!
# Canonical paths

What canonicalization leaves has no `.`, no `..` and no empty component but the last.  So the kernel
follows such a path down from the home directory, name by name, and never up.
-/

namespace Rustybox.Httpd

open Rustybox.Rust

/-! ### Names -/

/-- The name of a file in a directory. -/
structure IsName (c : Str) : Prop where
  ne_nil : c ≠ []
  ne_dot : c ≠ [dot]
  ne_dotdot : c ≠ dotdot
  slash : slash ∉ c

/-- The names of directories, each with its slash. -/
def joined (names : List Str) : Str := names.flatMap fun n => n ++ [slash]

/-- What is written is the names of directories, and a part of the component that is read. -/
structure Written (out s : Str) (names : List Str) (cur : Str) : Prop where
  out_eq : out = (slash :: (joined names ++ cur)).reverse
  names : ∀ n ∈ names, IsName n
  slash : Rust.slash ∉ cur
  cur : cur = [] ∨ IsName (cur ++ s.takeWhile (· ≠ Rust.slash))

theorem startsWith_out {names : List Str} {cur : Str} (hcur : slash ∉ cur) :
    startsWith slash (slash :: (joined names ++ cur)).reverse = true ↔ cur = [] := by
  cases cur using List.reverseRecOn with
  | nil =>
    cases names using List.reverseRecOn with
    | nil => simp [joined, startsWith]
    | append_singleton names n _ => simp [joined, startsWith]
  | append_singleton cur b _ =>
    have hb : b ≠ slash := fun he => hcur (by simp [he])
    simp [startsWith, hb]

/-- The component that starts with `b` is a name, when the loop copies `b`. -/
theorem isName_start {b : UInt8} {s : Str} (hslash : b ≠ slash) (hdot : ¬ (b = dot ∧ atEnd s))
    (hdots : ¬ (b = dot ∧ startsWith dot s ∧ atEnd s.tail)) :
    IsName (b :: s.takeWhile (· ≠ slash)) := by
  have hend : ∀ s : Str, s.takeWhile (· ≠ slash) = [] → atEnd s = true := by
    intro s hs
    cases s with
    | nil => rfl
    | cons c s =>
      by_cases hc : c = slash
      · simp [atEnd, startsWith, hc]
      · simp [hc] at hs
  refine ⟨by simp, fun he => ?_, fun he => ?_, fun he => ?_⟩
  · obtain ⟨rfl, htail⟩ := List.cons.inj he
    exact hdot ⟨rfl, hend s htail⟩
  · obtain ⟨rfl, htail⟩ := List.cons.inj he
    cases s with
    | nil => cases htail
    | cons c s =>
      by_cases hc : c = slash
      · simp [hc] at htail
      · rw [List.takeWhile_cons_of_pos (by simpa using hc)] at htail
        obtain ⟨rfl, hrest⟩ := List.cons.inj htail
        exact hdots ⟨rfl, rfl, hend s hrest⟩
  · rcases List.mem_cons.mp he with he | he
    · exact hslash he.symm
    · have := List.mem_takeWhile_imp he
      simp at this

theorem omitDir_out {names : List Str} {n : Str} (hn : slash ∉ n) :
    omitDir (slash :: (joined (names ++ [n]) ++ [])).reverse = (slash :: joined names).reverse := by
  have hrev : (slash :: (joined (names ++ [n]) ++ [])).reverse =
      slash :: (n.reverse ++ (slash :: joined names).reverse) := by
    simp [joined]
  have hlast : ∃ rest, (slash :: joined names).reverse = slash :: rest := by
    cases names using List.reverseRecOn with
    | nil => exact ⟨[], rfl⟩
    | append_singleton names m _ => exact ⟨_, by simp [joined]; rfl⟩
  obtain ⟨rest, hrest⟩ := hlast
  rw [hrev, omitDir, List.tail_cons, hrest, List.dropWhile_append_of_pos,
    List.dropWhile_cons_of_neg]
  · simp
  · intro b hb
    have : b ≠ slash := fun he => hn (he ▸ List.mem_reverse.mp hb)
    simpa using this

/-! ### Components -/

/-- Go from a directory to one of its components, without looking at the tree. -/
def enter (names : List Str) (c : Str) : List Str :=
  if c = [] ∨ c = [dot] then names
  else if c = dotdot then names.dropLast
  else names ++ [c]

/-- The components that are left of a path below the directory `names`. -/
def resolve (names : List Str) (path : Str) : List Str := (strsep path slash).foldl enter names

theorem enter_name {names : List Str} {c : Str} (hc : IsName c) : enter names c = names ++ [c] := by
  rw [enter, if_neg (not_or.mpr ⟨hc.ne_nil, hc.ne_dot⟩), if_neg hc.ne_dotdot]

theorem resolve_slash (names : List Str) (s : Str) : resolve names (slash :: s) = resolve names s :=
  rfl

theorem resolve_component {names : List Str} {c : Str} (hc : slash ∉ c) (s : Str) :
    resolve names (c ++ slash :: s) = resolve (enter names c) s := by
  rw [resolve, strsep_component hc, List.foldl_cons, resolve]

theorem resolve_of_notMem {names : List Str} {c : Str} (hc : slash ∉ c) :
    resolve names c = enter names c := by
  rw [resolve, strsep_of_notMem hc]
  rfl

theorem resolve_atEnd {names : List Str} {c s : Str} (hc : slash ∉ c) (hs : atEnd s = true) :
    resolve names (c ++ s) = resolve (enter names c) s := by
  cases s with
  | nil =>
    rw [List.append_nil, resolve_of_notMem hc]
    rfl
  | cons b s =>
    have hb : b = slash := by simpa [atEnd, startsWith] using hs
    rw [hb, resolve_component hc, resolve_slash]

/-- **A turn of the loop** reads a byte.  It keeps what is to come of the components, or fails at
the root. -/
theorem written_step (protectRoot : Bool) {b : UInt8} {s out : Str} {names : List Str} {cur : Str}
    (hw : Written out (b :: s) names cur) :
    (protectRoot = true ∧ canonicalize protectRoot out (b :: s) = none) ∨
      ∃ out' names' cur', canonicalize protectRoot out (b :: s) = canonicalize protectRoot out' s ∧
        Written out' s names' cur' ∧
          resolve names (cur ++ b :: s) = resolve names' (cur' ++ s) := by
  rw [canonicalize]
  by_cases hcur : cur = []
  · subst hcur
    have hstart : startsWith slash out = true := by
      rw [hw.out_eq]
      exact (startsWith_out (by simp)).mpr rfl
    have hskip : Written out s names [] := ⟨hw.out_eq, hw.names, by simp, Or.inl rfl⟩
    rw [if_pos hstart]
    by_cases hslash : b = slash
    · rw [if_pos hslash]
      refine Or.inr ⟨out, names, [], rfl, hskip, ?_⟩
      rw [hslash, List.nil_append, resolve_slash, List.nil_append]
    rw [if_neg hslash]
    by_cases hdot : b = dot ∧ atEnd s
    · rw [if_pos hdot]
      refine Or.inr ⟨out, names, [], rfl, hskip, ?_⟩
      rw [hdot.1]
      exact resolve_atEnd (c := [dot]) (by decide) hdot.2
    rw [if_neg hdot]
    by_cases hdots : b = dot ∧ startsWith dot s ∧ atEnd s.tail
    · rw [if_pos hdots]
      obtain ⟨rfl, hs, hend⟩ := hdots
      cases s with
      | nil => exact absurd hs (by decide)
      | cons c s =>
        obtain rfl : c = dot := by simpa [startsWith] using hs
        -- what follows is a dot that is skipped
        have hup : resolve names (dot :: dot :: s) = resolve names.dropLast (dot :: s) :=
          (resolve_atEnd (c := dotdot) (by decide) hend).trans
            (resolve_atEnd (c := [dot]) (by decide) hend).symm
        by_cases hroot : out.length = 1
        · rw [if_pos hroot]
          cases protectRoot with
          | true => exact Or.inl ⟨rfl, rfl⟩
          | false =>
            have hnames : names = [] := by
              cases names using List.reverseRecOn with
              | nil => rfl
              | append_singleton names n _ =>
                rw [hw.out_eq] at hroot
                simp [joined] at hroot
            refine Or.inr ⟨out, names, [], rfl, hskip, ?_⟩
            rw [List.nil_append, hup, hnames]
            rfl
        · rw [if_neg hroot]
          cases names using List.reverseRecOn with
          | nil => exact absurd (by rw [hw.out_eq]; rfl) hroot
          | append_singleton names n _ =>
            have hn := hw.names n (by simp)
            refine Or.inr ⟨omitDir out, names, [], rfl, ?_, ?_⟩
            · refine ⟨?_, fun m hm => hw.names m (by simp [hm]), by simp, Or.inl rfl⟩
              rw [hw.out_eq, omitDir_out hn.slash, List.append_nil]
            · rw [List.nil_append, hup, List.dropLast_concat]
              rfl
    · -- a component starts
      rw [if_neg hdots]
      refine Or.inr ⟨b :: out, names, [b], rfl, ⟨?_, hw.names, ?_, Or.inr ?_⟩, rfl⟩
      · rw [hw.out_eq]
        simp
      · simpa using fun he => hslash he.symm
      · exact isName_start hslash hdot hdots
  · have hstart : ¬ startsWith slash out = true := by
      rw [hw.out_eq, startsWith_out hw.slash]
      exact hcur
    rw [if_neg hstart]
    have hname := hw.cur.resolve_left hcur
    by_cases hslash : b = slash
    · -- a component ends
      subst hslash
      have hcomplete : IsName cur := by simpa using hname
      refine Or.inr ⟨slash :: out, names ++ [cur], [], rfl, ⟨?_, ?_, by simp, Or.inl rfl⟩, ?_⟩
      · rw [hw.out_eq]
        simp [joined]
      · intro n hn
        rcases List.mem_append.mp hn with hn | hn
        · exact hw.names n hn
        · rw [List.mem_singleton.mp hn]
          exact hcomplete
      · rw [resolve_component hw.slash, enter_name hcomplete, List.nil_append]
    · refine Or.inr ⟨b :: out, names, cur ++ [b], rfl, ⟨?_, hw.names, ?_, Or.inr ?_⟩, ?_⟩
      · rw [hw.out_eq]
        simp
      · simpa using ⟨hw.slash, fun he => hslash he.symm⟩
      · rw [List.takeWhile_cons_of_pos (by simpa using hslash)] at hname
        simpa using hname
      · rw [List.append_assoc, List.singleton_append]

theorem written_end {out : Str} {names : List Str} {cur : Str} (hw : Written out [] names cur) :
    out.reverse = slash :: (joined names ++ cur) ∧ (cur = [] ∨ IsName cur) := by
  refine ⟨by rw [hw.out_eq, List.reverse_reverse], ?_⟩
  simpa using hw.cur

theorem written_root (s : Str) : Written [slash] s [] [] :=
  ⟨rfl, by simp, by simp, Or.inl rfl⟩

end Rustybox.Httpd
