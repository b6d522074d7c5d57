import Rustybox.Cron.ParseField

/-!
# Runs over a time field

Item after item is read and filled.  All goes well where all of them can be read and are within
bounds; otherwise an error is reported or something outside of the array is written to.
-/

namespace Rustybox.Cron

open Rust

variable {k : Field}

/-- What the bounds of the five fields have in common. -/
structure Regular (k : Field) : Prop where
  pos : 0 < k.modvalue
  le : k.modvalue ≤ 60
  names : k.names.length ≤ 60

theorem findName_lt {ptr names : Str} {i j : ℕ} (h : findName ptr names i = some j) :
    j < i + names.length := by
  induction names, i using findName.induct ptr with
  | case1 a b c names i heq =>
    rw [findName, if_pos heq] at h
    obtain rfl := Option.some.inj h
    simp only [List.length_cons]
    omega
  | case2 a b c names i hne ih =>
    rw [findName, if_neg hne] at h
    have hlt := ih h
    simp only [List.length_cons]
    omega
  | case3 names i hshort => simp [findName] at h

def InInt (n : ℤ) : Prop := -2 ^ 31 ≤ n ∧ n < 2 ^ 31

theorem token_inInt (hk : Regular k) {ptr rest : Str} {n1 n2 a b : ℤ} (hn1 : InInt n1)
    (h : token k ptr n1 n2 = some (rest, a, b)) : InInt a := by
  rw [token] at h
  split at h
  · obtain ⟨-, rfl, -⟩ : _ ∧ _ ∧ _ := by simpa using h
    exact ⟨by decide, by decide⟩
  · split at h
    · dsimp only at h
      split at h
      · obtain ⟨-, rfl, -⟩ : _ ∧ _ ∧ _ := by simpa using h
        exact cInt_bounds _
      · obtain ⟨-, rfl, -⟩ : _ ∧ _ ∧ _ := by simpa using h
        exact hn1
    · split at h
      · rename_i i hname
        have hlt := findName_lt hname
        have hnames := hk.names
        split at h
        · obtain ⟨-, rfl, -⟩ : _ ∧ _ ∧ _ := by simpa using h
          constructor <;> omega
        · obtain ⟨-, rfl, -⟩ : _ ∧ _ ∧ _ := by simpa using h
          exact hn1
      · cases h

theorem Reads.inInt (hk : Regular k) {ptr rest : Str} {n1 n2 a b : ℤ} (hn1 : InInt n1)
    (h : Reads k ptr n1 n2 rest a b) : InInt a := by
  induction h with
  | last htoken hlast => exact token_inInt hk hn1 htoken
  | range htoken hdash hrest ih => exact ih (token_inInt hk hn1 htoken)

theorem Reads.length_lt {ptr rest : Str} {n1 n2 a b : ℤ} (h : Reads k ptr n1 n2 rest a b) :
    rest.length < ptr.length := by
  induction h with
  | last htoken hlast => exact token_length htoken
  | range htoken hdash hrest ih =>
    have hshorter := token_length htoken
    rw [List.length_tail] at ih
    omega

/-- An item that can be read, and what is done with it. -/
theorem parseLoop_reads {ptr rest : Str} {n1 n2 a b : ℤ} (h : Reads k ptr n1 n2 rest a b) {fuel : ℕ}
    (hfuel : ptr.length < fuel) (ary : List ℤ) :
    ∃ fuel', rest.length < fuel' + 1 ∧ parseLoop k fuel ptr n1 n2 ary =
      finish k (fun ptr ary => parseLoop k fuel' ptr (-1) (-1) ary) rest a b ary := by
  induction h generalizing fuel with
  | last htoken hlast =>
    have hshorter := token_length htoken
    cases fuel with
    | zero => exact absurd hfuel (Nat.not_lt_zero _)
    | succ fuel =>
      refine ⟨fuel, by omega, ?_⟩
      rw [parseLoop, htoken]
      exact if_neg hlast
  | range htoken hdash hrest ih =>
    have hshorter := token_length htoken
    cases fuel with
    | zero => exact absurd hfuel (Nat.not_lt_zero _)
    | succ fuel =>
      rw [parseLoop, htoken]
      dsimp only
      rw [if_pos hdash]
      refine ih ?_
      rw [List.length_tail]
      omega

/-- An item that cannot be read is an error. -/
theorem parseLoop_of_not_reads {n1 n2 : ℤ} {fuel : ℕ} {ptr : Str} (hfuel : ptr.length < fuel)
    (h : ∀ rest a b, ¬ Reads k ptr n1 n2 rest a b) (ary : List ℤ) :
    parseLoop k fuel ptr n1 n2 ary = some ⟨ary, false⟩ := by
  induction fuel generalizing ptr n1 n2 with
  | zero => exact absurd hfuel (Nat.not_lt_zero _)
  | succ fuel ih =>
    rw [parseLoop]
    cases htoken : token k ptr n1 n2 with
    | none => rfl
    | some found =>
      obtain ⟨rest, a, b⟩ := found
      have hshorter := token_length htoken
      by_cases hdash : rest.head? = some dash ∧ b < 0
      · dsimp only
        rw [if_pos hdash]
        refine ih ?_ fun rest' a' b' hreads => h rest' a' b' (Reads.range htoken hdash hreads)
        rw [List.length_tail]
        omega
      · exact absurd (Reads.last htoken hdash) (h rest a b)

/-- What the last turn of an item fills. -/
def filled (k : Field) (rest : Str) (n1 n2 : ℤ) : List ℤ × Bool :=
  fill k.modvalue (if n2 < 0 then n1 else n2) (readStep rest).1 1024 (cInt (n1 - 1)) 1 []

theorem finish_eq (next : Str → List ℤ → Option Outcome) (rest : Str) (n1 n2 : ℤ) (ary : List ℤ) :
    finish k next rest n1 n2 ary =
      if (filled k rest n1 n2).2 then
        if (readStep rest).2.head? = some comma then
          next (readStep rest).2.tail (ary ++ (filled k rest n1 n2).1)
        else some ⟨ary ++ (filled k rest n1 n2).1, (readStep rest).2.isEmpty⟩
      else some ⟨ary ++ (filled k rest n1 n2).1, false⟩ := by
  unfold finish filled
  cases readStep rest with
  | mk skip ptr =>
  dsimp only
  rw [fill_append]
  split
  · rename_i hfill
    obtain ⟨rfl, hreached⟩ := Prod.mk.inj hfill
    rw [hreached]
    rfl
  · rename_i hfill
    obtain ⟨rfl, hreached⟩ := Prod.mk.inj hfill
    rw [hreached]
    rfl

/-- The range of an item is within bounds. -/
def Within (k : Field) (n1 n2 : ℤ) : Prop := 0 ≤ n1 ∧ (if n2 < 0 then n1 else n2) < k.modvalue

theorem filled_within (hk : Regular k) {n1 n2 : ℤ} (hn1 : InInt n1) (h : Within k n1 n2)
    (rest : Str) :
    (filled k rest n1 n2).2 = true ∧ (filled k rest n1 n2).1 ≠ [] ∧
      ∀ i ∈ (filled k rest n1 n2).1, 0 ≤ i ∧ i < k.modvalue := by
  have hle := hk.le
  refine fill_sound (by omega) h.1 hn1.2 ?_ h.2
  split
  · exact h.1
  · omega

theorem filled_not_within (hk : Regular k) {n1 n2 : ℤ} (hn1 : InInt n1) (hn2 : n1 < 0 → n2 < 0)
    (h : ¬ Within k n1 n2) (rest : Str) :
    (filled k rest n1 n2).1 ≠ [] ∧ ((filled k rest n1 n2).2 = true →
      ∃ i ∈ (filled k rest n1 n2).1, ¬ (0 ≤ i ∧ i < k.modvalue)) := by
  have hle := hk.le
  have hpos := hk.pos
  refine fill_unsound (by omega) (by omega) hn1.1 hn1.2 ?_ h ?_
  · intro hnegative
    exact if_pos (hn2 hnegative)
  · intro hnonneg
    split
    · exact hnonneg
    · omega

theorem Sound.reads {ptr : Str} (h : Sound k ptr) :
    ∃ rest a b, Reads k ptr (-1) (-1) rest a b ∧ Within k a b ∧
      ((readStep rest).2 = [] ∨ ∃ more, (readStep rest).2 = comma :: more ∧ Sound k more) := by
  cases h with
  | last hreads hfirst hlast hend => exact ⟨_, _, _, hreads, ⟨hfirst, hlast⟩, Or.inl hend⟩
  | more hreads hfirst hlast hend hmore =>
    exact ⟨_, _, _, hreads, ⟨hfirst, hlast⟩, Or.inr ⟨_, hend, hmore⟩⟩

/-- A run of the loop on a list: whether anything is marked, and whether all goes well. -/
theorem parseLoop_run (hk : Regular k) (ptr : Str) {fuel : ℕ} (hfuel : ptr.length < fuel)
    (ary : List ℤ) :
    ∃ ws accepted, parseLoop k fuel ptr (-1) (-1) ary = some ⟨ary ++ ws, accepted⟩ ∧
      ((∀ rest a b, ¬ Reads k ptr (-1) (-1) rest a b) → ws = [] ∧ accepted = false) ∧
      (∀ rest a b, Reads k ptr (-1) (-1) rest a b → ws ≠ []) ∧
      (Sound k ptr ↔ accepted = true ∧ ∀ i ∈ ws, 0 ≤ i ∧ i < k.modvalue) := by
  induction hn : ptr.length using Nat.strongRecOn generalizing ptr fuel ary with
  | ind n ih =>
    subst hn
    by_cases hreads : ∃ rest a b, Reads k ptr (-1) (-1) rest a b
    · obtain ⟨rest, a, b, hreads⟩ := hreads
      have hsound : Sound k ptr ↔ Within k a b ∧
          ((readStep rest).2 = [] ∨ ∃ more, (readStep rest).2 = comma :: more ∧ Sound k more) := by
        constructor
        · intro h
          obtain ⟨rest', a', b', hreads', h⟩ := h.reads
          obtain ⟨rfl, rfl, rfl⟩ := hreads.unique hreads'
          exact h
        · rintro ⟨hwithin, hend | ⟨more, hend, hmore⟩⟩
          · exact Sound.last hreads hwithin.1 hwithin.2 hend
          · exact Sound.more hreads hwithin.1 hwithin.2 hend hmore
      have hint := hreads.inInt hk ⟨by decide, by decide⟩
      have hnegative := hreads.negative (by decide)
      have hshorter := hreads.length_lt
      have hstep := readStep_length rest
      obtain ⟨fuel', hfuel', hloop⟩ := parseLoop_reads hreads hfuel ary
      rw [hloop, finish_eq]
      have hmarked : (filled k rest a b).1 ≠ [] := by
        by_cases hwithin : Within k a b
        · exact (filled_within hk hint hwithin rest).2.1
        · exact (filled_not_within hk hint hnegative hwithin rest).1
      have hwithin : (∀ i ∈ (filled k rest a b).1, 0 ≤ i ∧ i < k.modvalue) →
          (filled k rest a b).2 = true → Within k a b := by
        intro hall hreached
        by_contra hnot
        obtain ⟨i, hi, hout⟩ := (filled_not_within hk hint hnegative hnot rest).2 hreached
        exact hout (hall i hi)
      cases hreached : (filled k rest a b).2 with
      | false =>
        refine ⟨_, false, rfl, fun h => absurd hreads (h rest a b), fun _ _ _ _ => hmarked, ?_⟩
        refine iff_of_false (fun h => ?_) fun h => Bool.false_ne_true h.1
        have htrue := (filled_within hk hint (hsound.mp h).1 rest).1
        rw [hreached] at htrue
        exact Bool.false_ne_true htrue
      | true =>
        by_cases hcomma : (readStep rest).2.head? = some comma
        · obtain ⟨more, hmore⟩ := List.head?_eq_some_iff.mp hcomma
          rw [hmore] at hsound hstep ⊢
          rw [List.length_cons] at hstep
          have hmoreFuel : more.length < fuel' := by omega
          obtain ⟨ws, accepted, hrun, -, -, hmoreSound⟩ := ih more.length (by omega) more
            hmoreFuel (ary ++ (filled k rest a b).1) rfl
          refine ⟨(filled k rest a b).1 ++ ws, accepted, ?_, fun h => absurd hreads (h rest a b),
            fun _ _ _ _ => List.append_ne_nil_of_left_ne_nil hmarked ws, ?_⟩
          · rw [List.append_assoc] at hrun
            exact hrun
          · rw [hsound]
            constructor
            · rintro ⟨hin, hend | ⟨more', heq, hmore'⟩⟩
              · cases hend
              · obtain ⟨-, rfl⟩ := List.cons.inj heq
                obtain ⟨haccepted, hinside⟩ := hmoreSound.mp hmore'
                refine ⟨haccepted, fun i hi => ?_⟩
                rcases List.mem_append.mp hi with hi | hi
                · exact (filled_within hk hint hin rest).2.2 i hi
                · exact hinside i hi
            · rintro ⟨haccepted, hinside⟩
              refine ⟨hwithin (fun i hi => hinside i (List.mem_append_left ws hi)) hreached,
                Or.inr ⟨more, rfl, hmoreSound.mpr ⟨haccepted, fun i hi => ?_⟩⟩⟩
              exact hinside i (List.mem_append_right _ hi)
        · rw [if_pos rfl, if_neg hcomma]
          refine ⟨_, _, rfl, fun h => absurd hreads (h rest a b), fun _ _ _ _ => hmarked, ?_⟩
          rw [hsound]
          constructor
          · rintro ⟨hin, hend | ⟨more, hmore, -⟩⟩
            · rw [hend]
              exact ⟨rfl, (filled_within hk hint hin rest).2.2⟩
            · exact absurd (by rw [hmore]; rfl) hcomma
          · rintro ⟨hempty, hinside⟩
            exact ⟨hwithin hinside hreached, Or.inl (List.isEmpty_iff.mp hempty)⟩
    · have hnone : ∀ rest a b, ¬ Reads k ptr (-1) (-1) rest a b := fun rest a b h =>
        hreads ⟨rest, a, b, h⟩
      refine ⟨[], false, ?_, fun _ => ⟨rfl, rfl⟩, fun rest a b h => absurd h (hnone rest a b), ?_⟩
      · rw [parseLoop_of_not_reads hfuel hnone, List.append_nil]
      · refine iff_of_false (fun h => ?_) fun h => Bool.false_ne_true h.1
        obtain ⟨rest, a, b, h, -⟩ := h.reads
        exact hnone rest a b h

end Rustybox.Cron
