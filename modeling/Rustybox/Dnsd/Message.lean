import Mathlib.Data.List.Basic

/-!
# DNS messages

The format of a message: a header of 12 bytes with four counts, then as many questions and records
as the counts say, and nothing after them.  The name in a question is a sequence of labels.  That of
a record may end with a pointer, which is not followed here.
-/

namespace Rustybox.Dnsd

/-! ### Names -/

/-- The length of a name.  `skip` bytes of a label are still to come. -/
def nameLength (pointers : Bool) : ℕ → List UInt8 → Option ℕ
  | _, [] => none
  | skip + 1, _ :: s => (nameLength pointers skip s).map (· + 1)
  | 0, b :: s =>
    if b = 0 then some 1
    else if b < 64 then (nameLength pointers b.toNat s).map (· + 1)
    else if pointers ∧ 192 ≤ b ∧ s ≠ [] then some 2
    else none

@[simp]
theorem nameLength_nil (pointers : Bool) (skip : ℕ) : nameLength pointers skip [] = none := by
  cases skip <;> rfl

theorem nameLength_skip (pointers : Bool) (skip : ℕ) (b : UInt8) (s : List UInt8) :
    nameLength pointers (skip + 1) (b :: s) = (nameLength pointers skip s).map (· + 1) := rfl

theorem nameLength_label (pointers : Bool) (b : UInt8) (s : List UInt8) :
    nameLength pointers 0 (b :: s) =
      if b = 0 then some 1
      else if b < 64 then (nameLength pointers b.toNat s).map (· + 1)
      else if pointers ∧ 192 ≤ b ∧ s ≠ [] then some 2
      else none := rfl

theorem nameLength_pos {pointers : Bool} {skip n : ℕ} {s : List UInt8}
    (h : nameLength pointers skip s = some n) : 0 < n ∧ n ≤ s.length := by
  induction s generalizing skip n with
  | nil => simp at h
  | cons b s ih =>
    have hmap : ∀ k, (nameLength pointers k s).map (· + 1) = some n →
        0 < n ∧ n ≤ (b :: s).length := by
      intro k hk
      obtain ⟨m, hm, rfl⟩ := Option.map_eq_some_iff.mp hk
      have := (ih hm).2
      exact ⟨Nat.succ_pos m, by rw [List.length_cons]; omega⟩
    cases skip with
    | succ skip =>
      rw [nameLength_skip] at h
      exact hmap skip h
    | zero =>
      rw [nameLength_label] at h
      split at h
      · cases h
        simp
      split at h
      · exact hmap _ h
      split at h
      · rename_i hpointer
        cases h
        have := List.length_pos_of_ne_nil hpointer.2.2
        exact ⟨by decide, by rw [List.length_cons]; omega⟩
      · cases h

/-- A name that is there stays the same when more bytes follow. -/
theorem nameLength_append {pointers : Bool} {skip n : ℕ} {s : List UInt8} (t : List UInt8)
    (h : nameLength pointers skip s = some n) : nameLength pointers skip (s ++ t) = some n := by
  induction s generalizing skip n with
  | nil => simp at h
  | cons b s ih =>
    have hmap : ∀ k, (nameLength pointers k s).map (· + 1) = some n →
        (nameLength pointers k (s ++ t)).map (· + 1) = some n := by
      intro k hk
      obtain ⟨m, hm, rfl⟩ := Option.map_eq_some_iff.mp hk
      rw [ih hm]
      rfl
    rw [List.cons_append]
    cases skip with
    | succ skip =>
      rw [nameLength_skip] at h ⊢
      exact hmap skip h
    | zero =>
      rw [nameLength_label] at h ⊢
      by_cases hzero : b = 0
      · rwa [if_pos hzero] at h ⊢
      rw [if_neg hzero] at h ⊢
      by_cases hlabel : b < 64
      · rw [if_pos hlabel] at h ⊢
        exact hmap _ h
      rw [if_neg hlabel] at h ⊢
      by_cases hpointer : pointers ∧ 192 ≤ b ∧ s ≠ []
      · rw [if_pos hpointer] at h
        rwa [if_pos ⟨hpointer.1, hpointer.2.1, by simp [hpointer.2.2]⟩]
      · rw [if_neg hpointer] at h
        cases h

theorem nameLength_take {pointers : Bool} {skip n : ℕ} {s : List UInt8} {k : ℕ} (hk : n ≤ k)
    (h : nameLength pointers skip s = some n) : nameLength pointers skip (s.take k) = some n := by
  induction s generalizing skip n k with
  | nil => simp at h
  | cons b s ih =>
    have hpos := (nameLength_pos h).1
    obtain ⟨k, rfl⟩ : ∃ j, k = j + 1 := ⟨k - 1, by omega⟩
    have hmap : ∀ j, (nameLength pointers j s).map (· + 1) = some n →
        (nameLength pointers j (s.take k)).map (· + 1) = some n := by
      intro j hj
      obtain ⟨m, hm, rfl⟩ := Option.map_eq_some_iff.mp hj
      rw [ih (by omega) hm]
      rfl
    rw [List.take_succ_cons]
    cases skip with
    | succ skip =>
      rw [nameLength_skip] at h ⊢
      exact hmap skip h
    | zero =>
      rw [nameLength_label] at h ⊢
      by_cases hzero : b = 0
      · rwa [if_pos hzero] at h ⊢
      rw [if_neg hzero] at h ⊢
      by_cases hlabel : b < 64
      · rw [if_pos hlabel] at h ⊢
        exact hmap _ h
      rw [if_neg hlabel] at h ⊢
      by_cases hpointer : pointers ∧ 192 ≤ b ∧ s ≠ []
      · rw [if_pos hpointer] at h
        cases h
        have hrest : s.take k ≠ [] := by
          obtain ⟨c, rest, hs⟩ := List.exists_cons_of_ne_nil hpointer.2.2
          obtain ⟨j, rfl⟩ : ∃ j, k = j + 1 := ⟨k - 1, by omega⟩
          rw [hs, List.take_succ_cons]
          exact List.cons_ne_nil _ _
        rw [if_pos ⟨hpointer.1, hpointer.2.1, hrest⟩]
      · rw [if_neg hpointer] at h
        cases h

/-- A name without pointers may stand in a record. -/
theorem nameLength_true {skip n : ℕ} {s : List UInt8} (h : nameLength false skip s = some n) :
    nameLength true skip s = some n := by
  induction s generalizing skip n with
  | nil => simp at h
  | cons b s ih =>
    have hmap : ∀ k, (nameLength false k s).map (· + 1) = some n →
        (nameLength true k s).map (· + 1) = some n := by
      intro k hk
      obtain ⟨m, hm, rfl⟩ := Option.map_eq_some_iff.mp hk
      rw [ih hm]
      rfl
    cases skip with
    | succ skip =>
      rw [nameLength_skip] at h ⊢
      exact hmap skip h
    | zero =>
      rw [nameLength_label] at h ⊢
      by_cases hzero : b = 0
      · rwa [if_pos hzero] at h ⊢
      rw [if_neg hzero] at h ⊢
      by_cases hlabel : b < 64
      · rw [if_pos hlabel] at h ⊢
        exact hmap _ h
      · rw [if_neg hlabel, if_neg (by simp)] at h
        cases h

/-! ### Sections -/

/-- Sixteen bits, high byte first. -/
def be16 : List UInt8 → ℕ
  | a :: b :: _ => a.toNat * 256 + b.toNat
  | _ => 0

/-- A part of `size` bytes, and what follows it. -/
def cut (size : ℕ) (s : List UInt8) : Option (List UInt8 × List UInt8) :=
  if size ≤ s.length then some (s.take size, s.drop size) else none

/-- A question: its name, type and class. -/
def takeQuestion (s : List UInt8) : Option (List UInt8 × List UInt8) :=
  match nameLength false 0 s with
  | none => none
  | some n => cut (n + 4) s

/-- A record: its name, type, class, time to live and data, with the length of the data. -/
def takeRecord (s : List UInt8) : Option (List UInt8 × List UInt8) :=
  match nameLength true 0 s with
  | none => none
  | some n => cut (n + 10 + be16 (s.drop (n + 8))) s

/-- As many parts as the count says. -/
def takeMany (part : List UInt8 → Option (List UInt8 × List UInt8)) :
    ℕ → List UInt8 → Option (List (List UInt8) × List UInt8)
  | 0, s => some ([], s)
  | count + 1, s =>
    match part s with
    | none => none
    | some (p, s) => (takeMany part count s).map fun (ps, s) => (p :: ps, s)

structure Message where
  id : List UInt8
  questions : List (List UInt8)
  answers : List (List UInt8)
  authority : List (List UInt8)
  additional : List (List UInt8)

/-- Read a message, all of it. -/
def parseMessage (msg : List UInt8) : Option Message :=
  match takeMany takeQuestion (be16 (msg.drop 4)) (msg.drop 12) with
  | none => none
  | some (questions, s) =>
    match takeMany takeRecord (be16 (msg.drop 6)) s with
    | none => none
    | some (answers, s) =>
      match takeMany takeRecord (be16 (msg.drop 8)) s with
      | none => none
      | some (authority, s) =>
        match takeMany takeRecord (be16 (msg.drop 10)) s with
        | some (additional, []) => some ⟨msg.take 2, questions, answers, authority, additional⟩
        | _ => none

def firstQuestion (msg : List UInt8) : Option (List UInt8) :=
  (takeQuestion (msg.drop 12)).map Prod.fst

theorem takeQuestion_some {s q r : List UInt8} (h : takeQuestion s = some (q, r)) :
    s = q ++ r ∧ nameLength false 0 s = some (q.length - 4) ∧ 4 < q.length := by
  rw [takeQuestion] at h
  split at h
  · cases h
  rename_i n hn
  rw [cut] at h
  split at h
  · rename_i hlen
    cases h
    have hsize : (s.take (n + 4)).length = n + 4 := by
      rw [List.length_take]
      omega
    refine ⟨(List.take_append_drop _ _).symm, ?_, ?_⟩
    · rw [hn, hsize]
      rfl
    · have := (nameLength_pos hn).1
      omega
  · cases h

theorem takeQuestion_of_length {s q r : List UInt8} (hs : s = q ++ r)
    (hn : nameLength false 0 s = some (q.length - 4)) (hq : 4 ≤ q.length) :
    takeQuestion s = some (q, r) := by
  have hsize : q.length - 4 + 4 = q.length := Nat.sub_add_cancel hq
  rw [takeQuestion, hn]
  dsimp only
  rw [cut, hsize, hs, if_pos (by simp), List.take_left, List.drop_left]

theorem length_takeMany {part : List UInt8 → Option (List UInt8 × List UInt8)} {count : ℕ}
    {s r : List UInt8} {ps : List (List UInt8)} (h : takeMany part count s = some (ps, r)) :
    ps.length = count := by
  induction count generalizing s ps with
  | zero =>
    rw [takeMany] at h
    cases h
    rfl
  | succ count ih =>
    rw [takeMany] at h
    split at h
    · cases h
    rename_i p s' hp
    obtain ⟨⟨ps', r'⟩, hrest, heq⟩ := Option.map_eq_some_iff.mp h
    cases heq
    rw [List.length_cons, ih hrest]

theorem takeMany_one {part : List UInt8 → Option (List UInt8 × List UInt8)} {s p r : List UInt8}
    (h : part s = some (p, r)) : takeMany part 1 s = some ([p], r) := by
  rw [takeMany, h]
  rfl

theorem takeMany_one_some {part : List UInt8 → Option (List UInt8 × List UInt8)}
    {s r : List UInt8} {ps : List (List UInt8)} (h : takeMany part 1 s = some (ps, r)) :
    ∃ p, part s = some (p, r) ∧ ps = [p] := by
  rw [takeMany] at h
  split at h
  · cases h
  rename_i p s' hp
  rw [takeMany] at h
  cases h
  exact ⟨p, hp, rfl⟩

theorem takeRecord_answer {q ttl rdlength rdata : List UInt8}
    (hn : nameLength false 0 q = some (q.length - 4)) (hq : 4 ≤ q.length) (httl : ttl.length = 4)
    (hlen : rdlength.length = 2) (hdata : be16 rdlength = rdata.length) :
    takeRecord (q ++ (ttl ++ (rdlength ++ rdata))) =
      some (q ++ (ttl ++ (rdlength ++ rdata)), []) := by
  have hname : nameLength true 0 (q ++ (ttl ++ (rdlength ++ rdata))) = some (q.length - 4) :=
    nameLength_append _ (nameLength_true hn)
  have hdrop : (q ++ (ttl ++ (rdlength ++ rdata))).drop (q.length - 4 + 8) = rdlength ++ rdata := by
    rw [← List.append_assoc]
    exact List.drop_left' (by rw [List.length_append, httl]; omega)
  have hbe : be16 (rdlength ++ rdata) = rdata.length := by
    obtain ⟨a, b, rfl⟩ := List.length_eq_two.mp hlen
    rw [← hdata]
    rfl
  have hall : (q ++ (ttl ++ (rdlength ++ rdata))).length = q.length - 4 + 10 + rdata.length := by
    simp only [List.length_append]
    omega
  rw [takeRecord, hname]
  dsimp only
  rw [hdrop, hbe, cut, ← hall, if_pos (Nat.le_refl _), List.take_length, List.drop_length]

end Rustybox.Dnsd
