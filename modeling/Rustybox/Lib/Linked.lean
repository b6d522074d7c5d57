import Mathlib.Data.List.Chain
import Mathlib.Data.List.Nodup
import Mathlib.Logic.Function.Basic

/-!
# Doubly linked lists in a heap

A heap maps addresses to nodes, each with the address of its two neighbours.  `Path h c` says that
the addresses `c` are linked one to the next, forwards and backwards.  The first and the last may be
the same node: a ring with the sentinel `r` is a path `r :: ps ++ [r]`.

The operations of a doubly linked list work between two neighbours of a path, and the lemmas say
what they make of the path: `insertBefore_path`, `remove_path`, `replace_path`.  They fail where an
address without a node is followed.
-/

namespace Linked

structure Node (α : Type*) where
  next : ℕ
  prev : ℕ
  data : α

abbrev Heap (α : Type*) := ℕ → Option (Node α)

variable {α : Type*}

/-! ### Operations -/

/-- A node with the address `p` is put before the node at `lp`. -/
def insertBefore (h : Heap α) (p : ℕ) (d : α) (lp : ℕ) : Option (Heap α) := do
  let l ← h lp
  let h := Function.update h p (some ⟨lp, l.prev, d⟩)
  let a ← h l.prev
  let h := Function.update h l.prev (some { a with next := p })
  let b ← h lp
  return Function.update h lp (some { b with prev := p })

/-- The node at `lp` is taken out and freed. -/
def remove (h : Heap α) (lp : ℕ) : Option (Heap α) := do
  let l ← h lp
  let a ← h l.prev
  let h := Function.update h l.prev (some { a with next := l.next })
  let b ← h l.next
  let h := Function.update h l.next (some { b with prev := l.prev })
  return Function.update h lp none

/-- A node with the address `p` takes the place of the node at `lp`, which is freed. -/
def replace (h : Heap α) (p : ℕ) (d : α) (lp : ℕ) : Option (Heap α) := do
  let l ← h lp
  let h := Function.update h p (some ⟨l.next, l.prev, d⟩)
  let a ← h l.prev
  let h := Function.update h l.prev (some { a with next := p })
  let b ← h l.next
  let h := Function.update h l.next (some { b with prev := p })
  return Function.update h lp none

/-! ### Paths -/

def next? (h : Heap α) (p : ℕ) : Option ℕ := (h p).map Node.next
def prev? (h : Heap α) (p : ℕ) : Option ℕ := (h p).map Node.prev
def data? (h : Heap α) (p : ℕ) : Option α := (h p).map Node.data

/-- `b` comes after `a`, and `a` before `b`. -/
def Link (h : Heap α) (a b : ℕ) : Prop := next? h a = some b ∧ prev? h b = some a

/-- The addresses are linked one to the next.  No node but the first and the last is met twice. -/
structure Path (h : Heap α) (c : List ℕ) : Prop where
  chain : List.IsChain (Link h) c
  nodup : c.dropLast.Nodup
  nodup' : c.tail.Nodup

variable {h h' : Heap α} {c L R : List ℕ} {a b p lp : ℕ} {d : α}

theorem exists_node (hl : Link h a b) : ∃ na nb, h a = some na ∧ h b = some nb ∧
    na.next = b ∧ nb.prev = a := by
  obtain ⟨na, ha, hna⟩ := Option.map_eq_some_iff.mp hl.1
  obtain ⟨nb, hb, hnb⟩ := Option.map_eq_some_iff.mp hl.2
  exact ⟨na, nb, ha, hb, hna, hnb⟩

/-- What the path is linked by: the next of all but the last, and the previous of all but the
first. -/
theorem chain_congr : ∀ {c : List ℕ}, List.IsChain (Link h) c →
    (∀ x ∈ c.dropLast, next? h' x = next? h x) → (∀ x ∈ c.tail, prev? h' x = prev? h x) →
    List.IsChain (Link h') c := by
  intro c
  induction c with
  | nil => intro _ _ _; exact List.IsChain.nil
  | cons a c ih =>
    intro hc hn hp
    cases c with
    | nil => exact List.isChain_singleton a
    | cons b c =>
      rw [List.isChain_cons_cons] at hc ⊢
      refine ⟨⟨(hn a List.mem_cons_self).trans hc.1.1, (hp b List.mem_cons_self).trans hc.1.2⟩,
        ih hc.2 (fun x hx => hn x (List.mem_cons_of_mem _ hx))
          (fun x hx => hp x (List.mem_cons_of_mem _ hx))⟩

theorem dropLast_split (L R : List ℕ) (a b : ℕ) :
    (L ++ a :: b :: R).dropLast = L ++ a :: (b :: R).dropLast := by
  rw [List.dropLast_append_of_ne_nil (List.cons_ne_nil _ _), List.dropLast_cons_cons]

theorem tail_split (L R : List ℕ) (a b : ℕ) :
    (L ++ a :: b :: R).tail = (L ++ [a]).tail ++ b :: R := by
  cases L with
  | nil => rfl
  | cons x L => simp

theorem Path.split (hp : Path h (L ++ a :: b :: R)) :
    Link h a b ∧ (∀ x ∈ L, x ≠ a) ∧ (∀ x ∈ (b :: R).dropLast, x ≠ a) ∧
      (∀ x ∈ (L ++ [a]).tail, x ≠ b) ∧ ∀ x ∈ R, x ≠ b := by
  have h1 := hp.nodup
  have h2 := hp.nodup'
  rw [dropLast_split, List.nodup_append, List.nodup_cons] at h1
  rw [tail_split, List.nodup_append, List.nodup_cons] at h2
  refine ⟨(List.isChain_append_cons_cons.mp hp.chain).2.1, ?_, ?_, ?_, ?_⟩
  · exact fun x hx => h1.2.2 x hx a List.mem_cons_self
  · exact fun x hx hxa => h1.2.1.1 (hxa ▸ hx)
  · exact fun x hx => h2.2.2 x hx b List.mem_cons_self
  · exact fun x hx hxb => h2.2.1.1 (hxb ▸ hx)

/-- The path between two neighbours with other links there. -/
theorem Path.relink (hp : Path h (L ++ a :: b :: R)) (h' : Heap α)
    (hn : ∀ x, x ≠ a → x ∈ (L ++ a :: b :: R) → next? h' x = next? h x)
    (hv : ∀ x, x ≠ b → x ∈ (L ++ a :: b :: R) → prev? h' x = prev? h x) :
    List.IsChain (Link h') (L ++ [a]) ∧ List.IsChain (Link h') (b :: R) := by
  obtain ⟨-, hLa, hRa, hLb, hRb⟩ := hp.split
  obtain ⟨hL, -, hR⟩ := List.isChain_append_cons_cons.mp hp.chain
  constructor
  · refine chain_congr hL (fun x hx => ?_) (fun x hx => ?_)
    · rw [List.dropLast_concat] at hx
      exact hn x (hLa x hx) (List.mem_append_left _ hx)
    · refine hv x (hLb x hx) ?_
      rcases List.mem_append.mp (List.mem_of_mem_tail hx) with h | h
      · exact List.mem_append_left _ h
      · exact List.mem_append_right _ (List.mem_singleton.mp h ▸ List.mem_cons_self)
  · refine chain_congr hR (fun x hx => ?_) (fun x hx => ?_)
    · exact hn x (hRa x hx) (List.mem_append_right _
        (List.mem_cons_of_mem _ ((List.dropLast_sublist _).subset hx)))
    · exact hv x (hRb x hx) (List.mem_append_right _
        (List.mem_cons_of_mem _ (List.mem_cons_of_mem _ hx)))

/-! ### What the operations do -/

/-- The heap after a node has been put between `a` and `b`. -/
structure Between (h h' : Heap α) (a p b : ℕ) (d : α) : Prop where
  next : ∀ x, next? h' x = if x = a then some p else if x = p then some b else next? h x
  prev : ∀ x, prev? h' x = if x = b then some p else if x = p then some a else prev? h x
  data : ∀ x, data? h' x = if x = p then some d else data? h x

theorem insertBefore_between (d : α) (hl : Link h a b) (hpa : p ≠ a) (hpb : p ≠ b) :
    ∃ h', insertBefore h p d b = some h' ∧ Between h h' a p b d := by
  obtain ⟨na, nb, ha, hb, hna, hnb⟩ := exists_node hl
  by_cases hab : b = a
  · subst hab
    obtain rfl : na = nb := Option.some.inj (ha.symm.trans hb)
    have heq : insertBefore h p d b = some (Function.update (Function.update h p
        (some ⟨b, b, d⟩)) b (some ⟨p, p, na.data⟩)) := by
      simp [insertBefore, hb, hnb, hpb.symm]
    refine ⟨_, heq, ?_, ?_, ?_⟩ <;> intro x <;> by_cases hxb : x = b <;> by_cases hxp : x = p <;>
      simp_all [next?, prev?, data?]
  · have heq : insertBefore h p d b = some (Function.update (Function.update (Function.update h p
        (some ⟨b, a, d⟩)) a (some ⟨p, na.prev, na.data⟩)) b (some ⟨nb.next, p, nb.data⟩)) := by
      simp [insertBefore, hb, hnb, hpa.symm, hpb.symm, ha, hab]
    refine ⟨_, heq, ?_, ?_, ?_⟩ <;> intro x <;> by_cases hxa : x = a <;> by_cases hxb : x = b <;>
      by_cases hxp : x = p <;> simp_all [next?, prev?, data?]

theorem nodup_insert {l : List ℕ} (h : (L ++ l).Nodup) (hp : p ∉ L ++ l) :
    (L ++ p :: l).Nodup := List.nodup_middle.mpr (List.nodup_cons.mpr ⟨hp, h⟩)

/-- **A node is put between two neighbours.** -/
theorem insertBefore_path (d : α) (hp : Path h (L ++ a :: b :: R)) (hfresh : p ∉ L ++ a :: b :: R) :
    ∃ h', insertBefore h p d b = some h' ∧ Path h' (L ++ a :: p :: b :: R) ∧
      ∀ x, data? h' x = if x = p then some d else data? h x := by
  have hpa : p ≠ a := fun e => hfresh (e ▸ by simp)
  have hpb : p ≠ b := fun e => hfresh (e ▸ by simp)
  obtain ⟨h', hins, hbet⟩ := insertBefore_between d hp.split.1 hpa hpb
  have hne {x : ℕ} (hx : x ∈ L ++ a :: b :: R) : x ≠ p := fun e => hfresh (e ▸ hx)
  obtain ⟨hL, hR⟩ := hp.relink h'
    (fun x hxa hx => by rw [hbet.next, if_neg hxa, if_neg (hne hx)])
    (fun x hxb hx => by rw [hbet.prev, if_neg hxb, if_neg (hne hx)])
  refine ⟨h', hins, ⟨?_, ?_, ?_⟩, hbet.data⟩
  · rw [List.isChain_append_cons_cons, List.isChain_cons_cons]
    refine ⟨hL, ⟨?_, ?_⟩, ⟨?_, ?_⟩, hR⟩
    · rw [hbet.next, if_pos rfl]
    · rw [hbet.prev, if_neg hpb, if_pos rfl]
    · rw [hbet.next, if_neg hpa, if_pos rfl]
    · rw [hbet.prev, if_pos rfl]
  · have hsplit := dropLast_split L R a b
    rw [dropLast_split, List.dropLast_cons_cons, List.append_cons]
    rw [List.append_cons L a (b :: R).dropLast] at hsplit
    exact nodup_insert (hsplit ▸ hp.nodup)
      (fun h => hfresh ((List.dropLast_sublist _).subset (hsplit ▸ h)))
  · rw [tail_split]
    have hsplit := tail_split L R a b
    exact nodup_insert (hsplit ▸ hp.nodup')
      (fun h => hfresh (List.mem_of_mem_tail (hsplit ▸ h)))

/-- The heap after the node between `a` and `b` has been taken out. -/
structure Without (h h' : Heap α) (a p b : ℕ) : Prop where
  next : ∀ x, x ≠ p → next? h' x = if x = a then some b else next? h x
  prev : ∀ x, x ≠ p → prev? h' x = if x = b then some a else prev? h x
  data : ∀ x, x ≠ p → data? h' x = data? h x

theorem remove_without (hl : Link h a p) (hr : Link h p b) (hpa : p ≠ a) :
    ∃ h', remove h p = some h' ∧ Without h h' a p b := by
  obtain ⟨na, np, ha, hp, hna, hnp⟩ := exists_node hl
  obtain ⟨np', nb, hp', hb, hnp', hnb⟩ := exists_node hr
  obtain rfl : np = np' := Option.some.inj (hp.symm.trans hp')
  by_cases hab : b = a
  · subst hab
    obtain rfl : na = nb := Option.some.inj (ha.symm.trans hb)
    have heq : remove h p = some (Function.update (Function.update h b
        (some ⟨b, b, na.data⟩)) p none) := by
      simp [remove, hp, hb, hnp, hnp']
    refine ⟨_, heq, ?_, ?_, ?_⟩ <;> intro x hx <;> by_cases hxb : x = b <;>
      simp_all [next?, prev?, data?]
  · have heq : remove h p = some (Function.update (Function.update (Function.update h a
        (some ⟨b, na.prev, na.data⟩)) b (some ⟨nb.next, a, nb.data⟩)) p none) := by
      simp [remove, hp, hb, ha, hnp, hnp', hab]
    refine ⟨_, heq, ?_, ?_, ?_⟩ <;> intro x hx <;> by_cases hxa : x = a <;>
      by_cases hxb : x = b <;> simp_all [next?, prev?, data?]

theorem Path.split_at (hp : Path h (L ++ a :: p :: b :: R)) :
    Link h a p ∧ Link h p b ∧ p ∉ L ++ [a] ∧ p ∉ b :: R ∧ (∀ x ∈ L, x ≠ a) ∧
      (∀ x ∈ (b :: R).dropLast, x ≠ a) ∧ (∀ x ∈ (L ++ [a]).tail, x ≠ b) ∧ ∀ x ∈ R, x ≠ b := by
  have hp' : Path h ((L ++ [a]) ++ p :: b :: R) := by rw [← List.append_cons]; exact hp
  obtain ⟨hl, hLa, hRa, hLp, hRp⟩ := hp.split
  obtain ⟨hr, hLp', hRp', hLb, hRb⟩ := hp'.split
  refine ⟨hl, hr, fun h => hLp' p h rfl, fun h => hRp p h rfl, hLa, ?_, ?_, hRb⟩
  · intro x hx
    exact hRa x (by rw [List.dropLast_cons_cons]; exact List.mem_cons_of_mem _ hx)
  · intro x hx
    refine hLb x ?_
    rw [List.tail_append_of_ne_nil (by simp)]
    exact List.mem_append_left _ hx

/-- Both sides of a node, where only the links to it have changed. -/
theorem Path.relink_at (hp : Path h (L ++ a :: p :: b :: R)) (h' : Heap α)
    (hn : ∀ x, x ≠ a → x ≠ p → x ∈ (L ++ a :: b :: R) → next? h' x = next? h x)
    (hv : ∀ x, x ≠ b → x ≠ p → x ∈ (L ++ a :: b :: R) → prev? h' x = prev? h x) :
    List.IsChain (Link h') (L ++ [a]) ∧ List.IsChain (Link h') (b :: R) := by
  obtain ⟨-, -, hpL, hpR, hLa, hRa, hLb, hRb⟩ := hp.split_at
  have hc := hp.chain
  rw [List.isChain_append_cons_cons, List.isChain_cons_cons] at hc
  have hneL {x : ℕ} (hx : x ∈ L ++ [a]) : x ≠ p := fun e => hpL (e ▸ hx)
  have hneR {x : ℕ} (hx : x ∈ b :: R) : x ≠ p := fun e => hpR (e ▸ hx)
  have hmemL {x : ℕ} (hx : x ∈ L ++ [a]) : x ∈ L ++ a :: b :: R := by
    rw [List.append_cons]
    exact List.mem_append_left _ hx
  have hmemR {x : ℕ} (hx : x ∈ b :: R) : x ∈ L ++ a :: b :: R :=
    List.mem_append_right _ (List.mem_cons_of_mem _ hx)
  constructor
  · refine chain_congr hc.1 (fun x hx => ?_) (fun x hx => ?_)
    · rw [List.dropLast_concat] at hx
      have hx' : x ∈ L ++ [a] := List.mem_append_left _ hx
      exact hn x (hLa x hx) (hneL hx') (hmemL hx')
    · have hx' := List.mem_of_mem_tail hx
      exact hv x (hLb x hx) (hneL hx') (hmemL hx')
  · refine chain_congr hc.2.2.2 (fun x hx => ?_) (fun x hx => ?_)
    · have hx' := (List.dropLast_sublist _).subset hx
      exact hn x (hRa x hx) (hneR hx') (hmemR hx')
    · have hx' : x ∈ b :: R := List.mem_cons_of_mem _ hx
      exact hv x (hRb x hx) (hneR hx') (hmemR hx')

theorem dropLast_split_at (L R : List ℕ) (a p b : ℕ) :
    (L ++ a :: p :: b :: R).dropLast = L ++ a :: p :: (b :: R).dropLast := by
  rw [dropLast_split, List.dropLast_cons_cons]

/-- **A node between two others is taken out.** -/
theorem remove_path (hp : Path h (L ++ a :: p :: b :: R)) :
    ∃ h', remove h p = some h' ∧ Path h' (L ++ a :: b :: R) ∧
      ∀ x, x ≠ p → data? h' x = data? h x := by
  obtain ⟨hl, hr, hpL, hpR, -⟩ := hp.split_at
  have hpa : p ≠ a := fun e => hpL (e ▸ by simp)
  have hpb : p ≠ b := fun e => hpR (e ▸ by simp)
  obtain ⟨h', hrem, hw⟩ := remove_without hl hr hpa
  obtain ⟨hL, hR⟩ := hp.relink_at h'
    (fun x hxa hxp _ => by rw [hw.next x hxp, if_neg hxa])
    (fun x hxb hxp _ => by rw [hw.prev x hxp, if_neg hxb])
  refine ⟨h', hrem, ⟨?_, ?_, ?_⟩, hw.data⟩
  · rw [List.isChain_append_cons_cons]
    exact ⟨hL, ⟨by rw [hw.next a hpa.symm, if_pos rfl], by rw [hw.prev b hpb.symm, if_pos rfl]⟩, hR⟩
  · have h1 := hp.nodup
    rw [dropLast_split_at] at h1
    rw [dropLast_split]
    exact h1.sublist ((List.Sublist.refl L).append ((List.sublist_cons_self _ _).cons_cons a))
  · have h1 := hp.nodup'
    rw [tail_split] at h1 ⊢
    exact h1.sublist ((List.Sublist.refl _).append (List.sublist_cons_self _ _))

theorem replace_between (d : α) {q : ℕ} (hl : Link h a q) (hr : Link h q b) (hqa : q ≠ a)
    (hpa : p ≠ a) (hpb : p ≠ b) (hpq : p ≠ q) :
    ∃ h', replace h p d q = some h' ∧ ∀ x, x ≠ q →
      next? h' x = (if x = a then some p else if x = p then some b else next? h x) ∧
      prev? h' x = (if x = b then some p else if x = p then some a else prev? h x) ∧
      data? h' x = if x = p then some d else data? h x := by
  obtain ⟨na, np, ha, hp, hna, hnp⟩ := exists_node hl
  obtain ⟨np', nb, hp', hb, hnp', hnb⟩ := exists_node hr
  obtain rfl : np = np' := Option.some.inj (hp.symm.trans hp')
  by_cases hab : b = a
  · subst hab
    obtain rfl : na = nb := Option.some.inj (ha.symm.trans hb)
    have heq : replace h p d q = some (Function.update (Function.update (Function.update h p
        (some ⟨b, b, d⟩)) b (some ⟨p, p, na.data⟩)) q none) := by
      simp [replace, hp, hb, hnp, hnp', hpb.symm]
    refine ⟨_, heq, ?_⟩
    intro x hx
    by_cases hxb : x = b <;> by_cases hxp : x = p <;> simp_all [next?, prev?, data?]
  · have heq : replace h p d q = some (Function.update (Function.update (Function.update
        (Function.update h p (some ⟨b, a, d⟩)) a (some ⟨p, na.prev, na.data⟩)) b
        (some ⟨nb.next, p, nb.data⟩)) q none) := by
      simp [replace, hp, hb, ha, hnp, hnp', hab, hpa.symm, hpb.symm]
    refine ⟨_, heq, ?_⟩
    intro x hx
    by_cases hxa : x = a <;> by_cases hxb : x = b <;> by_cases hxp : x = p <;>
      simp_all [next?, prev?, data?]

/-- **A node takes the place of another.** -/
theorem replace_path (d : α) {q : ℕ} (hp : Path h (L ++ a :: q :: b :: R))
    (hfresh : p ∉ L ++ a :: q :: b :: R) :
    ∃ h', replace h p d q = some h' ∧ Path h' (L ++ a :: p :: b :: R) ∧
      ∀ x, x ≠ q → data? h' x = if x = p then some d else data? h x := by
  obtain ⟨hl, hr, hqL, hqR, -⟩ := hp.split_at
  have hqa : q ≠ a := fun e => hqL (e ▸ by simp)
  have hqb : q ≠ b := fun e => hqR (e ▸ by simp)
  have hpa : p ≠ a := fun e => hfresh (e ▸ by simp)
  have hpb : p ≠ b := fun e => hfresh (e ▸ by simp)
  have hpq : p ≠ q := fun e => hfresh (e ▸ by simp)
  obtain ⟨h', hrep, hw⟩ := replace_between d hl hr hqa hpa hpb hpq
  have hne {x : ℕ} (hx : x ∈ L ++ a :: b :: R) : x ≠ p := by
    rintro rfl
    refine hfresh (List.mem_append.mpr ((List.mem_append.mp hx).imp_right fun h => ?_))
    rcases List.mem_cons.mp h with h | h
    · exact absurd h hpa
    · exact List.mem_cons_of_mem _ (List.mem_cons_of_mem _ h)
  obtain ⟨hL, hR⟩ := hp.relink_at h'
    (fun x hxa hxq hx => by rw [(hw x hxq).1, if_neg hxa, if_neg (hne hx)])
    (fun x hxb hxq hx => by rw [(hw x hxq).2.1, if_neg hxb, if_neg (hne hx)])
  refine ⟨h', hrep, ⟨?_, ?_, ?_⟩, fun x hx => (hw x hx).2.2⟩
  · rw [List.isChain_append_cons_cons, List.isChain_cons_cons]
    refine ⟨hL, ⟨?_, ?_⟩, ⟨?_, ?_⟩, hR⟩
    · rw [(hw a hqa.symm).1, if_pos rfl]
    · rw [(hw p hpq).2.1, if_neg hpb, if_pos rfl]
    · rw [(hw p hpq).1, if_neg hpa, if_pos rfl]
    · rw [(hw b hqb.symm).2.1, if_pos rfl]
  · have h1 := hp.nodup
    have hsub := (List.dropLast_sublist (L ++ a :: q :: b :: R)).subset
    rw [dropLast_split_at, List.append_cons] at h1 hsub
    rw [dropLast_split_at, List.append_cons]
    exact nodup_insert (h1.sublist ((List.Sublist.refl _).append (List.sublist_cons_self _ _)))
      fun h => hfresh (hsub ((List.Sublist.refl _).append (List.sublist_cons_self _ _) |>.subset h))
  · have h1 := hp.nodup'
    have hsub : (L ++ a :: q :: b :: R).tail ⊆ L ++ a :: q :: b :: R := fun x hx =>
      List.mem_of_mem_tail hx
    rw [tail_split] at h1 hsub ⊢
    exact nodup_insert (h1.sublist ((List.Sublist.refl _).append (List.sublist_cons_self _ _)))
      fun h => hfresh (hsub ((List.Sublist.refl _).append (List.sublist_cons_self _ _) |>.subset h))

/-! ### Walking -/

theorem Path.link {l : List ℕ} (hp : Path h l) {i : ℕ} (hi : i + 1 < l.length) :
    Link h l[i] l[i + 1] := List.isChain_iff_getElem.mp hp.chain i hi

theorem Path.setData (hp : Path h c) (hx : ∀ x, next? h' x = next? h x ∧ prev? h' x = prev? h x) :
    Path h' c :=
  ⟨chain_congr hp.chain (fun x _ => (hx x).1) (fun x _ => (hx x).2), hp.nodup, hp.nodup'⟩

end Linked
