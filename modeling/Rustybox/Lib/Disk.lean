import Mathlib.Logic.Basic
import Mathlib.Order.Basic

/-!
# Names and files

A `Disk` binds names to nodes.  A node is a file with a number of its own, and two names of one
file are hard links of each other, or it is of some other kind.  As long as only new files are bound
every file has one name (`Disk.Separate`).
-/

namespace Disks

/-- What a name stands for: a file with its number, or something else. -/
inductive Node (κ : Type) where
  | file (number : ℕ)
  | other (kind : κ)
  deriving DecidableEq

/-- The nodes of the names and the data of the files; the numbers from `next` on are free. -/
structure Disk (ν κ δ : Type) where
  node : ν → Option (Node κ)
  data : ℕ → δ
  next : ℕ

variable {ν κ δ : Type}

def Disk.empty [Inhabited δ] : Disk ν κ δ := ⟨fun _ => none, fun _ => default, 0⟩

/-- The name is that of a file with these data. -/
def Disk.Holds (d : Disk ν κ δ) (name : ν) (c : δ) : Prop :=
  ∃ i, d.node name = some (.file i) ∧ d.data i = c

/-- The two names are those of one file. -/
def Disk.Linked (d : Disk ν κ δ) (n m : ν) : Prop :=
  ∃ i, d.node n = some (.file i) ∧ d.node m = some (.file i)

/-- Every file has a number that is taken, and one name. -/
structure Disk.Separate (d : Disk ν κ δ) : Prop where
  lt : ∀ {n i}, d.node n = some (.file i) → i < d.next
  eq : ∀ {n m i}, d.node n = some (.file i) → d.node m = some (.file i) → n = m

theorem Disk.Separate.empty [Inhabited δ] : (Disk.empty : Disk ν κ δ).Separate :=
  ⟨fun h => (nomatch h), fun h _ => (nomatch h)⟩

/-- Only one name is another one, and that is not a file's. -/
structure Disk.Besides (name : ν) (d d' : Disk ν κ δ) : Prop where
  data : d'.data = d.data
  next : d'.next = d.next
  node : ∀ n, n ≠ name → d'.node n = d.node n
  no_file : ∀ i, d'.node name ≠ some (.file i)

variable {d d' d'' : Disk ν κ δ} {name n m : ν} {c : δ} {i : ℕ}

theorem Disk.Besides.refl (h : ∀ i, d.node name ≠ some (.file i)) : Disk.Besides name d d :=
  ⟨rfl, rfl, fun _ _ => rfl, h⟩

theorem Disk.Besides.trans (h : Disk.Besides name d d') (h' : Disk.Besides name d' d'') :
    Disk.Besides name d d'' :=
  ⟨h'.data.trans h.data, h'.next.trans h.next, fun n hn => (h'.node n hn).trans (h.node n hn),
    h'.no_file⟩

theorem Disk.Besides.file (h : Disk.Besides name d d') (hn : d'.node n = some (.file i)) :
    n ≠ name ∧ d.node n = some (.file i) := by
  have hname : n ≠ name := by
    rintro rfl
    exact h.no_file i hn
  exact ⟨hname, by rw [← h.node n hname, hn]⟩

theorem Disk.Besides.separate (h : Disk.Besides name d d') (hd : d.Separate) : d'.Separate := by
  constructor
  · intro n i hn
    rw [h.next]
    exact hd.lt (h.file hn).2
  · intro n m i hn hm
    exact hd.eq (h.file hn).2 (h.file hm).2

theorem Disk.Besides.holds (h : Disk.Besides name d d') (hn : d.Holds n c) (hname : n ≠ name) :
    d'.Holds n c := by
  obtain ⟨i, hnode, hdata⟩ := hn
  exact ⟨i, by rw [h.node n hname, hnode], by rw [h.data, hdata]⟩

variable [DecidableEq ν]

def Disk.bind (d : Disk ν κ δ) (name : ν) (x : Node κ) : Disk ν κ δ :=
  { d with node := fun n => if n = name then some x else d.node n }

def Disk.unlink (d : Disk ν κ δ) (name : ν) : Disk ν κ δ :=
  { d with node := fun n => if n = name then none else d.node n }

def Disk.create (d : Disk ν κ δ) (name : ν) (c : δ) : Disk ν κ δ where
  node n := if n = name then some (.file d.next) else d.node n
  data i := if i = d.next then c else d.data i
  next := d.next + 1

variable {x : Node κ}

@[simp] theorem Disk.node_bind_self : (d.bind name x).node name = some x := if_pos rfl

theorem Disk.node_bind_of_ne (h : n ≠ name) : (d.bind name x).node n = d.node n := if_neg h

@[simp] theorem Disk.node_unlink_self : (d.unlink name).node name = none := if_pos rfl

@[simp] theorem Disk.node_create_self : (d.create name c).node name = some (.file d.next) :=
  if_pos rfl

theorem Disk.node_create_of_ne (h : n ≠ name) : (d.create name c).node n = d.node n := if_neg h

@[simp] theorem Disk.data_create_next : (d.create name c).data d.next = c := if_pos rfl

theorem Disk.data_create_of_lt (h : i < d.next) : (d.create name c).data i = d.data i :=
  if_neg (Nat.ne_of_lt h)

theorem Disk.Separate.create (h : d.Separate) : (d.create name c).Separate := by
  have hcases : ∀ {n i}, (d.create name c).node n = some (.file i) →
      n = name ∧ i = d.next ∨ n ≠ name ∧ d.node n = some (.file i) := by
    intro n i hn
    by_cases hname : n = name
    · rw [hname, Disk.node_create_self] at hn
      exact Or.inl ⟨hname, (Node.file.inj (Option.some.inj hn)).symm⟩
    · rw [Disk.node_create_of_ne hname] at hn
      exact Or.inr ⟨hname, hn⟩
  constructor
  · intro n i hn
    rcases hcases hn with ⟨-, rfl⟩ | ⟨-, hold⟩
    · exact Nat.lt_succ_self _
    · exact Nat.lt_succ_of_lt (h.lt hold)
  · intro n m i hn hm
    rcases hcases hn with ⟨hn, hi⟩ | ⟨-, hn⟩
    · rcases hcases hm with ⟨hm, -⟩ | ⟨-, hm⟩
      · rw [hn, hm]
      · exact absurd (h.lt hm) (Nat.not_lt.mpr (Nat.le_of_eq hi.symm))
    · rcases hcases hm with ⟨-, hi⟩ | ⟨-, hm⟩
      · exact absurd (h.lt hn) (Nat.not_lt.mpr (Nat.le_of_eq hi.symm))
      · exact h.eq hn hm

theorem Disk.Holds.create (h : d.Separate) {c' : δ} (hn : d.Holds n c')
    (hfree : d.node name = none) : (d.create name c).Holds n c' := by
  obtain ⟨i, hnode, hdata⟩ := hn
  have hname : n ≠ name := by
    rintro rfl
    rw [hfree] at hnode
    cases hnode
  refine ⟨i, ?_, ?_⟩
  · rw [Disk.node_create_of_ne hname, hnode]
  · rw [Disk.data_create_of_lt (h.lt hnode), hdata]

theorem Disk.holds_create : (d.create name c).Holds name c :=
  ⟨d.next, Disk.node_create_self, Disk.data_create_next⟩

theorem Disk.Besides.bind_other (k : κ) : Disk.Besides name d (d.bind name (.other k)) := by
  refine ⟨rfl, rfl, fun n hn => Disk.node_bind_of_ne hn, fun i hi => ?_⟩
  rw [Disk.node_bind_self] at hi
  cases hi

theorem Disk.Besides.unlink : Disk.Besides name d (d.unlink name) := by
  refine ⟨rfl, rfl, fun n hn => if_neg hn, fun i hi => ?_⟩
  rw [Disk.node_unlink_self] at hi
  cases hi

end Disks
