import Rustybox.Modern.Listing
import Mathlib.Data.List.Chain

/-!
# -prune

`-prune` calls `skip_current_dir`, which drops the top listing.  That is the listing of the entry
itself when the entry is a directory and `-prune` is evaluated for the first time.  On a file it is
the listing that the file is in, and a second `-prune` drops one listing more: the entries that are
left in there are never visited.

* `visits_exactly_iff`: the entries that ought to be visited are visited exactly when no entry with
  such a surplus is followed by another one in the directory as many levels up.
-/

namespace Rustybox.Modern.Find

variable {P : Type}

/-! ### What ought to be visited -/

/-- A predicate holds; `-prune` always does. -/
def holds (sys : System Unit P) (e : Entry) : Bool × Pred P → Bool
  | (negate, .prune) => !negate
  | (negate, .other p) => sys.eval p () e != negate

/-- How often `-prune` is evaluated on an entry, up to a predicate that fails. -/
def evaluations (sys : System Unit P) (e : Entry) : List (Bool × Pred P) → ℕ
  | [] => 0
  | np :: preds =>
    (match np.2 with | .prune => 1 | .other _ => 0) +
      if holds sys e np then evaluations sys e preds else 0

/-- The evaluations of `-prune` that do not drop the listing of the entry itself. -/
def surplus (sys : System Unit P) (preds : List (Bool × Pred P)) (e : Entry) : ℕ :=
  evaluations sys e preds - if e.isDir then 1 else 0

def WalkOptions.InRange (o : WalkOptions) (depth : ℕ) : Prop := o.minDepth ≤ depth ∧ depth ≤ o.maxDepth

instance (o : WalkOptions) (depth : ℕ) : Decidable (o.InRange depth) :=
  inferInstanceAs (Decidable (_ ∧ _))

/-- One of these directories is in the range and `-prune` is evaluated on it. -/
def cutOff (o : WalkOptions) (pruned : Entry → Bool) : List Entry → Bool
  | [] => false
  | d :: up => (decide (o.InRange up.length) && d.isDir && pruned d) || cutOff o pruned up

/-- The entries in the range that are in no directory on which `-prune` is evaluated. -/
def expected (o : WalkOptions) (pruned : Entry → Bool) (listing : Listing) (up : List Entry) :
    List Found :=
  (listing.found up).filter fun f => decide (o.InRange f.up.length) && !cutOff o pruned f.up

/-- `-quit` ends the walk. -/
def untilStop (stops : Entry → Bool) : List Found → List Found
  | [] => []
  | f :: rest => if stops f.entry then [f] else f :: untilStop stops rest

/-- Whether `-quit` is reached on an entry. -/
def quits (sys : System Unit P) (cmd : Command (Pred P)) (e : Entry) : Bool :=
  cmd.preds.all (holds sys e) && decide (.quit ∈ cmd.actions)

/-- `g` is in the directory from which the surplus on `f` drops what is left. -/
def Dropped (sys : System Unit P) (preds : List (Bool × Pred P)) (f g : Found) : Prop :=
  0 < surplus sys preds f.entry ∧ f.up.drop (surplus sys preds f.entry - 1) <:+ g.up

/-! ### Entries and the directories they are in -/

section Expected

variable {o : WalkOptions} {pruned : Entry → Bool}

theorem suffix_of_mem_found {l : Listing} {up : List Entry} {f : Found} (h : f ∈ l.found up) :
    up <:+ f.up := by
  induction l generalizing up with
  | nil => cases h
  | file name rest ih =>
    rcases List.mem_cons.mp h with rfl | h
    · exact List.suffix_refl _
    · exact ih h
  | dir name entries rest ihe ihr =>
    rcases List.mem_append.mp h with h | h
    · rcases List.mem_cons.mp h with rfl | h
      · exact List.suffix_refl _
      · exact (List.suffix_cons _ _).trans (ihe h)
    · exact ihr h

theorem mem_names_of_suffix {l : Listing} {up : List Entry} {f : Found} {a : Entry}
    (h : f ∈ l.found up) (ha : a :: up <:+ f.up) : ∃ name ∈ l.names, a = entryIn up name true := by
  have hself : ¬ a :: up <:+ up := fun hs => by
    have := hs.length_le
    rw [List.length_cons] at this
    omega
  induction l generalizing up with
  | nil => cases h
  | file name rest ih =>
    rcases List.mem_cons.mp h with rfl | h
    · exact absurd ha hself
    · obtain ⟨name', hmem, rfl⟩ := ih h ha hself
      exact ⟨name', List.mem_cons_of_mem _ hmem, rfl⟩
  | dir name entries rest ihe ihr =>
    rcases List.mem_append.mp h with h | h
    · rcases List.mem_cons.mp h with rfl | h
      · exact absurd ha hself
      · -- the directory is the one whose entries these are
        have hd := suffix_of_mem_found h
        have heq : a :: up = entryIn up name true :: up :=
          (List.suffix_of_suffix_length_le ha hd (Nat.le_refl _)).eq_of_length rfl
        exact ⟨name, List.mem_cons_self, (List.cons.inj heq).1⟩
    · obtain ⟨name', hmem, rfl⟩ := ihr h ha hself
      exact ⟨name', List.mem_cons_of_mem _ hmem, rfl⟩

theorem entryIn_inj {up : List Entry} {m n : List UInt8} {b c : Bool}
    (h : entryIn up m b = entryIn up n c) : m = n := by
  have := congrArg Entry.path h
  exact List.singleton_inj.mp (List.append_cancel_left this)

/-- A chain of directories as the tree makes them. -/
def Coherent : List Entry → Prop
  | [] => True
  | e :: up => (∃ name b, e = entryIn up name b) ∧ (∀ d ∈ up.head?, d.isDir = true) ∧ Coherent up

theorem length_path_of_coherent {e : Entry} {up : List Entry} (h : Coherent (e :: up)) :
    e.path.length = up.length + 1 := by
  induction up generalizing e with
  | nil =>
    obtain ⟨⟨name, b, rfl⟩, -⟩ := h
    rfl
  | cons d up ih =>
    obtain ⟨⟨name, b, rfl⟩, -, hup⟩ := h
    have := ih hup
    simp [entryIn, this]

/-- The path of an entry tells the directories that it is in. -/
theorem eq_of_coherent {e : Entry} {up up' : List Entry} (h : Coherent (e :: up))
    (h' : Coherent (e :: up')) : up = up' := by
  have hlen : up.length = up'.length := by
    have h1 := length_path_of_coherent h
    have h2 := length_path_of_coherent h'
    omega
  induction up generalizing e up' with
  | nil => exact (List.length_eq_zero_iff.mp hlen.symm).symm
  | cons d up ih =>
    cases up' with
    | nil => cases hlen
    | cons d' up' =>
      obtain ⟨⟨name, b, he⟩, hdir, hup⟩ := h
      obtain ⟨⟨name', b', he'⟩, hdir', hup'⟩ := h'
      have hpath : d.path = d'.path := by
        have := congrArg Entry.path (he.symm.trans he')
        exact (List.append_inj' this rfl).1
      have hd : d = d' := by
        obtain ⟨path, isDir⟩ := d
        obtain ⟨path', isDir'⟩ := d'
        obtain rfl : path = path' := hpath
        rw [show isDir = true from hdir _ rfl, show isDir' = true from hdir' _ rfl]
      subst hd
      rw [ih hup hup' (Nat.succ.inj hlen)]

theorem coherent_of_mem_found {l : Listing} {up : List Entry} {f : Found} (h : f ∈ l.found up)
    (hup : Coherent up) (hdir : ∀ d ∈ up.head?, d.isDir = true) : Coherent f.chain := by
  induction l generalizing up with
  | nil => cases h
  | file name rest ih =>
    rcases List.mem_cons.mp h with rfl | h
    · exact ⟨⟨name, false, rfl⟩, hdir, hup⟩
    · exact ih h hup hdir
  | dir name entries rest ihe ihr =>
    rcases List.mem_append.mp h with h | h
    · rcases List.mem_cons.mp h with rfl | h
      · exact ⟨⟨name, true, rfl⟩, hdir, hup⟩
      · exact ihe h ⟨⟨name, true, rfl⟩, hdir, hup⟩ fun d hd => by
          cases hd
          rfl
    · exact ihr h hup hdir

/-! ### What is expected of a listing -/

theorem mem_found_of_mem_expected {l : Listing} {up : List Entry} {f : Found}
    (h : f ∈ expected o pruned l up) : f ∈ l.found up := List.mem_of_mem_filter h

theorem expected_eq_nil {l : Listing} {up : List Entry}
    (h : ∀ f ∈ l.found up, o.InRange f.up.length → cutOff o pruned f.up = true) :
    expected o pruned l up = [] := by
  refine List.filter_eq_nil_iff.mpr fun f hf => ?_
  by_cases hr : o.InRange f.up.length
  · simp [h f hf hr]
  · simp [hr]

theorem cutOff_of_suffix {up up' : List Entry} (h : up <:+ up') (hcut : cutOff o pruned up = true) :
    cutOff o pruned up' = true := by
  obtain ⟨pre, rfl⟩ := h
  induction pre with
  | nil => exact hcut
  | cons d pre ih => rw [List.cons_append, cutOff, ih, Bool.or_true]

theorem expected_of_cutOff {l : Listing} {up : List Entry} (h : cutOff o pruned up = true) :
    expected o pruned l up = [] :=
  expected_eq_nil fun _ hf _ => cutOff_of_suffix (suffix_of_mem_found hf) h

theorem expected_of_deep {l : Listing} {up : List Entry} (h : o.maxDepth < up.length) :
    expected o pruned l up = [] := by
  refine expected_eq_nil fun f hf hr => ?_
  have := (suffix_of_mem_found hf).length_le
  have := hr.2
  omega

/-- What is expected of some open listings. -/
def expectedOf (o : WalkOptions) (pruned : Entry → Bool) (st : List Frame) : List Found :=
  st.flatMap fun f => expected o pruned f.listing f.up

theorem expectedOf_cons (f : Frame) (st : List Frame) :
    expectedOf o pruned (f :: st) = expected o pruned f.listing f.up ++ expectedOf o pruned st := rfl

theorem expectedOf_append (st st' : List Frame) :
    expectedOf o pruned (st ++ st') = expectedOf o pruned st ++ expectedOf o pruned st' :=
  List.flatMap_append

theorem expected_first {f : Frame} {e : Found} {opened : List Frame}
    (h : f.first = some (e, opened)) :
    expected o pruned f.listing f.up =
      (if o.InRange f.up.length ∧ cutOff o pruned f.up = false then [e] else []) ++
        expectedOf o pruned opened := by
  obtain ⟨l, up⟩ := f
  cases l with
  | nil => cases h
  | file name rest =>
    cases h
    simp only [expected, Listing.found, List.filter_cons, expectedOf, List.flatMap_cons,
      List.flatMap_nil, List.append_nil]
    split <;> split <;> simp_all
  | dir name entries rest =>
    cases h
    simp only [expected, Listing.found, List.filter_cons, List.cons_append, List.filter_append,
      expectedOf, List.flatMap_cons, List.flatMap_nil, List.append_nil]
    split <;> split <;> simp_all

end Expected

/-! ### The open listings -/

/-- The listing below another one on the stack is what is left of where its directory is. -/
def OpenIn (f g : Frame) : Prop :=
  ∃ name, f.up = entryIn g.up name true :: g.up ∧ name ∉ g.listing.names

/-- The stack while nothing in it is to be passed over. -/
structure Tidy (o : WalkOptions) (pruned : Entry → Bool) (st : List Frame) : Prop where
  open_frames : ∀ f ∈ st, cutOff o pruned f.up = false ∧ f.listing.Distinct ∧ Coherent f.up ∧
    ∀ d ∈ f.up.head?, d.isDir = true
  linked : st.IsChain OpenIn

section Tidy

variable {o : WalkOptions} {pruned : Entry → Bool}

theorem Tidy.tail {f : Frame} {st : List Frame} (h : Tidy o pruned (f :: st)) : Tidy o pruned st where
  open_frames g hg := h.open_frames g (List.mem_cons_of_mem _ hg)
  linked := h.linked.tail

theorem Tidy.drop {st : List Frame} (h : Tidy o pruned st) (n : ℕ) : Tidy o pruned (st.drop n) where
  open_frames g hg := h.open_frames g (List.mem_of_mem_drop hg)
  linked := h.linked.drop n

/-- The top listing may be replaced by another one of the same directory. -/
theorem Tidy.replace {f : Frame} {st : List Frame} (h : Tidy o pruned (f :: st)) {l : Listing}
    (hl : l.Distinct) : Tidy o pruned (⟨l, f.up⟩ :: st) where
  open_frames g hg := by
    rcases List.mem_cons.mp hg with rfl | hg
    · obtain ⟨hcut, -, hcoh, hdir⟩ := h.open_frames f List.mem_cons_self
      exact ⟨hcut, hl, hcoh, hdir⟩
    · exact h.open_frames g (List.mem_cons_of_mem _ hg)
  linked := by
    have hlinked := h.linked
    cases st with
    | nil => exact .singleton _
    | cons g st => exact .cons_cons hlinked.rel hlinked.tail

theorem Tidy.not_suffix {f : Frame} {st : List Frame} (h : Tidy o pruned (f :: st)) {g : Found}
    (hg : g ∈ expectedOf o pruned st) : ¬ f.up <:+ g.up := by
  induction st generalizing f with
  | nil => cases hg
  | cons f' st ih =>
    obtain ⟨name, hup, hname⟩ := h.linked.rel
    intro hs
    rw [hup] at hs
    rcases List.mem_append.mp hg with hg | hg
    · obtain ⟨name', hmem, heq⟩ := mem_names_of_suffix (mem_found_of_mem_expected hg) hs
      exact hname (entryIn_inj heq ▸ hmem)
    · exact ih h.tail hg ((List.suffix_cons _ _).trans hs)

/-- The entries of the top listings are in the directory of the last one of them. -/
theorem Tidy.suffix_of_mem_take {f : Frame} {st : List Frame} (h : Tidy o pruned (f :: st)) (m : ℕ)
    {g : Found} (hg : g ∈ expectedOf o pruned ((f :: st).take (m + 1))) : f.up.drop m <:+ g.up := by
  induction m generalizing f st with
  | zero =>
    rw [List.take_succ_cons, List.take_zero, expectedOf_cons, expectedOf, List.flatMap_nil,
      List.append_nil] at hg
    exact suffix_of_mem_found (mem_found_of_mem_expected hg)
  | succ m ih =>
    rw [List.take_succ_cons, expectedOf_cons] at hg
    rcases List.mem_append.mp hg with hg | hg
    · exact (List.drop_suffix _ _).trans (suffix_of_mem_found (mem_found_of_mem_expected hg))
    · cases st with
      | nil => cases hg
      | cons f' st =>
        obtain ⟨name, hup, -⟩ := h.linked.rel
        rw [hup, List.drop_succ_cons]
        exact ih h.tail hg

/-- The entries of the listings below are not. -/
theorem Tidy.not_suffix_of_mem_drop {f : Frame} {st : List Frame} (h : Tidy o pruned (f :: st))
    (m : ℕ) {g : Found} (hg : g ∈ expectedOf o pruned ((f :: st).drop (m + 1))) :
    ¬ f.up.drop m <:+ g.up := by
  induction m generalizing f st with
  | zero => exact h.not_suffix hg
  | succ m ih =>
    cases st with
    | nil => cases hg
    | cons f' st =>
      obtain ⟨name, hup, -⟩ := h.linked.rel
      rw [hup, List.drop_succ_cons]
      exact ih h.tail hg

/-! ### One step of the iterator -/

/-- The entry at the top, and what is open behind it. -/
theorem Tidy.first {f : Frame} {st opened : List Frame} {e : Found} (h : Tidy o pruned (f :: st))
    (hf : f.first = some (e, opened)) : e.up = f.up ∧ Coherent e.chain ∧
      (cutOff o pruned e.chain = false → Tidy o pruned (opened ++ st)) ∧
      ∃ own l, opened = own ++ [⟨l, f.up⟩] ∧ Tidy o pruned (⟨l, f.up⟩ :: st) ∧
        (e.entry.isDir = false → own = []) ∧
        (e.entry.isDir = true → ∃ entries, own = [⟨entries, e.chain⟩]) := by
  obtain ⟨hcut, hdistinct, hcoh, hdir⟩ := h.open_frames f List.mem_cons_self
  obtain ⟨l, up⟩ := f
  cases l with
  | nil => cases hf
  | file name rest =>
    cases hf
    have hrest := h.replace hdistinct.2
    exact ⟨rfl, ⟨⟨name, false, rfl⟩, hdir, hcoh⟩, fun _ => hrest, [], rest, rfl, hrest,
      fun _ => rfl, nofun⟩
  | dir name entries rest =>
    cases hf
    have hrest := h.replace hdistinct.2.2
    have hchain : Coherent (entryIn up name true :: up) := ⟨⟨name, true, rfl⟩, hdir, hcoh⟩
    refine ⟨rfl, hchain, fun hopen => ?_, [⟨entries, entryIn up name true :: up⟩], rest, rfl, hrest,
      nofun, fun _ => ⟨entries, rfl⟩⟩
    constructor
    · intro g hg
      rcases List.mem_cons.mp hg with rfl | hg
      · exact ⟨hopen, hdistinct.2.1, hchain, fun d hd => by cases hd; rfl⟩
      · exact hrest.open_frames g hg
    · exact .cons_cons ⟨name, rfl, hdistinct.1⟩ hrest.linked

/-- What `next` does to the open listings, as far as the expected entries go. -/
def Steps (o : WalkOptions) (pruned : Entry → Bool) (st : List Frame) :
    Option (Found × List Frame) → Prop
  | none => expectedOf o pruned st = []
  | some (e, st') => expectedOf o pruned st = e :: expectedOf o pruned st' ∧
      Coherent e.chain ∧ o.InRange e.up.length ∧ cutOff o pruned e.up = false ∧
      (cutOff o pruned e.chain = false → Tidy o pruned st') ∧
      ∃ own l rest, st' = own ++ ⟨l, e.up⟩ :: rest ∧ Tidy o pruned (⟨l, e.up⟩ :: rest) ∧
        (e.entry.isDir = false → own = []) ∧
        (e.entry.isDir = true → ∃ entries, own = [⟨entries, e.chain⟩])

theorem Steps.of_eq {st st' : List Frame} {r : Option (Found × List Frame)}
    (h : Steps o pruned st r) (heq : expectedOf o pruned st' = expectedOf o pruned st) :
    Steps o pruned st' r := by
  cases r with
  | none => exact heq.trans h
  | some r => exact ⟨heq.trans h.1, h.2⟩

theorem Tidy.next {st : List Frame} {r : Option (Found × List Frame)} (h : Tidy o pruned st)
    (hnext : Next o st r) : Steps o pruned st r := by
  induction hnext with
  | done => rfl
  | @close f st r hf hnext ih =>
    have hnone : expected o pruned f.listing f.up = [] := by
      rcases hf with hf | hf
      · obtain ⟨l, up⟩ := f
        cases l with
        | nil => rfl
        | file name rest => cases hf
        | dir name entries rest => cases hf
      · exact expected_of_deep hf
    have hsame : expectedOf o pruned (f :: st) = expectedOf o pruned st := by
      rw [expectedOf_cons, hnone, List.nil_append]
    exact (ih h.tail).of_eq hsame
  | @pass f st r e opened hf hmax hmin hnext ih =>
    obtain ⟨hup, hcoh, htidy, -⟩ := h.first hf
    have hout : ¬ o.InRange f.up.length := fun hr => by
      have := hr.1
      omega
    have hcut : cutOff o pruned e.chain = false := by
      rw [Found.chain, cutOff, hup, decide_eq_false hout, Bool.false_and, Bool.false_and,
        Bool.false_or]
      exact (h.open_frames f List.mem_cons_self).1
    have hsame : expectedOf o pruned (f :: st) = expectedOf o pruned (opened ++ st) := by
      rw [expectedOf_cons, expected_first hf, if_neg (fun hr => hout hr.1), List.nil_append,
        ← expectedOf_append]
    exact (ih (htidy hcut)).of_eq hsame
  | @yields f st e opened hf hmax hmin =>
    obtain ⟨hup, hcoh, htidy, own, l, hopened, hrest, hfile, hdir⟩ := h.first hf
    have hcut := (h.open_frames f List.mem_cons_self).1
    have hin : o.InRange f.up.length := ⟨hmin, hmax⟩
    refine ⟨?_, hcoh, hup ▸ hin, hup ▸ hcut, htidy, own, l, st, ?_, hup ▸ hrest, hfile, hdir⟩
    · rw [expectedOf_cons, expected_first hf, if_pos ⟨hin, hcut⟩, List.singleton_append,
        List.cons_append, ← expectedOf_append]
    · rw [hopened, hup, List.append_assoc, List.singleton_append]

end Tidy

/-! ### A whole walk -/

section Walks

variable {o : WalkOptions} {sys : System Unit P} {cmd : Command (Pred P)}

/-- Is `-prune` evaluated on an entry? -/
def pruned (sys : System Unit P) (cmd : Command (Pred P)) (e : Entry) : Bool :=
  decide (0 < evaluations sys e cmd.preds)

/-- The entries of a walk from some open listings. -/
inductive Walks (o : WalkOptions) (sys : System Unit P) (cmd : Command (Pred P)) :
    List Frame → List Found → Prop
  | done {st} : Next o st none → Walks o sys cmd st []
  | last {st f st'} : Next o st (some (f, st')) → quits sys cmd f.entry = true →
      Walks o sys cmd st [f]
  | more {st f st' fs} : Next o st (some (f, st')) → quits sys cmd f.entry = false →
      Walks o sys cmd (st'.drop (evaluations sys f.entry cmd.preds)) fs → Walks o sys cmd st (f :: fs)

/-- The evaluations of `-prune` on an entry drop its own listing, and as many of those below as
there are more of them. -/
theorem Steps.drop_evaluations {st st' : List Frame} {f : Found}
    (h : Steps o (pruned sys cmd) st (some (f, st'))) :
    ∃ above, Tidy o (pruned sys cmd) above ∧
      expectedOf o (pruned sys cmd) st' = expectedOf o (pruned sys cmd) above ∧
      st'.drop (evaluations sys f.entry cmd.preds) = above.drop (surplus sys cmd.preds f.entry) ∧
      (0 < surplus sys cmd.preds f.entry → ∃ l rest, above = ⟨l, f.up⟩ :: rest) := by
  obtain ⟨-, -, hin, hcut, htidy, own, l, rest, hst', hrest, hfile, hdir⟩ := h
  have hchain : cutOff o (pruned sys cmd) f.chain = (f.entry.isDir && pruned sys cmd f.entry) := by
    rw [Found.chain, cutOff, hcut, Bool.or_false, decide_eq_true hin, Bool.true_and]
  by_cases hzero : evaluations sys f.entry cmd.preds = 0
  · have hnone : surplus sys cmd.preds f.entry = 0 := by rw [surplus, hzero, Nat.zero_sub]
    have hopen : cutOff o (pruned sys cmd) f.chain = false := by
      rw [hchain, pruned, hzero, decide_eq_false (Nat.lt_irrefl 0), Bool.and_false]
    exact ⟨st', htidy hopen, rfl, by rw [hzero, hnone], fun hpos => by omega⟩
  · refine ⟨⟨l, f.up⟩ :: rest, hrest, ?_, ?_, fun _ => ⟨l, rest, rfl⟩⟩
    · rw [hst', expectedOf_append]
      cases hd : f.entry.isDir with
      | false => rw [hfile hd]; rfl
      | true =>
        obtain ⟨entries, rfl⟩ := hdir hd
        have hclosed : cutOff o (pruned sys cmd) f.chain = true := by
          rw [hchain, hd, pruned, decide_eq_true (Nat.pos_of_ne_zero hzero)]
          rfl
        rw [expectedOf_cons, expected_of_cutOff hclosed]
        rfl
    · rw [hst', surplus]
      cases hd : f.entry.isDir with
      | false => rw [hfile hd]; rfl
      | true =>
        obtain ⟨entries, rfl⟩ := hdir hd
        obtain ⟨n, hn⟩ : ∃ n, evaluations sys f.entry cmd.preds = n + 1 :=
          Nat.exists_eq_succ_of_ne_zero hzero
        rw [hn]
        rfl

theorem mem_of_walks {st : List Frame} {fs : List Found} (h : Walks o sys cmd st fs)
    (htidy : Tidy o (pruned sys cmd) st) {g : Found} (hg : g ∈ fs) :
    g ∈ expectedOf o (pruned sys cmd) st ∧ Coherent g.chain := by
  induction h with
  | done => cases hg
  | last hnext _ =>
    have hstep := htidy.next hnext
    rw [List.mem_singleton.mp hg, hstep.1]
    exact ⟨List.mem_cons_self, hstep.2.1⟩
  | @more st f st' fs hnext _ _ ih =>
    have hstep := htidy.next hnext
    rw [hstep.1]
    rcases List.mem_cons.mp hg with rfl | hg
    · exact ⟨List.mem_cons_self, hstep.2.1⟩
    · obtain ⟨above, habove, hexpected, hdrop, -⟩ := hstep.drop_evaluations
      rw [hdrop] at ih
      obtain ⟨hmem, hcoh⟩ := ih (habove.drop _) hg
      refine ⟨List.mem_cons_of_mem _ ?_, hcoh⟩
      rw [hexpected, ← List.take_append_drop (surplus sys cmd.preds f.entry) above,
        expectedOf_append]
      exact List.mem_append_right _ hmem

theorem mem_of_mem_untilStop {stops : Entry → Bool} {fs : List Found} {g : Found}
    (h : g ∈ untilStop stops fs) : g ∈ fs := by
  induction fs with
  | nil => cases h
  | cons f fs ih =>
    rw [untilStop] at h
    split at h
    · exact List.mem_cons.mpr (.inl (List.mem_singleton.mp h))
    · exact (List.mem_cons.mp h).elim (fun he => List.mem_cons.mpr (.inl he))
        fun hm => List.mem_cons_of_mem _ (ih hm)

theorem head_mem_untilStop {stops : Entry → Bool} (f : Found) (fs : List Found) :
    f ∈ untilStop stops (f :: fs) := by
  rw [untilStop]
  split <;> exact List.mem_cons_self

/-- Nothing is lost when the top listings have nothing to be dropped in them. -/
theorem untilStop_drop {above : List Frame} {f : Found} {m : ℕ}
    (h : Tidy o (pruned sys cmd) above) (htop : 0 < m → ∃ l rest, above = ⟨l, f.up⟩ :: rest)
    (hnone : 0 < m → ∀ g ∈ untilStop (quits sys cmd) (expectedOf o (pruned sys cmd) above),
      ¬ f.up.drop (m - 1) <:+ g.up) :
    expectedOf o (pruned sys cmd) above = expectedOf o (pruned sys cmd) (above.drop m) := by
  cases m with
  | zero => rfl
  | succ m =>
    obtain ⟨l, rest, rfl⟩ := htop (Nat.succ_pos m)
    have hsplit : expectedOf o (pruned sys cmd) (_ ++ _) = _ := expectedOf_append
      ((⟨l, f.up⟩ :: rest : List Frame).take (m + 1)) ((⟨l, f.up⟩ :: rest : List Frame).drop (m + 1))
    rw [List.take_append_drop] at hsplit
    rw [hsplit]
    cases htake : expectedOf o (pruned sys cmd) ((⟨l, f.up⟩ :: rest : List Frame).take (m + 1)) with
    | nil => rfl
    | cons g gs =>
      have hsuffix := h.suffix_of_mem_take m (g := g) (by rw [htake]; exact List.mem_cons_self)
      refine absurd hsuffix (hnone (Nat.succ_pos m) g ?_)
      rw [hsplit, htake]
      exact head_mem_untilStop g _

/-- The walk finds what is expected exactly when nothing of that is dropped. -/
theorem walks_eq_iff {st : List Frame} {fs : List Found} (h : Walks o sys cmd st fs)
    (htidy : Tidy o (pruned sys cmd) st) :
    fs = untilStop (quits sys cmd) (expectedOf o (pruned sys cmd) st) ↔
      (untilStop (quits sys cmd) (expectedOf o (pruned sys cmd) st)).Pairwise
        fun f g => ¬ Dropped sys cmd.preds f g := by
  induction h with
  | done hnext =>
    rw [show expectedOf o _ _ = [] from htidy.next hnext]
    exact ⟨fun _ => .nil, fun _ => rfl⟩
  | last hnext hquits =>
    rw [(htidy.next hnext).1, untilStop, if_pos hquits]
    exact ⟨fun _ => List.pairwise_singleton _ _, fun _ => rfl⟩
  | @more st f st' fs hnext hquits hrest ih =>
    have hstep := htidy.next hnext
    obtain ⟨above, habove, hexpected, hdrop, htop⟩ := hstep.drop_evaluations
    rw [hdrop] at hrest ih
    have ih := ih (habove.drop _)
    rw [hstep.1, untilStop, if_neg (by rw [hquits]; exact Bool.false_ne_true), List.cons.injEq,
      List.pairwise_cons, hexpected, eq_self f, true_and]
    constructor
    · intro hfs
      -- what is visited later is in the listings that are left
      have hnot : ∀ g ∈ fs, ¬ Dropped sys cmd.preds f g := by
        rintro g hg ⟨hpos, hsuffix⟩
        obtain ⟨l, rest, rfl⟩ := htop hpos
        have hmem := (mem_of_walks hrest (habove.drop _) hg).1
        obtain ⟨m, hm⟩ : ∃ m, surplus sys cmd.preds f.entry = m + 1 :=
          Nat.exists_eq_succ_of_ne_zero (Nat.pos_iff_ne_zero.mp hpos)
        rw [hm] at hmem hsuffix
        exact habove.not_suffix_of_mem_drop m hmem hsuffix
      have hsame := untilStop_drop habove htop fun hpos g hg hsuffix =>
        hnot g (hfs ▸ hg) ⟨hpos, hsuffix⟩
      rw [hsame] at hfs ⊢
      exact ⟨fun g hg => hnot g (hfs ▸ hg), ih.mp hfs⟩
    · rintro ⟨hnot, hlater⟩
      have hsame := untilStop_drop habove htop fun hpos g hg hsuffix => hnot g hg ⟨hpos, hsuffix⟩
      rw [hsame] at hlater ⊢
      exact ih.mpr hlater

/-- Entries of coherent chains tell them apart. -/
theorem eq_of_map_entry {fs gs : List Found} (hf : ∀ f ∈ fs, Coherent f.chain)
    (hg : ∀ g ∈ gs, Coherent g.chain) (h : fs.map Found.entry = gs.map Found.entry) : fs = gs := by
  induction fs generalizing gs with
  | nil => exact (List.map_eq_nil_iff.mp h.symm).symm
  | cons f fs ih =>
    cases gs with
    | nil => cases h
    | cons g gs =>
      obtain ⟨hentry, hrest⟩ := List.cons.inj h
      obtain ⟨entry, up⟩ := f
      obtain ⟨entry', up'⟩ := g
      obtain rfl : entry = entry' := hentry
      have hup : up = up' := eq_of_coherent (hf _ List.mem_cons_self) (hg _ List.mem_cons_self)
      rw [hup, ih (fun f hm => hf f (List.mem_cons_of_mem _ hm))
        (fun g hm => hg g (List.mem_cons_of_mem _ hm)) hrest]

end Walks

/-! ### The loop makes such a walk -/

section Loop

variable {trees : List Char → FileTree} (w : TreeWalker trees) (sys : System Unit P)

theorem evalAll_value (e : Entry) (preds : List (Bool × Pred P)) (s : w.State) :
    (evalAll w.toWalker sys () e preds s).1 = preds.all (holds sys e) := by
  induction preds generalizing s with
  | nil => rfl
  | cons np preds ih =>
    obtain ⟨negate, p⟩ := np
    have hvalue : ((evalPred w.toWalker sys () e p s).1 != negate) = holds sys e (negate, p) := by
      cases p with
      | prune => cases negate <;> rfl
      | other p => rfl
    rw [evalAll]
    dsimp only
    rw [hvalue, List.all_cons]
    cases holds sys e (negate, p) with
    | true => exact ih _
    | false => rfl

/-- Each evaluation of `-prune` drops a listing. -/
theorem evalAll_stack (e : Entry) (preds : List (Bool × Pred P)) (s : w.State) :
    w.options (evalAll w.toWalker sys () e preds s).2 = w.options s ∧
      w.stack (evalAll w.toWalker sys () e preds s).2 =
        (w.stack s).drop (evaluations sys e preds) := by
  induction preds generalizing s with
  | nil => exact ⟨rfl, rfl⟩
  | cons np preds ih =>
    obtain ⟨negate, p⟩ := np
    cases p with
    | prune =>
      have hstack := w.stack_skip s
      have hoptions := w.options_skip s
      rw [evalAll, evaluations]
      dsimp only [evalPred, holds]
      cases negate with
      | true => exact ⟨hoptions, hstack.trans (List.drop_one).symm⟩
      | false =>
        obtain ⟨ho, hs⟩ := ih (w.skipCurrentDir s)
        refine ⟨ho.trans hoptions, hs.trans ?_⟩
        rw [hstack, List.drop_tail, Nat.add_comm]
        rfl
    | other p =>
      rw [evalAll]
      dsimp only [evalPred]
      by_cases hp : (sys.eval p () e != negate) = true
      · have hcount : evaluations sys e ((negate, .other p) :: preds) = evaluations sys e preds := by
          simp [evaluations, holds, hp]
        rw [hcount, if_pos hp]
        exact ih s
      · have hcount : evaluations sys e ((negate, .other p) :: preds) = 0 := by
          simp [evaluations, holds, hp]
        rw [hcount, if_neg hp]
        exact ⟨rfl, rfl⟩

theorem visited_act (e : Entry) (r : Session Unit) (a : Action) :
    (act sys e r a).visited = r.visited := by
  cases a with
  | quit => rfl
  | print => rfl
  | print0 => rfl
  | delete =>
    rw [act]
    split <;> rfl
  | exec argv batch =>
    cases batch with
    | true => rfl
    | false =>
      show (keepRc (runExec sys argv _ r)).visited = r.visited
      rw [keepRc, runExec]
      split <;> split <;> rfl

theorem actOnEntry_spec (e : Entry) (actions : List Action) (r : Session Unit) :
    (actOnEntry sys e actions r).1.visited = r.visited ∧
      (actOnEntry sys e actions r).2 = !decide (.quit ∈ actions) := by
  induction actions generalizing r with
  | nil => exact ⟨rfl, rfl⟩
  | cons a actions ih =>
    by_cases hquit : a = .quit
    · subst hquit
      exact ⟨rfl, by simp [actOnEntry]⟩
    · obtain ⟨hvisited, hmore⟩ := ih (act sys e r a)
      rw [actOnEntry_cons sys e hquit]
      refine ⟨hvisited.trans (visited_act sys e r a), hmore.trans ?_⟩
      simp [Ne.symm hquit]

theorem visit_spec (cmd : Command (Pred P)) (e : Entry) (r : Session Unit) (s : w.State) :
    (visit w.toWalker sys cmd e r s).1.visited = r.visited ++ [e] ∧
      (visit w.toWalker sys cmd e r s).2.2 = !quits sys cmd e ∧
      w.options (visit w.toWalker sys cmd e r s).2.1 = w.options s ∧
      w.stack (visit w.toWalker sys cmd e r s).2.1 =
        (w.stack s).drop (evaluations sys e cmd.preds) := by
  have hvalue := evalAll_value w sys e cmd.preds s
  have hstack := evalAll_stack w sys e cmd.preds s
  rw [visit, quits]
  dsimp only
  cases he : evalAll w.toWalker sys () e cmd.preds s with
  | mk value s' =>
  rw [he] at hvalue hstack
  cases value with
  | false =>
    rw [← hvalue]
    exact ⟨rfl, rfl, hstack⟩
  | true =>
    have hact := actOnEntry_spec sys e cmd.actions
      { r with visited := r.visited ++ [e], matched := r.matched ++ [pathString e.path] }
    rw [← hvalue]
    exact ⟨hact.1, hact.2, hstack⟩

/-- The loop walks from the open listings of its walker. -/
theorem walks_walkFrom (cmd : Command (Pred P)) {n : ℕ} {s : w.State} (hn : w.left s < n)
    (r : Session Unit) : ∃ fs, Walks (w.options s) sys cmd (w.stack s) fs ∧
      (walkFrom w.toWalker sys cmd n s r).1.visited = r.visited ++ fs.map Found.entry := by
  induction n generalizing s r with
  | zero => omega
  | succ n ih =>
    rw [walkFrom]
    cases hnext : w.next s r.fs with
    | none => exact ⟨[], .done (w.next_none hnext), (List.append_nil _).symm⟩
    | some found =>
    obtain ⟨entry, s'⟩ := found
    obtain ⟨hoptions, f, rfl, hstep⟩ := w.next_some hnext
    have hleft := w.left_next hnext
    obtain ⟨hvisited, hmore, ho, hstack⟩ := visit_spec w sys cmd f.entry r s'
    have hvisit := left_visit w.toWalker sys cmd f.entry r s'
    dsimp only
    cases hv : visit w.toWalker sys cmd f.entry r s' with
    | mk r' rest =>
    obtain ⟨s'', more⟩ := rest
    rw [hv] at hvisited hmore ho hstack hvisit
    dsimp only at hvisited hmore ho hstack hvisit
    cases hquits : quits sys cmd f.entry with
    | true =>
      rw [hquits] at hmore
      subst hmore
      exact ⟨[f], .last hstep hquits, hvisited⟩
    | false =>
      rw [hquits] at hmore
      subst hmore
      obtain ⟨fs, hwalks, hall⟩ := ih (s := s'') (by omega) r'
      rw [hstack, ho, hoptions] at hwalks
      refine ⟨f :: fs, .more hstep hquits hwalks, hall.trans ?_⟩
      rw [hvisited, List.append_assoc]
      rfl

/-- What a walk from a starting path ought to visit. -/
def due (cmd : Command (Pred P)) (start : List Char) : List Found :=
  untilStop (quits sys cmd)
    (expected (w.options (w.start { minDepth := cmd.minDepth, maxDepth := cmd.maxDepth } start))
      (pruned sys cmd) (trees start).listing [])

/-- **The entries that ought to be visited are visited, and no others, exactly when none of them is
in a listing that a surplus evaluation of `-prune` drops.** -/
theorem visits_exactly_iff (cmd : Command (Pred P)) (start : List Char) (r : Session Unit) :
    (walkStart w.toWalker sys cmd start r).1.visited =
        r.visited ++ (due w sys cmd start).map Found.entry ↔
      (due w sys cmd start).Pairwise fun f g => ¬ Dropped sys cmd.preds f g := by
  rw [walkStart, due]
  generalize hs : w.start { minDepth := cmd.minDepth, maxDepth := cmd.maxDepth } start = s
  obtain ⟨fs, hwalks, hvisited⟩ := walks_walkFrom w sys cmd (Nat.lt_succ_self (w.left s)) r
  have hstack : w.stack s = [⟨(trees start).listing, []⟩] := hs ▸ w.stack_start _ _
  have htidy : Tidy (w.options s) (pruned sys cmd) (w.stack s) := by
    rw [hstack]
    refine ⟨fun f hf => ?_, .singleton _⟩
    rw [List.mem_singleton.mp hf]
    exact ⟨rfl, (trees start).distinct, trivial, fun _ hg => by cases hg⟩
  have hdue : expectedOf (w.options s) (pruned sys cmd) (w.stack s) =
      expected (w.options s) (pruned sys cmd) (trees start).listing [] := by
    rw [hstack]
    exact List.append_nil _
  have hiff := walks_eq_iff hwalks htidy
  rw [hdue] at hiff
  rw [hvisited, List.append_cancel_left_eq, ← hiff]
  refine ⟨fun h => ?_, fun h => by rw [h]⟩
  refine eq_of_map_entry (fun f hf => (mem_of_walks hwalks htidy hf).2) (fun f hf => ?_) h
  have hmem := mem_of_mem_untilStop hf
  exact coherent_of_mem_found (mem_found_of_mem_expected hmem) trivial fun _ hg => by cases hg

end Loop

/-! ### A file is pruned -/

def twoFiles : FileTree where
  listing := .dir [0x64] (.file [0x61] (.file [0x62] .nil)) .nil
  distinct := by simp [Listing.Distinct, Listing.names]

def typeFile : System Unit Unit where
  eval _ _ e := !e.isDir
  remove _ _ := none
  spawn _ _ := (true, ())

/-- `find d -type f -prune` does not come to the second file. -/
theorem prune_on_file_skips :
    let cmd : Command (Pred Unit) :=
      { paths := ["d".toList], preds := [(false, .other ()), (false, .prune)], actions := [.print] }
    let w := stackWalker fun _ => twoFiles
    (walkStart w.toWalker typeFile cmd "d".toList { fs := () }).1.visited =
        [⟨[[0x64]], true⟩, ⟨[[0x64], [0x61]], false⟩] ∧
      (walkStart w.toWalker typeFile cmd "d".toList { fs := () }).1.visited ≠
        (due w typeFile cmd "d".toList).map Found.entry := by
  decide +kernel

end Rustybox.Modern.Find
