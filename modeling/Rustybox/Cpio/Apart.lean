import Rustybox.Cpio.Members

/-!
# Hard links of a cpio archive

A member without data is linked to the last one with its inode that has data, and where there is
none to the last one without (`targetOf`).  The device is not looked at, so that files of two
devices can be linked to each other (`extract_twoDevices`); `extract_apart_iff` says when they are
kept apart.
-/

namespace Rustybox.Cpio

open Rustybox.Rust Disks Guarded

/-! ### The members that were put off -/

/-- The first of some members with an inode. -/
def findInode (cs : List Entry) (inode : ℤ) : Option Entry :=
  cs.find? fun e => e.numbers.inode = inode

theorem findInode_append (cs : List Entry) (p : Entry) (inode : ℤ) :
    findInode (cs ++ [p]) inode =
      (findInode cs inode).or (if p.numbers.inode = inode then some p else none) := by
  rw [findInode, List.find?_append, List.find?_singleton]
  simp only [decide_eq_true_eq]
  rfl

/-- Files are made or found for the members of `cs`. -/
structure Linking (es cs : List Entry) (h : Handle) : Prop where
  found : ∀ inode, h.createdHardlinks.find? (fun cur => cur.inode = inode) =
    (findInode cs inode).map Entry.hardlink
  separate : h.disk.Separate
  holds : ∀ e ∈ es, e.IsReg → ¬ e.Postponed → h.disk.Holds e.name e.data
  made : ∀ p ∈ cs, p.Postponed → ∃ t, findInode cs p.numbers.inode = some t ∧
    (t = p ∧ h.disk.Holds p.name p.data ∨
      t ≠ p ∧ ⟨true, p.name, t.name⟩ ∈ h.linkPlaceholders)

theorem Linking.found_append {cs : List Entry} {created : List Hardlink}
    (hfound : ∀ inode, created.find? (fun cur => cur.inode = inode) =
      (findInode cs inode).map Entry.hardlink) {p t : Entry}
    (ht : findInode cs p.numbers.inode = some t) (inode : ℤ) :
    created.find? (fun cur => cur.inode = inode) =
      (findInode (cs ++ [p]) inode).map Entry.hardlink := by
  rw [hfound, findInode_append]
  by_cases hp : p.numbers.inode = inode
  · rw [← hp, ht]
    rfl
  · rw [if_neg hp, Option.or_none]

theorem Linking.found_cons {cs : List Entry} {created : List Hardlink}
    (hfound : ∀ inode, created.find? (fun cur => cur.inode = inode) =
      (findInode cs inode).map Entry.hardlink) {p : Entry}
    (hp : findInode cs p.numbers.inode = none) (inode : ℤ) :
    (p.hardlink :: created).find? (fun cur => cur.inode = inode) =
      (findInode (cs ++ [p]) inode).map Entry.hardlink := by
  rw [findInode_append, List.find?_cons]
  by_cases hinode : p.numbers.inode = inode
  · have hpos : decide (p.hardlink.inode = p.numbers.inode) = true := decide_eq_true rfl
    rw [← hinode, hp, if_pos rfl, hpos]
    rfl
  · have hneg : decide (p.hardlink.inode = inode) = false := decide_eq_false hinode
    rw [if_neg hinode, Option.or_none, hneg]
    exact hfound inode

theorem findInode_some_append {cs : List Entry} {p t : Entry} {inode : ℤ}
    (h : findInode cs inode = some t) : findInode (cs ++ [p]) inode = some t := by
  rw [findInode_append, h, Option.some_or]

theorem Linking.step_link {es cs : List Entry} {p t : Entry} {h : Handle} (hl : Linking es cs h)
    (ht : findInode cs p.numbers.inode = some t) (hne : t.name ≠ p.name) :
    Linking es (cs ++ [p]) { h with
      linkPlaceholders := h.linkPlaceholders ++ [⟨true, p.name, t.name⟩] } := by
  refine ⟨Linking.found_append hl.found ht, hl.separate, hl.holds, ?_⟩
  refine forall_mem_append (fun q hq hpost => ?_) fun _ => ?_
  · obtain ⟨u, hu, hcases⟩ := hl.made q hq hpost
    refine ⟨u, findInode_some_append hu, hcases.imp_right ?_⟩
    exact fun h => ⟨h.1, List.mem_append_left _ h.2⟩
  · refine ⟨t, findInode_some_append ht, Or.inr ⟨?_, ?_⟩⟩
    · rintro rfl
      exact hne rfl
    · exact List.mem_append_right _ (List.mem_singleton.mpr rfl)

/-- A member that is put off and made as a file, as there is none with its inode. -/
theorem Linking.step_make {es cs : List Entry} {p : Entry} {h : Handle} (hl : Linking es cs h)
    (ht : findInode cs p.numbers.inode = none) (hfree : h.disk.node p.name = none)
    (rest : Str) : Linking es (cs ++ [p]) { h with
      createdHardlinks := p.hardlink :: h.createdHardlinks
      rest := rest
      disk := h.disk.create p.name p.data } := by
  refine ⟨Linking.found_cons hl.found ht, hl.separate.create, ?_, ?_⟩
  · exact fun e he hreg hpost => (hl.holds e he hreg hpost).create hl.separate hfree
  · refine forall_mem_append (fun q hq hpost => ?_) fun _ => ?_
    · obtain ⟨u, hu, hcases⟩ := hl.made q hq hpost
      refine ⟨u, findInode_some_append hu, hcases.imp_left ?_⟩
      exact fun h => ⟨h.1, h.2.create hl.separate hfree⟩
    · refine ⟨p, ?_, Or.inl ⟨rfl, Disk.holds_create⟩⟩
      rw [findInode_append, ht, if_pos rfl, Option.none_or]

section

variable {pipe unconditional : Bool} {stMtime : Disk → Str → ℤ}

theorem makeLinks_cons {es cs : List Entry} {p : Entry} {h h' : Handle} (hl : Linking es cs h)
    (hpost : p.Postponed) (hdata : p.data = []) (hfree : h.disk.node p.name = none)
    (hnames : ∀ t ∈ cs, t.name ≠ p.name) {rest : List Hardlink}
    (hrun : makeLinks pipe unconditional stMtime (p.hardlink :: rest) h = .ok h') :
    ∃ h₁, Linking es (cs ++ [p]) h₁ ∧ makeLinks pipe unconditional stMtime rest h₁ = .ok h' ∧
      ∀ n, n ≠ p.name → h₁.disk.node n = h.disk.node n := by
  have hreg : isReg (p.numbers.mode % 2 ^ 32).toNat = true := hpost.1.2
  have hfind := hl.found p.numbers.inode
  rw [makeLinks] at hrun
  dsimp only at hrun
  cases ht : findInode cs p.numbers.inode with
  | some t =>
    have hne : t.name ≠ p.name := hnames t (List.mem_of_find?_eq_some ht)
    rw [ht] at hfind
    change h.createdHardlinks.find? (fun cur => cur.inode = p.hardlink.inode) = _ at hfind
    rw [hfind] at hrun
    obtain ⟨h₁, hextract, hrun⟩ := exists_of_bind_eq_ok hrun
    rw [dataExtractAll_hard hreg rfl rfl hfree hne] at hextract
    cases hextract
    exact ⟨_, hl.step_link ht hne, hrun, fun _ _ => rfl⟩
  | none =>
    rw [ht] at hfind
    change h.createdHardlinks.find? (fun cur => cur.inode = p.hardlink.inode) = _ at hfind
    rw [hfind] at hrun
    obtain ⟨h₁, hextract, hrun⟩ := exists_of_bind_eq_ok hrun
    obtain ⟨-, rfl⟩ := dataExtractAll_regular hreg rfl hfree hextract
    have hmake := hl.step_make ht hfree h.rest
    rw [hdata] at hmake
    exact ⟨_, hmake, hrun, fun n hn => Disk.node_create_of_ne hn⟩

theorem makeLinks_linking {es cs ps : List Entry} {h h' : Handle} (hl : Linking es cs h)
    (hpost : ∀ p ∈ ps, p.Postponed ∧ p.data = [])
    (hfree : ∀ p ∈ ps, h.disk.node p.name = none)
    (hnames : (cs ++ ps).Pairwise fun a b => a.name ≠ b.name)
    (hrun : makeLinks pipe unconditional stMtime (ps.map Entry.hardlink) h = .ok h') :
    ∃ h₁, Linking es (cs ++ ps) h₁ ∧ h'.disk = h₁.disk ∧
      h'.linkPlaceholders = h₁.linkPlaceholders := by
  induction ps generalizing cs h with
  | nil =>
    cases hrun
    rw [List.append_nil]
    exact ⟨h, hl, rfl, rfl⟩
  | cons p ps ih =>
    obtain ⟨hp, hps⟩ := List.forall_mem_cons.mp hpost
    obtain ⟨hpfree, hpsfree⟩ := List.forall_mem_cons.mp hfree
    obtain ⟨-, hpairs, hcross⟩ := List.pairwise_append.mp hnames
    have hcs : ∀ t ∈ cs, t.name ≠ p.name := fun t ht => hcross t ht p List.mem_cons_self
    obtain ⟨h₁, hl₁, hrun₁, hsame⟩ := makeLinks_cons hl hp.1 hp.2 hpfree hcs hrun
    have hfree₁ : ∀ q ∈ ps, h₁.disk.node q.name = none := by
      intro q hq
      rw [hsame q.name ((List.pairwise_cons.mp hpairs).1 q hq).symm, hpsfree q hq]
    have happend : cs ++ p :: ps = cs ++ [p] ++ ps := by simp
    rw [happend] at hnames ⊢
    exact ih hl₁ hps hfree₁ hnames hrun₁

end

/-! ### The links -/

theorem createLink_cases {l : Placeholder} {d d' : Disk} (h : createLink l d = some d') :
    ∃ x, d' = d.bind l.linkname x ∧ d.node l.linkname = none ∧
      (l.hard = true → d.node l.target = some x) := by
  rw [createLink] at h
  split at h
  · cases h
  · rename_i hfree
    have hnone : d.node l.linkname = none := Option.not_isSome_iff_eq_none.mp hfree
    split at h
    · split at h
      · cases h
      · cases h
      · rename_i x _ hx
        exact ⟨x, (Option.some.inj h).symm, hnone, fun _ => hx⟩
    · rename_i hsoft
      exact ⟨_, (Option.some.inj h).symm, hnone, fun hhard => absurd hhard hsoft⟩

/-- No name is taken away, and in the end a hard link is what its target is. -/
theorem createLinksFromList_run {ls : List Placeholder} {d d' : Disk}
    (h : createLinksFromList ls d = .ok d') :
    d'.data = d.data ∧ (∀ n x, d.node n = some x → d'.node n = some x) ∧
      ∀ l ∈ ls, l.hard = true → ∃ x, d'.node l.linkname = some x ∧ d'.node l.target = some x := by
  induction ls generalizing d with
  | nil =>
    cases h
    exact ⟨rfl, fun _ _ h => h, fun l hl => absurd hl List.not_mem_nil⟩
  | cons l ls ih =>
    rw [createLinksFromList] at h
    cases hone : createLink l d with
    | none =>
      rw [hone] at h
      cases h
    | some d₁ =>
      rw [hone] at h
      obtain ⟨hdata, hkeep, hlinks⟩ := ih h
      obtain ⟨x, rfl, hfree, htarget⟩ := createLink_cases hone
      have hold : ∀ n y, d.node n = some y → (d.bind l.linkname x).node n = some y := by
        intro n y hn
        have hne : n ≠ l.linkname := by
          rintro rfl
          rw [hfree] at hn
          cases hn
        rw [Disk.node_bind_of_ne hne, hn]
      refine ⟨hdata, fun n y hn => hkeep n y (hold n y hn), ?_⟩
      intro l' hl' hhard
      rcases List.mem_cons.mp hl' with rfl | hl'
      · exact ⟨x, hkeep _ _ Disk.node_bind_self, hkeep _ _ (hold _ _ (htarget hhard))⟩
      · exact hlinks l' hl' hhard

/-! ### What is linked in the end -/

/-- The files that a member that is put off can be linked to, in the order of the search. -/
def linkable (es : List Entry) : List Entry :=
  (es.filter (·.Carries)).reverse ++ (es.filter (·.Postponed)).reverse

/-- What a member that is put off is linked to: the last member with data and the same inode, or
else the last one without. -/
def targetOf (es : List Entry) (p : Entry) : Option Entry := findInode (linkable es) p.numbers.inode

theorem mem_linkable {es : List Entry} {e : Entry} :
    e ∈ linkable es ↔ e ∈ es ∧ (e.Carries ∨ e.Postponed) := by
  rw [linkable, List.mem_append, List.mem_reverse, List.mem_reverse, List.mem_filter,
    List.mem_filter, decide_eq_true_iff, decide_eq_true_iff, ← and_or_left]

theorem findInode_inode {cs : List Entry} {inode : ℤ} {t : Entry}
    (h : findInode cs inode = some t) : t.numbers.inode = inode := by
  have hfound := List.find?_some h
  exact of_decide_eq_true hfound

/-- The member whose file a member gets. -/
def root (es : List Entry) (e : Entry) : Entry :=
  if e.Postponed then (targetOf es e).getD e else e

theorem root_target {es : List Entry} {p t : Entry} (ht : targetOf es p = some t) :
    root es t = t := by
  rw [root]
  split
  · have hinode : t.numbers.inode = p.numbers.inode := findInode_inode ht
    rw [targetOf, hinode]
    rw [targetOf] at ht
    rw [ht]
    rfl
  · rfl

theorem Distinct.eq {es : List Entry} (h : Distinct es) {a b : Entry} (ha : a ∈ es) (hb : b ∈ es)
    (hreg : a.IsReg) (hname : a.name = b.name) : a = b := by
  have hsymm : Std.Symm fun a b : Entry => a.IsReg ∨ b.IsReg → a.name ≠ b.name :=
    ⟨fun _ _ hab hreg => (hab hreg.symm).symm⟩
  by_contra hne
  exact h.forall ha hb hne (Or.inl hreg) hname

theorem Entry.Carries.not_postponed {e : Entry} (h : e.Carries) : ¬ e.Postponed :=
  fun hp => h.2 hp.2

theorem Distinct.linkable {es : List Entry} (h : Distinct es) :
    (linkable es).Pairwise fun a b => a.name ≠ b.name := by
  have hlist : ∀ (p : Entry → Prop) [DecidablePred p], (∀ e, p e → e.IsReg) →
      (es.filter (p ·)).reverse.Pairwise fun a b => a.name ≠ b.name := by
    intro p _ hp
    rw [List.pairwise_reverse, List.pairwise_filter]
    refine h.imp fun {a b} hab ha _ => ?_
    exact (hab (Or.inl (hp a (of_decide_eq_true ha)))).symm
  refine List.pairwise_append.mpr ⟨hlist _ fun e he => he.1.2, hlist _ fun e he => he.1.2, ?_⟩
  intro a ha b hb hname
  obtain ⟨ha, hcarries⟩ := List.mem_filter.mp (List.mem_reverse.mp ha)
  obtain ⟨hb, hpost⟩ := List.mem_filter.mp (List.mem_reverse.mp hb)
  have hcarries' : a.Carries := of_decide_eq_true hcarries
  obtain rfl := h.eq ha hb hcarries'.1.2 hname
  exact hcarries'.not_postponed (of_decide_eq_true hpost)

theorem Gathered.linking {es : List Entry} {h : Handle} (hg : Gathered es h) :
    Linking es (es.filter (·.Carries)).reverse h := by
  refine ⟨fun inode => ?_, hg.separate, hg.holds, fun p hp hpost => ?_⟩
  · rw [hg.created, List.find?_map]
    rfl
  · obtain ⟨-, hcarries⟩ := List.mem_filter.mp (List.mem_reverse.mp hp)
    have hcarries' : p.Carries := of_decide_eq_true hcarries
    exact absurd hpost hcarries'.not_postponed

/-- A member that is put off has a target, which gets a file of its own. -/
theorem Linking.target {es : List Entry} {h : Handle} (hl : Linking es (linkable es) h)
    {p : Entry} (hp : p ∈ es) (hpost : p.Postponed) : ∃ t ∈ linkable es,
      targetOf es p = some t ∧ h.disk.Holds t.name t.data ∧
        (t = p ∨ ⟨true, p.name, t.name⟩ ∈ h.linkPlaceholders) := by
  obtain ⟨t, ht, hcases⟩ := hl.made p (mem_linkable.mpr ⟨hp, Or.inr hpost⟩) hpost
  have hmem : t ∈ linkable es := List.mem_of_find?_eq_some ht
  refine ⟨t, hmem, ht, ?_, hcases.imp And.left And.right⟩
  rcases (mem_linkable.mp hmem).2 with hcarries | htpost
  · exact hl.holds t (mem_linkable.mp hmem).1 hcarries.1.2 hcarries.not_postponed
  · obtain ⟨u, hu, hcases'⟩ := hl.made t hmem htpost
    rw [findInode_inode ht, ht] at hu
    obtain rfl := Option.some.inj hu
    rcases hcases' with ⟨-, hholds⟩ | ⟨hne, -⟩
    · exact hholds
    · exact absurd rfl hne

section

variable {pipe unconditional : Bool} {stMtime : Disk → Str → ℤ} {sscanf : Str → Option Numbers}
  {archive : Str} {es : List Entry} {disk : Disk}

/-- In the end a regular file is the one of its root, and different roots have different files. -/
theorem extract_root (hrun : extract pipe unconditional stMtime sscanf archive = .ok (es, disk))
    (hnames : Distinct es) : ∃ d : Disk, d.Separate ∧ ∀ e ∈ es, e.IsReg →
      root es e ∈ es ∧ ∃ i, d.node (root es e).name = some (.file i) ∧
        disk.node e.name = some (.file i) ∧ disk.data i = (root es e).data := by
  obtain ⟨⟨es', h'⟩, hmembers, hrun⟩ := exists_of_bind_eq_ok hrun
  obtain ⟨disk', hlinks, hrun⟩ := exists_of_bind_eq_ok hrun
  cases hrun
  have hstart : Gathered [] ⟨0, archive, [], [], [], Disk.empty⟩ := by
    refine ⟨rfl, rfl, .empty, ?_, nofun, nofun, ?_⟩ <;> exact fun e he => absurd he List.not_mem_nil
  obtain ⟨h₁, hg, hmake⟩ := members_gathered hstart hmembers hnames
  rw [List.nil_append] at hg
  rw [hg.toCreate] at hmake
  have hpost : ∀ p ∈ (es.filter (·.Postponed)).reverse, p ∈ es ∧ p.Postponed := by
    intro p hp
    obtain ⟨hmem, hp⟩ := List.mem_filter.mp (List.mem_reverse.mp hp)
    exact ⟨hmem, of_decide_eq_true hp⟩
  have hempty : ∀ p ∈ (es.filter (·.Postponed)).reverse, p.Postponed ∧ p.data = [] :=
    fun p hp => ⟨(hpost p hp).2, hg.empty p (hpost p hp).1 (hpost p hp).2⟩
  have hfree : ∀ p ∈ (es.filter (·.Postponed)).reverse, h₁.disk.node p.name = none := by
    intro p hp
    refine Option.eq_none_iff_forall_ne_some.mpr fun x hx => ?_
    obtain ⟨a, ha, hapost, hname⟩ := hg.bound hx
    obtain rfl := hnames.eq (hpost p hp).1 ha (hpost p hp).2.1.2 hname.symm
    exact hapost (hpost p hp).2
  obtain ⟨h₂, hl, hdisk, hplaces⟩ :=
    makeLinks_linking hg.linking hempty hfree hnames.linkable hmake
  rw [hdisk, hplaces] at hlinks
  obtain ⟨hdata, hkeep, hhard⟩ := createLinksFromList_run hlinks
  refine ⟨h₂.disk, hl.separate, fun e he hreg => ?_⟩
  by_cases hepost : e.Postponed
  · obtain ⟨t, ht, htarget, ⟨i, hnode, hcontents⟩, hcases⟩ := hl.target he hepost
    have hroot : root es e = t := by
      rw [root, if_pos hepost, htarget]
      rfl
    rw [hroot]
    refine ⟨(mem_linkable.mp ht).1, i, hnode, ?_, by rw [hdata, hcontents]⟩
    rcases hcases with rfl | hplace
    · exact hkeep _ _ hnode
    · obtain ⟨x, hx, hx'⟩ := hhard _ hplace rfl
      have htnode := hkeep _ _ hnode
      dsimp only at hx hx'
      rw [htnode] at hx'
      rw [hx, hx']
  · rw [root, if_neg hepost]
    obtain ⟨i, hnode, hcontents⟩ := hl.holds e he hreg hepost
    exact ⟨he, i, hnode, hkeep _ _ hnode, by rw [hdata, hcontents]⟩

end

/-! ### Hard links -/

/-- The members are names of one file: they have links, and agree in device and inode. -/
structure Entry.SameSet (a b : Entry) : Prop where
  left : a.HasLinks
  right : b.HasLinks
  dev : a.dev = b.dev
  inode : a.numbers.inode = b.numbers.inode

theorem Entry.SameSet.symm {a b : Entry} (h : a.SameSet b) : b.SameSet a :=
  ⟨h.right, h.left, h.dev.symm, h.inode.symm⟩

theorem Entry.SameSet.trans {a b c : Entry} (h : a.SameSet b) (h' : b.SameSet c) : a.SameSet c :=
  ⟨h.left, h'.right, h.dev.trans h'.dev, h.inode.trans h'.inode⟩

/-- Files are kept apart: only names of one file are linked, a file has the data of its member, and
a member without data has those of a member of the same file.  Where no member of its file has data,
nothing is said of what it holds.  Names are what the archive writes: `a` and `./a` are two. -/
structure Apart (es : List Entry) (disk : Disk) : Prop where
  linked : ∀ a ∈ es, ∀ b ∈ es, a.IsReg → b.IsReg → a.name ≠ b.name →
    disk.Linked a.name b.name → a.SameSet b
  data : ∀ e ∈ es, e.IsReg → ¬ e.Postponed → disk.Holds e.name e.data
  set : ∀ p ∈ es, p.Postponed → ∀ e ∈ es, e.Carries → p.SameSet e →
    ∃ t ∈ es, t.Carries ∧ p.SameSet t ∧ disk.Holds p.name t.data

/-- A member that is put off is on the device of what it is linked to. -/
def Agrees (es : List Entry) : Prop :=
  ∀ p ∈ es, p.Postponed → ∀ t, targetOf es p = some t → p.dev = t.dev

theorem Agrees.sameSet {es : List Entry} (h : Agrees es) {p t : Entry} (hp : p ∈ es)
    (hpost : p.Postponed) (ht : targetOf es p = some t) : p.SameSet t := by
  have hmem := (mem_linkable.mp (List.mem_of_find?_eq_some ht)).2
  refine ⟨hpost.1, ?_, h p hp hpost t ht, (findInode_inode ht).symm⟩
  rcases hmem with hcarries | htpost
  · exact hcarries.1
  · exact htpost.1

/-- A member is its own root or one of the same file. -/
theorem Agrees.root {es : List Entry} (h : Agrees es) {e : Entry} (he : e ∈ es) :
    root es e = e ∨ e.SameSet (root es e) := by
  rw [Cpio.root]
  by_cases hpost : e.Postponed
  · rw [if_pos hpost]
    cases ht : targetOf es e with
    | none => exact Or.inl rfl
    | some t => exact Or.inr (h.sameSet he hpost ht)
  · rw [if_neg hpost]
    exact Or.inl rfl

theorem exists_targetOf {es : List Entry} {p : Entry} (hp : p ∈ es) (hpost : p.Postponed) :
    ∃ t, targetOf es p = some t := by
  refine Option.isSome_iff_exists.mp (List.find?_isSome.mpr ⟨p, ?_, decide_eq_true rfl⟩)
  exact mem_linkable.mpr ⟨hp, Or.inr hpost⟩

/-- Where a member of the set has data the target has. -/
theorem targetOf_carries {es : List Entry} {p e t : Entry} (he : e ∈ es) (hcarries : e.Carries)
    (hinode : p.numbers.inode = e.numbers.inode) (ht : targetOf es p = some t) : t.Carries := by
  rw [targetOf, linkable, findInode, List.find?_append] at ht
  cases hfind : (es.filter (·.Carries)).reverse.find?
      fun e => e.numbers.inode = p.numbers.inode with
  | none =>
    have hmem : e ∈ (es.filter (·.Carries)).reverse :=
      List.mem_reverse.mpr (List.mem_filter.mpr ⟨he, decide_eq_true hcarries⟩)
    have hnot := List.find?_eq_none.mp hfind e hmem
    exact absurd (decide_eq_true hinode.symm) hnot
  | some u =>
    rw [hfind, Option.some_or] at ht
    obtain rfl := Option.some.inj ht
    have hmem := List.mem_filter.mp (List.mem_reverse.mp (List.mem_of_find?_eq_some hfind))
    exact of_decide_eq_true hmem.2

section

variable {pipe unconditional : Bool} {stMtime : Disk → Str → ℤ} {sscanf : Str → Option Numbers}
  {archive : Str} {es : List Entry} {disk : Disk}

/-- An archive whose regular files have names of their own is extracted as it should be if and only
if every member that is put off is on the device of what it is linked to. -/
theorem extract_apart_iff
    (hrun : extract pipe unconditional stMtime sscanf archive = .ok (es, disk))
    (hnames : Distinct es) : Apart es disk ↔ Agrees es := by
  obtain ⟨d, hsep, hroots⟩ := extract_root hrun hnames
  constructor
  · intro hapart p hp hpost t ht
    obtain ⟨htes, hcases⟩ := mem_linkable.mp (List.mem_of_find?_eq_some ht)
    have htreg : t.IsReg := hcases.elim (fun h => h.1.2) fun h => h.1.2
    by_cases hname : p.name = t.name
    · obtain rfl := hnames.eq hp htes hpost.1.2 hname
      rfl
    · have hroot : root es p = t := by
        rw [root, if_pos hpost, ht]
        rfl
      obtain ⟨-, i, hi, hpnode, -⟩ := hroots p hp hpost.1.2
      obtain ⟨-, j, hj, htnode, -⟩ := hroots t htes htreg
      rw [hroot] at hi
      rw [root_target ht, hi] at hj
      rw [← Option.some.inj hj] at htnode
      exact (hapart.linked p hp t htes hpost.1.2 htreg hname ⟨i, hpnode, htnode⟩).dev
  · intro hagrees
    refine ⟨?_, ?_, ?_⟩
    · rintro a ha b hb hareg hbreg hname ⟨k, hka, hkb⟩
      obtain ⟨hra, i, hi, hanode, -⟩ := hroots a ha hareg
      obtain ⟨hrb, j, hj, hbnode, -⟩ := hroots b hb hbreg
      rw [hanode] at hka
      rw [hbnode] at hkb
      rw [← hkb] at hka
      rw [← Option.some.inj hka] at hj
      have hregroot : ∀ {e}, e ∈ es → e.IsReg → (root es e).IsReg := by
        intro e he hreg
        rcases hagrees.root he with hself | hset
        · rw [hself]
          exact hreg
        · exact hset.right.2
      have hroot : root es a = root es b :=
        hnames.eq hra hrb (hregroot ha hareg) (hsep.eq hi hj)
      rcases hagrees.root ha with haself | haset <;> rcases hagrees.root hb with hbself | hbset
      · rw [haself, hbself] at hroot
        exact absurd (congrArg (fun e : Entry => e.name) hroot) hname
      · rw [← hroot, haself] at hbset
        exact hbset.symm
      · rw [hroot, hbself] at haset
        exact haset
      · rw [hroot] at haset
        exact haset.trans hbset.symm
    · intro e he hreg hpost
      obtain ⟨-, i, -, hnode, hdata⟩ := hroots e he hreg
      rw [root, if_neg hpost] at hdata
      exact ⟨i, hnode, hdata⟩
    · intro p hp hpost e he hcarries hset
      obtain ⟨t, ht⟩ := exists_targetOf hp hpost
      have hroot : root es p = t := by
        rw [root, if_pos hpost, ht]
        rfl
      obtain ⟨htes, i, -, hnode, hdata⟩ := hroots p hp hpost.1.2
      rw [hroot] at htes hdata
      exact ⟨t, htes, targetOf_carries he hcarries hset.inode ht, hagrees.sameSet hp hpost ht, i,
        hnode, hdata⟩

end

/-- `sscanf` for a header of digits. -/
def scanDigits (s : Str) : Option Numbers :=
  let field (k : ℕ) : ℕ := hexNumber ((s.drop (8 * k)).take 8)
  let int (k : ℕ) : ℤ := (field k : ℤ).bmod (2 ^ 32)
  some ⟨int 0, int 1, int 4, field 5, field 6, int 9, int 10, int 11⟩

/-- A regular file with two names, its device's minor number and its size given, and the inode 5. -/
def fileOf (minor size : String) (name data : Str) : Str :=
  bytes "070701" ++ bytes "00000005" ++ bytes "000081A4" ++ bytes "00000000" ++
    bytes "00000000" ++ bytes "00000002" ++ bytes "00000000" ++ bytes size ++ bytes "00000008" ++
    bytes minor ++ bytes "00000000" ++ bytes "00000000" ++ bytes "00000002" ++ bytes "00000000" ++
    name ++ [0] ++ data

def theEnd : Str :=
  bytes "070701" ++ (List.replicate 11 (bytes "00000000")).flatten ++ bytes "0000000B" ++
    bytes "00000000" ++ trailer ++ [0, 0, 0, 0]

/-- Two files on one device, and one on another with the same inode. -/
def twoDevices : Str :=
  fileOf "00000001" "00000004" (bytes "a") (bytes "data") ++
    fileOf "00000002" "00000000" (bytes "b") [] ++ theEnd

/-- The first two of some members are regular files of different devices, and are linked. -/
def crossed (r : List Entry × Disk) : Bool :=
  match r.1 with
  | [a, b] => a.IsReg ∧ b.IsReg ∧ a.name ≠ b.name ∧ a.dev ≠ b.dev ∧
    r.2.node a.name = some (.file 0) ∧ r.2.node b.name = some (.file 0)
  | _ => false

theorem not_apart_of_crossed {es : List Entry} {disk : Disk} (h : crossed (es, disk) = true) :
    ¬ Apart es disk := by
  intro hapart
  match es, h with
  | [a, b], h =>
    obtain ⟨ha, hb, hname, hdev, hanode, hbnode⟩ := of_decide_eq_true h
    have hset := hapart.linked a (by simp) b (by simp) ha hb hname ⟨0, hanode, hbnode⟩
    exact hdev hset.dev

theorem exists_of_toOption_any {α : Type} {x : Except Stop α} {p : α → Bool}
    (h : x.toOption.any p = true) : ∃ a, x = .ok a ∧ p a = true := by
  cases x with
  | error e => cases h
  | ok a => exact ⟨a, rfl, h⟩

/-- The name "b" is made a hard link of "a". -/
theorem extract_twoDevices : ∃ es disk,
    extract false false (fun _ _ => 0) scanDigits twoDevices = .ok (es, disk) ∧ Distinct es ∧
      ¬ Apart es disk := by
  have hrun : (extract false false (fun _ _ => 0) scanDigits twoDevices).toOption.any
      (fun r => Distinct r.1 && crossed r) = true := by decide +kernel
  obtain ⟨⟨es, disk⟩, hok, hcheck⟩ := exists_of_toOption_any hrun
  obtain ⟨hnames, hcrossed⟩ := Bool.and_eq_true_iff.mp hcheck
  exact ⟨es, disk, hok, of_decide_eq_true hnames, not_apart_of_crossed hcrossed⟩

theorem extract_apart_twoDevices : ∃ es disk,
    extract false false (fun _ _ => 0) scanDigits twoDevices = .ok (es, disk) ∧ Distinct es ∧
      (Apart es disk ↔ Agrees es) := by
  have hrun : (extract false false (fun _ _ => 0) scanDigits twoDevices).toOption.any
      (fun r => Distinct r.1) = true := by decide +kernel
  obtain ⟨⟨es, disk⟩, hok, hnames⟩ := exists_of_toOption_any hrun
  exact ⟨es, disk, hok, of_decide_eq_true hnames, extract_apart_iff hok (of_decide_eq_true hnames)⟩

end Rustybox.Cpio
