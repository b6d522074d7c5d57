import Rustybox.Cpio.Extract
import Rustybox.Lib.Guarded
import Mathlib.Data.List.Pairwise

/-!
# The members of a cpio archive

What one member does to the lists of hard links and to the disk (`Extracted`), and all of them
(`members_gathered`).  Every run ends (`extract_ends`).
-/

namespace Rustybox.Cpio

open Rustybox.Rust Disks Guarded

/-! ### Members -/

/-- A member of more than one name, with data. -/
def Entry.Carries (e : Entry) : Prop := e.HasLinks ∧ e.numbers.size ≠ 0

instance (e : Entry) : Decidable e.Carries := inferInstanceAs (Decidable (_ ∧ _))

/-! ### data_extract_all -/

section

variable {pipe unconditional : Bool} {stMtime : Disk → Str → ℤ} {header : FileHeader}
  {h h' : Handle} {sscanf : Str → Option Numbers}

theorem makeRoom_free (unconditional : Bool) (stMtime : Disk → Str → ℤ)
    (hfree : h.disk.node header.name = none)
    (hlink : header.hardLink ≠ some header.name) :
    makeRoom unconditional stMtime header h = .ok (some h) := by
  have hnone : (h.disk.node header.name).isNone = true := by
    rw [hfree]
    rfl
  rw [makeRoom, if_pos hnone, if_neg hlink, unlinkOld, hfree]
  cases unconditional <;> cases isDir header.mode <;> rfl

theorem dataExtractAll_regular (hreg : isReg header.mode) (hlink : header.linkTarget = none)
    (hfree : h.disk.node header.name = none)
    (hrun : dataExtractAll pipe unconditional stMtime header h = .ok h') :
    header.size ≤ h.rest.length ∧ h' = { h with
      disk := h.disk.create header.name (h.rest.take header.size)
      rest := h.rest.drop header.size } := by
  have hhard : header.hardLink = none := by
    rw [FileHeader.hardLink, hlink]
    split <;> rfl
  have hroom := makeRoom_free unconditional stMtime hfree
    (by rw [hhard]; exact nofun)
  rw [dataExtractAll, hroom, hhard] at hrun
  change createEntry header h = .ok h' at hrun
  have hthere : ¬ (h.disk.node header.name).isSome = true := by
    rw [hfree]
    exact nofun
  rw [createEntry] at hrun
  rw [if_pos hreg, if_neg hthere] at hrun
  by_cases hshort : h.rest.length < header.size
  · rw [if_pos hshort] at hrun
    cases hrun
  · rw [if_neg hshort] at hrun
    exact ⟨Nat.le_of_not_lt hshort, (Except.ok.inj hrun).symm⟩

theorem dataExtractAll_hard {target : Str} (hreg : isReg header.mode) (hsize : header.size = 0)
    (hlink : header.linkTarget = some target) (hfree : h.disk.node header.name = none)
    (hne : target ≠ header.name) :
    dataExtractAll pipe unconditional stMtime header h = .ok { h with
      linkPlaceholders := h.linkPlaceholders ++ [⟨true, header.name, target⟩] } := by
  have hhard : header.hardLink = some target := by
    rw [FileHeader.hardLink, hlink, if_pos ⟨hreg, hsize⟩]
  have hroom := makeRoom_free unconditional stMtime hfree
    (by rw [hhard]; exact fun h => hne (Option.some.inj h))
  rw [dataExtractAll, hroom, hhard]
  rfl

/-- The lists of hard links are the same, and the disk but for the name. -/
structure Keeps (name : Str) (h h' : Handle) : Prop where
  toCreate : h'.hardlinksToCreate = h.hardlinksToCreate
  created : h'.createdHardlinks = h.createdHardlinks
  disk : Disk.Besides name h.disk h'.disk

theorem seek_keeps {name : Str} {amount : ℕ} (hfile : ∀ i, h.disk.node name ≠ some (.file i))
    (hrun : seek pipe amount h = .ok h') : Keeps name h h' := by
  rw [seek] at hrun
  split at hrun
  · cases hrun
  · rw [← Except.ok.inj hrun]
    exact ⟨rfl, rfl, .refl hfile⟩

theorem unlinkOld_keeps {name : Str} {mayFail : Bool}
    (hfile : ∀ i, h.disk.node name ≠ some (.file i))
    (hrun : unlinkOld mayFail name h = .ok h') : Keeps name h h' := by
  rw [unlinkOld] at hrun
  split at hrun
  · rw [← Except.ok.inj hrun]
    exact ⟨rfl, rfl, .refl hfile⟩
  · split at hrun
    · rw [← Except.ok.inj hrun]
      exact ⟨rfl, rfl, .refl hfile⟩
    · cases hrun
  · rw [← Except.ok.inj hrun]
    exact ⟨rfl, rfl, .unlink⟩

theorem exists_of_map_eq_ok {x : Except Stop Handle} {r : Option Handle}
    (h : some <$> x = .ok r) : ∃ a, x = .ok a ∧ r = some a := by
  cases x with
  | error e => cases h
  | ok a => exact ⟨a, rfl, (Except.ok.inj h).symm⟩

theorem makeRoom_keeps (hfile : ∀ i, h.disk.node header.name ≠ some (.file i))
    (hrun : makeRoom unconditional stMtime header h = .ok (some h')) : Keeps header.name h h' := by
  have hold : ∀ mayFail, some <$> unlinkOld mayFail header.name h = .ok (some h') →
      Keeps header.name h h' := by
    intro mayFail hold
    obtain ⟨a, ha, hsome⟩ := exists_of_map_eq_ok hold
    rw [Option.some.inj hsome]
    exact unlinkOld_keeps hfile ha
  have hsame : Except.ok (ε := Stop) (some h) = .ok (some h') → Keeps header.name h h' := by
    intro hsame
    rw [← Option.some.inj (Except.ok.inj hsame)]
    exact ⟨rfl, rfl, .refl hfile⟩
  rw [makeRoom] at hrun
  split at hrun
  · split at hrun
    · exact hsame hrun
    · split at hrun
      · cases hrun
      · exact hold _ hrun
  · split at hrun
    · exact hsame hrun
    · split at hrun
      · cases hrun
      · exact hold _ hrun

theorem createOrRememberLink_keeps {target name : Str} {hard : Bool}
    (hfile : ∀ i, h.disk.node name ≠ some (.file i))
    (hrun : createOrRememberLink target name hard h = .ok h') : Keeps name h h' := by
  rw [createOrRememberLink] at hrun
  split at hrun
  · rw [← Except.ok.inj hrun]
    exact ⟨rfl, rfl, .refl hfile⟩
  · split at hrun
    · cases hrun
    · rw [← Except.ok.inj hrun]
      exact ⟨rfl, rfl, .bind_other _⟩

theorem createEntry_keeps (hreg : ¬ isReg header.mode)
    (hfile : ∀ i, h.disk.node header.name ≠ some (.file i))
    (hrun : createEntry header h = .ok h') : Keeps header.name h h' := by
  have hmake : ∀ k, (if (h.disk.node header.name).isSome = true then Except.ok (ε := Stop) h
      else .ok { h with disk := h.disk.bind header.name (.other k) }) = .ok h' →
      Keeps header.name h h' := by
    intro k hmake
    split at hmake
    · rw [← Except.ok.inj hmake]
      exact ⟨rfl, rfl, .refl hfile⟩
    · rw [← Except.ok.inj hmake]
      exact ⟨rfl, rfl, .bind_other k⟩
  rw [createEntry] at hrun
  rw [if_neg hreg] at hrun
  split at hrun
  · exact hmake _ hrun
  · split at hrun
    · exact createOrRememberLink_keeps hfile hrun
    · split at hrun
      · exact hmake _ hrun
      · cases hrun

theorem Keeps.trans {name : Str} {h'' : Handle} (hh : Keeps name h h') (hh' : Keeps name h' h'') :
    Keeps name h h'' :=
  ⟨hh'.toCreate.trans hh.toCreate, hh'.created.trans hh.created, hh.disk.trans hh'.disk⟩

theorem dataExtractAll_keeps (hreg : ¬ isReg header.mode)
    (hfile : ∀ i, h.disk.node header.name ≠ some (.file i))
    (hrun : dataExtractAll pipe unconditional stMtime header h = .ok h') :
    Keeps header.name h h' := by
  have hhard : header.hardLink = none := if_neg fun h => hreg h.1
  obtain ⟨room, hroom, hrun⟩ := exists_of_bind_eq_ok hrun
  cases room with
  | none =>
    dsimp only at hrun
    split at hrun
    · rw [← Except.ok.inj hrun]
      exact ⟨rfl, rfl, .refl hfile⟩
    · exact seek_keeps hfile hrun
  | some h₁ =>
    dsimp only at hrun
    rw [hhard] at hrun
    have hkeeps := makeRoom_keeps hfile hroom
    exact hkeeps.trans (createEntry_keeps hreg hkeeps.disk.no_file hrun)

/-! ### Reading the members -/

/-- What a member does to the lists and the disk. -/
inductive Extracted (e : Entry) (h h' : Handle) : Prop where
  | postponed (he : e.Postponed) (hdata : e.data = [])
      (toCreate : h'.hardlinksToCreate = e.hardlink :: h.hardlinksToCreate)
      (created : h'.createdHardlinks = h.createdHardlinks) (disk : h'.disk = h.disk)
  | regular (hreg : e.IsReg) (he : ¬ e.Postponed) (hfree : h.disk.node e.name = none)
      (toCreate : h'.hardlinksToCreate = h.hardlinksToCreate)
      (created : h'.createdHardlinks =
        if e.Carries then e.hardlink :: h.createdHardlinks else h.createdHardlinks)
      (disk : h'.disk = h.disk.create e.name e.data)
  | other (hreg : ¬ e.IsReg) (keeps : Keeps e.name h h')

theorem Entry.not_isLnk {mode : ℕ} (h : isReg mode) : isLnk mode = false := by
  rw [isReg, decide_eq_true_iff] at h
  rw [isLnk, h]
  decide

theorem readTarget_regular {num : Numbers} (hreg : isReg num.modeT) :
    readTarget num h = .ok (none, num.size, h) := by
  rw [readTarget, Entry.not_isLnk hreg, if_neg Bool.false_ne_true]
  rfl

/-- Only the place in the archive is another one. -/
structure Moved (h h' : Handle) : Prop where
  toCreate : h'.hardlinksToCreate = h.hardlinksToCreate
  created : h'.createdHardlinks = h.createdHardlinks
  disk : h'.disk = h.disk

theorem Moved.trans {h'' : Handle} (hh : Moved h h') (hh' : Moved h' h'') : Moved h h'' :=
  ⟨hh'.toCreate.trans hh.toCreate, hh'.created.trans hh.created, hh'.disk.trans hh.disk⟩

theorem xread_moved {count : ℕ} {s : Str} (hrun : xread count h = .ok (s, h')) : Moved h h' := by
  rw [xread] at hrun
  split at hrun
  · cases hrun
  · cases hrun
    exact ⟨rfl, rfl, rfl⟩

theorem seek_moved {amount : ℕ} (hrun : seek pipe amount h = .ok h') : Moved h h' := by
  rw [seek] at hrun
  split at hrun
  · cases hrun
  · cases hrun
    exact ⟨rfl, rfl, rfl⟩

theorem dataAlign_moved (hrun : dataAlign pipe h = .ok h') : Moved h h' := by
  obtain ⟨h₁, hseek, hrun⟩ := exists_of_bind_eq_ok hrun
  obtain ⟨hcreate, hcreated, hdisk⟩ := seek_moved hseek
  cases hrun
  exact ⟨hcreate, hcreated, hdisk⟩

theorem readTarget_moved {num : Numbers} {target : Option Str} {size : ℕ}
    (hrun : readTarget num h = .ok (target, size, h')) : Moved h h' := by
  rw [readTarget] at hrun
  split at hrun
  · obtain ⟨⟨s, h₁⟩, hread, hrun⟩ := exists_of_bind_eq_ok hrun
    cases hrun
    exact xread_moved hread
  · cases hrun
    exact ⟨rfl, rfl, rfl⟩

theorem readHeader_moved {r : Option CpioHeader}
    (hrun : readHeader pipe sscanf h = .ok (r, h')) : Moved h h' := by
  obtain ⟨h₁, halign, hrun⟩ := exists_of_bind_eq_ok hrun
  refine (dataAlign_moved halign).trans ?_
  dsimp only at hrun
  split at hrun
  · cases hrun
    exact ⟨rfl, rfl, rfl⟩
  · obtain ⟨⟨block, h₂⟩, hblock, hrun⟩ := exists_of_bind_eq_ok hrun
    refine (xread_moved hblock).trans ?_
    dsimp only at hrun
    split at hrun
    · cases hrun
    · split at hrun
      · cases hrun
      · obtain ⟨⟨name, h₃⟩, hname, hrun⟩ := exists_of_bind_eq_ok hrun
        refine (xread_moved hname).trans ?_
        obtain ⟨h₄, halign', hrun⟩ := exists_of_bind_eq_ok hrun
        cases hrun
        exact dataAlign_moved halign'

theorem listLink_fields (e : Entry) (h : Handle) :
    (listLink e h).hardlinksToCreate = h.hardlinksToCreate ∧ (listLink e h).disk = h.disk ∧
      (listLink e h).rest = h.rest ∧ (listLink e h).createdHardlinks =
        if e.HasLinks then e.hardlink :: h.createdHardlinks else h.createdHardlinks := by
  rw [listLink]
  split <;> exact ⟨rfl, rfl, rfl, rfl⟩

theorem extractEntry_regular {e : Entry} (hreg : e.IsReg) (he : ¬ e.Postponed)
    (hdata : e.data = h.rest.take e.numbers.size) (hfree : h.disk.node e.name = none)
    (hrun : extractEntry pipe unconditional stMtime e none e.numbers.size h = .ok h') :
    Extracted e h h' := by
  obtain ⟨hcreate, hdisk, hrest, hcreated⟩ := listLink_fields e h
  rw [extractEntry, if_neg he] at hrun
  obtain ⟨h₁, hextract, hrun⟩ := exists_of_bind_eq_ok hrun
  have hreg' : isReg e.numbers.modeT = true := hreg
  obtain ⟨-, rfl⟩ := dataExtractAll_regular hreg' rfl (hdisk.symm ▸ hfree) hextract
  cases hrun
  have hcarries : e.Carries ↔ e.HasLinks :=
    ⟨fun h => h.1, fun h => ⟨h, fun hsize => he ⟨h, hsize⟩⟩⟩
  refine .regular hreg he hfree hcreate ?_ ?_
  · rw [if_congr hcarries rfl rfl]
    exact hcreated
  · show (listLink e h).disk.create e.name ((listLink e h).rest.take e.numbers.size) = _
    rw [hdisk, hrest, hdata]

theorem extractEntry_other {e : Entry} {target : Option Str} {size : ℕ} (hreg : ¬ e.IsReg)
    (hfile : ∀ i, h.disk.node e.name ≠ some (.file i))
    (hrun : extractEntry pipe unconditional stMtime e target size h = .ok h') :
    Keeps e.name h h' := by
  have hlist : listLink e h = h := if_neg fun h => hreg h.2
  rw [extractEntry, if_neg fun h => hreg h.1.2, hlist] at hrun
  obtain ⟨h₁, hextract, hrun⟩ := exists_of_bind_eq_ok hrun
  cases hrun
  have hreg' : ¬ isReg e.numbers.modeT = true := hreg
  obtain ⟨hcreate, hcreated, hdisk⟩ := dataExtractAll_keeps hreg' hfile hextract
  exact ⟨hcreate, hcreated, hdisk⟩

/-- One member, whose name is not there if it is a regular file. -/
theorem extractMember_extracted {member : CpioHeader} {e : Entry}
    (hrun : extractMember pipe unconditional stMtime member h = .ok (e, h'))
    (hfree : e.IsReg → h.disk.node e.name = none)
    (hfile : ¬ e.IsReg → ∀ i, h.disk.node e.name ≠ some (.file i)) : Extracted e h h' := by
  obtain ⟨⟨target, size, h₁⟩, htarget, hrun⟩ := exists_of_bind_eq_ok hrun
  obtain ⟨h₂, hentry, hrun⟩ := exists_of_bind_eq_ok hrun
  cases hrun
  by_cases hreg : isReg member.numbers.modeT
  · rw [readTarget_regular hreg] at htarget
    cases htarget
    by_cases hpost : Entry.Postponed ⟨member, h.rest.take member.numbers.size⟩
    · rw [extractEntry, if_pos hpost] at hentry
      cases hentry
      have hsize : member.numbers.size = 0 := hpost.2
      exact .postponed hpost (by rw [hsize]; rfl) rfl rfl rfl
    · exact extractEntry_regular hreg hpost rfl (hfree hreg) hentry
  · obtain ⟨hcreate, hcreated, hdisk⟩ := readTarget_moved htarget
    have hreg' : ¬ Entry.IsReg ⟨member, h₁.rest.take member.numbers.size⟩ := hreg
    have hkeeps := extractEntry_other hreg' (hdisk.symm ▸ hfile hreg') hentry
    exact .other hreg' ⟨hkeeps.toCreate.trans hcreate, hkeeps.created.trans hcreated,
      hdisk ▸ hkeeps.disk⟩

/-- What a call of `get_header_cpio` does: a member, or all that is left. -/
theorem getHeaderCpio_cases {r : Option Entry}
    (hrun : getHeaderCpio pipe unconditional stMtime sscanf h = .ok (r, h')) :
    ∃ h₁, Moved h h₁ ∧
      ((r = none ∧ makeLinks pipe unconditional stMtime h₁.hardlinksToCreate h₁ = .ok h') ∨
        ∃ header e, r = some e ∧
          extractMember pipe unconditional stMtime header h₁ = .ok (e, h')) := by
  obtain ⟨⟨header?, h₁⟩, hread, hrun⟩ := exists_of_bind_eq_ok hrun
  refine ⟨h₁, readHeader_moved hread, ?_⟩
  cases header? with
  | none =>
    obtain ⟨h₂, hlinks, hrun⟩ := exists_of_bind_eq_ok hrun
    cases hrun
    exact Or.inl ⟨rfl, hlinks⟩
  | some header =>
    dsimp only at hrun
    split at hrun
    · obtain ⟨h₂, hlinks, hrun⟩ := exists_of_bind_eq_ok hrun
      cases hrun
      exact Or.inl ⟨rfl, hlinks⟩
    · obtain ⟨⟨e, h₂⟩, hmember, hrun⟩ := exists_of_bind_eq_ok hrun
      cases hrun
      exact Or.inr ⟨header, e, rfl, hmember⟩

end

/-! ### All members -/

/-- No regular file has the name of another member. -/
def Distinct (es : List Entry) : Prop :=
  es.Pairwise fun a b => a.IsReg ∨ b.IsReg → a.name ≠ b.name

instance (es : List Entry) : Decidable (Distinct es) :=
  inferInstanceAs (Decidable (es.Pairwise _))

/-- The members are read, and those that are put off are not made yet. -/
structure Gathered (es : List Entry) (h : Handle) : Prop where
  toCreate : h.hardlinksToCreate = (es.filter (·.Postponed)).reverse.map Entry.hardlink
  created : h.createdHardlinks = (es.filter (·.Carries)).reverse.map Entry.hardlink
  separate : h.disk.Separate
  holds : ∀ e ∈ es, e.IsReg → ¬ e.Postponed → h.disk.Holds e.name e.data
  bound : ∀ {n x}, h.disk.node n = some x → ∃ e ∈ es, ¬ e.Postponed ∧ e.name = n
  files : ∀ {n i}, h.disk.node n = some (.file i) → ∃ e ∈ es, e.IsReg ∧ e.name = n
  empty : ∀ e ∈ es, e.Postponed → e.data = []

theorem Gathered.moved {es : List Entry} {h h' : Handle} (hg : Gathered es h) (hm : Moved h h') :
    Gathered es h' := by
  obtain ⟨hcreate, hcreated, hdisk⟩ := hm
  constructor
  · rw [hcreate, hg.toCreate]
  · rw [hcreated, hg.created]
  · rw [hdisk]
    exact hg.separate
  · rw [hdisk]
    exact hg.holds
  · rw [hdisk]
    exact hg.bound
  · rw [hdisk]
    exact hg.files
  · exact hg.empty

theorem Distinct.ne {es : List Entry} {e : Entry} (h : Distinct (es ++ [e])) {a : Entry}
    (ha : a ∈ es) (hreg : a.IsReg ∨ e.IsReg) : a.name ≠ e.name :=
  (List.pairwise_append.mp h).2.2 a ha e (List.mem_singleton.mpr rfl) hreg

theorem listed_append (p : Entry → Prop) [DecidablePred p] (es : List Entry) (e : Entry) :
    ((es ++ [e]).filter (p ·)).reverse.map Entry.hardlink =
      if p e then e.hardlink :: (es.filter (p ·)).reverse.map Entry.hardlink
      else (es.filter (p ·)).reverse.map Entry.hardlink := by
  rw [List.filter_append, List.filter_singleton]
  by_cases h : p e
  · rw [if_pos h, decide_eq_true h, cond_true, List.reverse_append, List.reverse_singleton,
      List.singleton_append, List.map_cons]
  · rw [if_neg h, decide_eq_false h, cond_false, List.append_nil]

theorem exists_mem_append {es : List Entry} {e : Entry} {p : Entry → Prop}
    (h : ∃ a ∈ es, p a) : ∃ a ∈ es ++ [e], p a := by
  obtain ⟨a, ha, hp⟩ := h
  exact ⟨a, List.mem_append_left _ ha, hp⟩

theorem forall_mem_append {es : List Entry} {e : Entry} {p : Entry → Prop}
    (h : ∀ a ∈ es, p a) (he : p e) : ∀ a ∈ es ++ [e], p a := by
  intro a ha
  rcases List.mem_append.mp ha with ha | ha
  · exact h a ha
  · rw [List.mem_singleton.mp ha]
    exact he

theorem mem_append_self (es : List Entry) (e : Entry) : e ∈ es ++ [e] :=
  List.mem_append_right _ (List.mem_singleton.mpr rfl)

theorem Gathered.step {es : List Entry} {e : Entry} {h h' : Handle} (hg : Gathered es h)
    (hnames : Distinct (es ++ [e])) (he : Extracted e h h') : Gathered (es ++ [e]) h' := by
  cases he with
  | postponed he hdata toCreate created disk =>
    have hcarries : ¬ e.Carries := fun h => h.2 he.2
    constructor
    · rw [listed_append, if_pos he, toCreate, hg.toCreate]
    · rw [listed_append, if_neg hcarries, created, hg.created]
    · rw [disk]
      exact hg.separate
    · rw [disk]
      exact forall_mem_append hg.holds fun _ h => absurd he h
    · rw [disk]
      exact fun hn => exists_mem_append (hg.bound hn)
    · rw [disk]
      exact fun hn => exists_mem_append (hg.files hn)
    · exact forall_mem_append hg.empty fun _ => hdata
  | regular hreg he hfree toCreate created disk =>
    constructor
    · rw [listed_append, if_neg he, toCreate, hg.toCreate]
    · rw [listed_append, created, hg.created]
    · rw [disk]
      exact hg.separate.create
    · rw [disk]
      refine forall_mem_append (fun a ha hareg hapost => ?_) fun _ _ => Disk.holds_create
      exact (hg.holds a ha hareg hapost).create hg.separate hfree
    · rw [disk]
      intro n x hn
      by_cases hname : n = e.name
      · exact ⟨e, mem_append_self es e, he, hname.symm⟩
      · rw [Disk.node_create_of_ne hname] at hn
        exact exists_mem_append (hg.bound hn)
    · rw [disk]
      intro n i hn
      by_cases hname : n = e.name
      · exact ⟨e, mem_append_self es e, hreg, hname.symm⟩
      · rw [Disk.node_create_of_ne hname] at hn
        exact exists_mem_append (hg.files hn)
    · exact forall_mem_append hg.empty fun h => absurd h he
  | other hreg keeps =>
    obtain ⟨toCreate, created, disk⟩ := keeps
    have hpost : ¬ e.Postponed := fun h => hreg h.1.2
    have hcarries : ¬ e.Carries := fun h => hreg h.1.2
    constructor
    · rw [listed_append, if_neg hpost, toCreate, hg.toCreate]
    · rw [listed_append, if_neg hcarries, created, hg.created]
    · exact disk.separate hg.separate
    · refine forall_mem_append (fun a ha hareg hapost => ?_) fun h => absurd h hreg
      exact disk.holds (hg.holds a ha hareg hapost) (hnames.ne ha (Or.inl hareg))
    · intro n x hn
      by_cases hname : n = e.name
      · exact ⟨e, mem_append_self es e, hpost, hname.symm⟩
      · rw [disk.node n hname] at hn
        exact exists_mem_append (hg.bound hn)
    · exact fun hn => exists_mem_append (hg.files (disk.file hn).2)
    · exact forall_mem_append hg.empty fun h => absurd h hpost

section

variable {pipe unconditional : Bool} {stMtime : Disk → Str → ℤ} {sscanf : Str → Option Numbers}

theorem members_gathered {fuel : ℕ} {read es : List Entry} {h h' : Handle} (hg : Gathered read h)
    (hrun : members pipe unconditional stMtime sscanf fuel h = .ok (es, h'))
    (hnames : Distinct (read ++ es)) : ∃ h₁, Gathered (read ++ es) h₁ ∧
      makeLinks pipe unconditional stMtime h₁.hardlinksToCreate h₁ = .ok h' := by
  induction fuel generalizing read es h with
  | zero => cases hrun
  | succ fuel ih =>
    obtain ⟨⟨r, h₁⟩, hone, hrun⟩ := exists_of_bind_eq_ok hrun
    obtain ⟨h₀, hmoved, hcases⟩ := getHeaderCpio_cases hone
    have hg₀ := hg.moved hmoved
    rcases hcases with ⟨rfl, hlinks⟩ | ⟨header, e, rfl, hmember⟩
    · cases hrun
      rw [List.append_nil]
      exact ⟨h₀, hg₀, hlinks⟩
    · obtain ⟨⟨es', h₂⟩, hrest, hrun⟩ := exists_of_bind_eq_ok hrun
      cases hrun
      have happend : read ++ e :: es' = read ++ [e] ++ es' := by simp
      rw [happend] at hnames ⊢
      have hnames' : Distinct (read ++ [e]) := (List.pairwise_append.mp hnames).1
      have hfree : e.IsReg → h₀.disk.node e.name = none := by
        intro hreg
        refine Option.eq_none_iff_forall_ne_some.mpr fun x hx => ?_
        obtain ⟨a, ha, -, hname⟩ := hg₀.bound hx
        exact hnames'.ne ha (Or.inr hreg) hname
      have hfile : ¬ e.IsReg → ∀ i, h₀.disk.node e.name ≠ some (.file i) := by
        intro _ i hi
        obtain ⟨a, ha, hareg, hname⟩ := hg₀.files hi
        exact hnames'.ne ha (Or.inl hareg) hname
      exact ih (hg₀.step hnames' (extractMember_extracted hmember hfree hfile)) hrest hnames

end

/-! ### Every run ends -/

/-- Does a part of a run end?  It dies, or it leaves at most `n` bytes of the archive. -/
def Ends {α : Type} (n : ℕ) (left : α → ℕ) (x : Except Stop α) : Prop :=
  match x with
  | .ok a => left a ≤ n
  | .error e => ∃ msg, e = .die msg

theorem Ends.bind {α β : Type} {n m : ℕ} {left : α → ℕ} {left' : β → ℕ} {x : Except Stop α}
    {f : α → Except Stop β} (hx : Ends n left x) (hf : ∀ a, left a ≤ n → Ends m left' (f a)) :
    Ends m left' (x >>= f) := by
  cases x with
  | ok a => exact hf a hx
  | error e => exact hx

theorem Ends.weaken {α : Type} {n m : ℕ} {left : α → ℕ} {x : Except Stop α} (hx : Ends n left x)
    (hle : n ≤ m) : Ends m left x := by
  cases x with
  | ok a => exact Nat.le_trans hx hle
  | error e => exact hx

theorem Ends.die {α : Type} {n : ℕ} {left : α → ℕ} (msg : String) :
    Ends n left (.error (.die msg)) := ⟨msg, rfl⟩

theorem Ends.ite {α : Type} {n : ℕ} {left : α → ℕ} {p : Prop} [Decidable p] {x y : Except Stop α}
    (hx : p → Ends n left x) (hy : ¬ p → Ends n left y) : Ends n left (if p then x else y) := by
  by_cases hp : p
  · rw [if_pos hp]
    exact hx hp
  · rw [if_neg hp]
    exact hy hp

section

variable (pipe unconditional : Bool) (stMtime : Disk → Str → ℤ) (sscanf : Str → Option Numbers)

def Handle.left (h : Handle) : ℕ := h.rest.length

theorem drop_left (h : Handle) (k : ℕ) : (h.rest.drop k).length ≤ h.left := by
  rw [List.length_drop]
  exact Nat.sub_le _ _

theorem seek_ends (amount : ℕ) (h : Handle) : Ends h.left Handle.left (seek pipe amount h) :=
  Ends.ite (fun _ => Ends.die _) fun _ => drop_left h amount

theorem dataAlign_ends (h : Handle) : Ends h.left Handle.left (dataAlign pipe h) :=
  (seek_ends pipe _ h).bind fun _ ha => ha

theorem createOrRememberLink_ends (target linkname : Str) (hard : Bool) (h : Handle) :
    Ends h.left Handle.left (createOrRememberLink target linkname hard h) :=
  Ends.ite (fun _ => Nat.le_refl _) fun _ => Ends.ite (fun _ => Ends.die _) fun _ => Nat.le_refl _

theorem createEntry_ends (header : FileHeader) (h : Handle) :
    Ends h.left Handle.left (createEntry header h) := by
  have hsame : Ends h.left Handle.left (.ok h) := Nat.le_refl _
  refine Ends.ite (fun _ => ?_) fun _ => Ends.ite (fun _ => ?_) fun _ => Ends.ite (fun _ => ?_)
    fun _ => Ends.ite (fun _ => ?_) fun _ => Ends.die _
  · exact Ends.ite (fun _ => Ends.die _) fun _ => Ends.ite (fun _ => Ends.die _) fun _ =>
      drop_left h header.size
  · exact Ends.ite (fun _ => hsame) fun _ => Nat.le_refl _
  · exact createOrRememberLink_ends _ _ _ h
  · exact Ends.ite (fun _ => hsame) fun _ => Nat.le_refl _

theorem unlinkOld_ends (mayFail : Bool) (name : Str) (h : Handle) :
    Ends h.left Handle.left (unlinkOld mayFail name h) := by
  rw [unlinkOld]
  split
  · exact Nat.le_refl _
  · exact Ends.ite (fun _ => Nat.le_refl _) fun _ => Ends.die _
  · exact Nat.le_refl _

theorem makeRoom_ends (header : FileHeader) (h : Handle) :
    Ends h.left (fun r => r.elim 0 Handle.left) (makeRoom unconditional stMtime header h) := by
  have hold : ∀ mayFail, Ends h.left (fun r => r.elim 0 Handle.left)
      (some <$> unlinkOld mayFail header.name h) := by
    intro mayFail
    have hends := unlinkOld_ends mayFail header.name h
    cases hrun : unlinkOld mayFail header.name h with
    | ok a =>
      rw [hrun] at hends
      exact hends
    | error e =>
      rw [hrun] at hends
      exact hends
  have hsame : Ends h.left (fun r => r.elim 0 Handle.left) (.ok (some h)) := Nat.le_refl _
  have hnone : Ends h.left (fun r => r.elim 0 Handle.left) (.ok none) := Nat.zero_le _
  refine Ends.ite (fun _ => ?_) fun _ => ?_
  · exact Ends.ite (fun _ => hsame) fun _ => Ends.ite (fun _ => hnone) fun _ => hold _
  · exact Ends.ite (fun _ => hsame) fun _ => Ends.ite (fun _ => hnone) fun _ => hold _

theorem dataExtractAll_ends (header : FileHeader) (h : Handle) :
    Ends h.left Handle.left (dataExtractAll pipe unconditional stMtime header h) := by
  refine (makeRoom_ends unconditional stMtime header h).bind fun room hroom => ?_
  cases room with
  | none =>
    exact Ends.ite (fun _ => Nat.le_refl _) fun _ => seek_ends pipe header.size h
  | some h₁ =>
    have hle : h₁.left ≤ h.left := hroom
    dsimp only
    cases header.hardLink with
    | none => exact (createEntry_ends header h₁).weaken hle
    | some target => exact (createOrRememberLink_ends target header.name true h₁).weaken hle

theorem xread_ends (count : ℕ) (h : Handle) :
    Ends h.left (fun r => r.2.left + count) (xread count h) := by
  refine Ends.ite (fun _ => Ends.die _) fun hshort => ?_
  show (h.rest.drop count).length + count ≤ h.rest.length
  rw [List.length_drop]
  omega

theorem readHeader_ends (h : Handle) :
    Ends h.left (fun r => r.2.left + r.1.elim 0 fun _ => 110) (readHeader pipe sscanf h) := by
  refine (dataAlign_ends pipe h).bind fun h₁ hh₁ => ?_
  refine Ends.ite (fun _ => hh₁) fun _ => ?_
  refine (xread_ends 110 h₁).bind ?_
  rintro ⟨block, h₂⟩ hh₂
  refine Ends.ite (fun _ => Ends.die _) fun _ => ?_
  cases hscan : sscanf (block.drop 6) with
  | none => exact Ends.die _
  | some num =>
    refine (xread_ends (num.namesize % 0x2000).toNat h₂).bind ?_
    rintro ⟨name, h₃⟩ hh₃
    refine (dataAlign_ends pipe h₃).bind fun h₄ hh₄ => ?_
    show h₄.left + 110 ≤ h.left
    dsimp only at hh₂ hh₃
    omega

theorem readTarget_ends (num : Numbers) (h : Handle) :
    Ends h.left (fun r => r.2.2.left) (readTarget num h) := by
  refine Ends.ite (fun _ => ?_) fun _ => Nat.le_refl _
  refine (xread_ends (num.size % 0x2000) h).bind ?_
  rintro ⟨target, h₁⟩ hh₁
  exact Nat.le_trans (Nat.le_add_right _ _) hh₁

theorem listLink_left (e : Entry) (h : Handle) : (listLink e h).left = h.left :=
  congrArg List.length (listLink_fields e h).2.2.1

theorem extractMember_ends (header : CpioHeader) (h : Handle) :
    Ends h.left (fun r => r.2.left) (extractMember pipe unconditional stMtime header h) := by
  refine (readTarget_ends header.numbers h).bind ?_
  rintro ⟨target, size, h₁⟩ hh₁
  have hentry : Ends h.left Handle.left (extractEntry pipe unconditional stMtime
      ⟨header, h₁.rest.take header.numbers.size⟩ target size h₁) := by
    refine Ends.ite (fun _ => hh₁) fun _ => ?_
    refine (dataExtractAll_ends pipe unconditional stMtime _ _).bind fun h₂ hh₂ => ?_
    rw [listLink_left] at hh₂
    exact Nat.le_trans hh₂ hh₁
  exact hentry.bind fun h₂ hh₂ => hh₂

theorem makeLinks_ends (ps : List Hardlink) (h : Handle) :
    Ends h.left Handle.left (makeLinks pipe unconditional stMtime ps h) := by
  induction ps generalizing h with
  | nil => exact Nat.le_refl _
  | cons p ps ih =>
    rw [makeLinks]
    dsimp only
    split
    · refine (dataExtractAll_ends pipe unconditional stMtime _ h).bind fun h₁ hh₁ => ?_
      exact (ih h₁).weaken hh₁
    · refine (dataExtractAll_ends pipe unconditional stMtime _ h).bind fun h₁ hh₁ => ?_
      exact (ih _).weaken hh₁

/-- Every member takes up its header at least. -/
theorem getHeaderCpio_ends (h : Handle) :
    Ends h.left (fun r => r.2.left + r.1.elim 0 fun _ => 110)
      (getHeaderCpio pipe unconditional stMtime sscanf h) := by
  refine (readHeader_ends pipe sscanf h).bind ?_
  rintro ⟨header?, h₁⟩ hh₁
  have hlast : h₁.left ≤ h.left := Nat.le_trans (Nat.le_add_right _ _) hh₁
  have hlinks := (makeLinks_ends pipe unconditional stMtime h₁.hardlinksToCreate h₁).weaken hlast
  cases header? with
  | none => exact hlinks.bind fun h₂ hh₂ => hh₂
  | some header =>
    refine Ends.ite (fun _ => hlinks.bind fun h₂ hh₂ => hh₂) fun _ => ?_
    refine (extractMember_ends pipe unconditional stMtime header h₁).bind ?_
    rintro ⟨e, h₂⟩ hh₂
    exact Nat.le_trans (Nat.add_le_add_right hh₂ 110) hh₁

theorem members_ends {fuel : ℕ} {h : Handle} (hfuel : h.left < fuel) :
    Ends h.left (fun r => r.2.left) (members pipe unconditional stMtime sscanf fuel h) := by
  induction fuel generalizing h with
  | zero => exact absurd hfuel (Nat.not_lt_zero _)
  | succ fuel ih =>
    refine (getHeaderCpio_ends pipe unconditional stMtime sscanf h).bind ?_
    rintro ⟨r, h₁⟩ hh₁
    cases r with
    | none => exact hh₁
    | some e =>
      have hless : h₁.left + 110 ≤ h.left := hh₁
      refine (ih (by omega)).bind ?_
      rintro ⟨es, h₂⟩ hh₂
      show h₂.left ≤ h.left
      dsimp only at hh₂
      omega

theorem createLinksFromList_ends (ls : List Placeholder) (disk : Disk) :
    Ends 0 (fun _ => 0) (createLinksFromList ls disk) := by
  induction ls generalizing disk with
  | nil => exact Nat.le_refl 0
  | cons l ls ih =>
    rw [createLinksFromList]
    split
    · exact Ends.die _
    · exact ih _

/-- Every archive is extracted, or the program dies. -/
theorem extract_ends (archive : Str) :
    Ends 0 (fun _ => 0) (extract pipe unconditional stMtime sscanf archive) := by
  refine (members_ends pipe unconditional stMtime sscanf (Nat.lt_succ_self _)).bind ?_
  rintro ⟨es, h⟩ -
  exact (createLinksFromList_ends h.linkPlaceholders h.disk).bind fun _ _ => Nat.le_refl 0

end

end Rustybox.Cpio
