import Rustybox.Ip.Dispatch

/-!
# Calls that are not left alone

The contract of `run` is to handle the forms it knows and to leave every other call
to the transpiled `ip`.  The forms are few (`Allowed`): `addr` and `link` with an
optional show word and an optional device, `link set` with one device and a
direction, `route` with at most a show word.

The loops do not look for these forms.  They read word by word: the first word they
do not know is the device, and a second one makes them give up.  So what they take
is larger than the contract.  A device that was read already can be replaced by
`dev NAME`, which is how `addr flush dev eth0` becomes a display of `eth0`; a show
word may stand anywhere; a `dev` at the end names nothing; and `route` looks at
its first word only.

To say exactly when this goes wrong the arguments are cut into selectors, a word or
`dev` with its name (`Sel`).  What the loops take is a property of the selectors
(`consumeDev_isSome_iff`, `linkSet_isSome_iff`), what the contract allows is
another (`showForm_iff`, `setForm_iff`), and `Misread` is the difference.
-/

namespace Rustybox.Ip

/-! ### The contract -/

/-- What may follow `addr` or `link`: nothing, or an optional show word and an
optional device.  A device alone is not a verb. -/
inductive ShowForm : List String → Prop
  | nil : ShowForm []
  | shown {w : String} (hw : w ∈ showWords) : ShowForm [w]
  | dev (name : String) : ShowForm ["dev", name]
  | showDev {w : String} (hw : w ∈ showWords) (name : String) : ShowForm [w, "dev", name]
  | bare {name : String} (hdev : name ≠ "dev") (hshow : name ∉ showWords) (hverb : ¬ Verb name) :
      ShowForm [name]
  | showBare {w name : String} (hw : w ∈ showWords) (hdev : name ≠ "dev")
      (hshow : name ∉ showWords) : ShowForm [w, name]

def updownWords : List String := ["up", "down"]

/-- What may follow `link set`: one device among words `up` and `down`. -/
def SetForm (args : List String) : Prop :=
  ∃ before device after, args = before ++ device ++ after ∧
    (∀ w ∈ before ++ after, w ∈ updownWords) ∧ before ++ after ≠ [] ∧
    ((∃ name, device = ["dev", name]) ∨
      ∃ name, device = [name] ∧ name ≠ "dev" ∧ name ∉ updownWords)

/-- What may follow `link`. -/
def LinkForm (args : List String) : Prop :=
  ShowForm args ∨ ∃ rest, args = "set" :: rest ∧ SetForm rest

/-- What may follow `route`. -/
def RouteForm (args : List String) : Prop := args = [] ∨ ∃ w ∈ showWords, args = [w]

/-- The calls that may be handled, after the global options. -/
def Allowed : List String → Prop
  | [] => False
  | sub :: args => sub ∈ addrWords ∧ ShowForm args ∨ sub ∈ linkWords ∧ LinkForm args ∨
      sub ∈ routeWords ∧ RouteForm args

/-! ### Selectors -/

/-- A unit of the arguments. -/
inductive Sel
  | keyword (w : String)
  | dev (name : Option String)
  | word (w : String)
  deriving DecidableEq

namespace Sel

def names : Sel → Bool
  | .dev (some _) | .word _ => true
  | _ => false

def isWord : Sel → Bool
  | .word _ => true
  | _ => false

def isKeyword : Sel → Bool
  | .keyword _ => true
  | _ => false

@[simp] theorem names_keyword (w : String) : (keyword w).names = false := rfl
@[simp] theorem names_dev_none : (dev none).names = false := rfl
@[simp] theorem names_dev_some (name : String) : (dev (some name)).names = true := rfl
@[simp] theorem names_word (w : String) : (word w).names = true := rfl
@[simp] theorem isWord_keyword (w : String) : (keyword w).isWord = false := rfl
@[simp] theorem isWord_dev (name : Option String) : (dev name).isWord = false := rfl
@[simp] theorem isWord_word (w : String) : (word w).isWord = true := rfl
@[simp] theorem isKeyword_keyword (w : String) : (keyword w).isKeyword = true := rfl
@[simp] theorem isKeyword_dev (name : Option String) : (dev name).isKeyword = false := rfl
@[simp] theorem isKeyword_word (w : String) : (word w).isKeyword = false := rfl

def render : Sel → List String
  | .keyword w | .word w => [w]
  | .dev none => ["dev"]
  | .dev (some name) => ["dev", name]

end Sel

def sels (keywords : List String) : List String → List Sel
  | [] => []
  | tok :: args =>
    if tok = "dev" then
      match args with
      | [] => [.dev none]
      | name :: args => .dev (some name) :: sels keywords args
    else if tok ∈ keywords then .keyword tok :: sels keywords args
    else .word tok :: sels keywords args

/-- Somewhere `b` stands after `a`. -/
def After (R : Sel → Sel → Prop) (ss : List Sel) : Prop := ∃ a b, [a, b].Sublist ss ∧ R a b

/-- A bare word after a device. -/
def Crowded : List Sel → Prop := After fun a b => a.names = true ∧ b.isWord = true

/-- A device after a device. -/
def TwoNames : List Sel → Prop := After fun a b => a.names = true ∧ b.names = true

/-- A keyword after anything. -/
def LateKeyword : List Sel → Prop := After fun _ b => b.isKeyword = true

section Sels

variable {keywords : List String} {tok : String} {args : List String} {ss : List Sel}

@[simp]
theorem sels_nil : sels keywords [] = [] := rfl

@[simp]
theorem sels_dev : sels keywords ["dev"] = [.dev none] := rfl

@[simp]
theorem sels_dev_cons (name : String) :
    sels keywords ("dev" :: name :: args) = .dev (some name) :: sels keywords args :=
  if_pos rfl

theorem sels_keyword (hdev : tok ≠ "dev") (hkey : tok ∈ keywords) :
    sels keywords (tok :: args) = .keyword tok :: sels keywords args := by
  cases args <;> exact (if_neg hdev).trans (if_pos hkey)

theorem sels_word (hdev : tok ≠ "dev") (hkey : tok ∉ keywords) :
    sels keywords (tok :: args) = .word tok :: sels keywords args := by
  cases args <;> exact (if_neg hdev).trans (if_neg hkey)

theorem not_after_nil (R : Sel → Sel → Prop) : ¬ After R [] := by
  rintro ⟨a, b, h, _⟩
  cases h

theorem after_cons {R : Sel → Sel → Prop} {c : Sel} :
    After R (c :: ss) ↔ (∃ b ∈ ss, R c b) ∨ After R ss := by
  constructor
  · rintro ⟨a, b, h, hR⟩
    cases h with
    | cons _ h => exact Or.inr ⟨a, b, h, hR⟩
    | cons_cons _ h => exact Or.inl ⟨b, List.singleton_sublist.mp h, hR⟩
  · rintro (⟨b, hb, hR⟩ | ⟨a, b, h, hR⟩)
    · exact ⟨c, b, (List.singleton_sublist.mpr hb).cons_cons c, hR⟩
    · exact ⟨a, b, h.cons c, hR⟩

@[simp]
theorem not_crowded_nil : ¬ Crowded [] := not_after_nil _

@[simp]
theorem crowded_cons {c : Sel} :
    Crowded (c :: ss) ↔ (c.names = true ∧ ∃ b ∈ ss, b.isWord = true) ∨ Crowded ss := by
  rw [Crowded, after_cons]
  refine or_congr ⟨?_, ?_⟩ Iff.rfl
  · rintro ⟨b, hb, hc, hword⟩
    exact ⟨hc, b, hb, hword⟩
  · rintro ⟨hc, b, hb, hword⟩
    exact ⟨b, hb, hc, hword⟩

theorem render_sels (keywords args : List String) :
    (sels keywords args).flatMap Sel.render = args := by
  fun_induction sels keywords args with
  | case1 => rfl
  | case2 => rfl
  | case3 name args ih => rw [List.flatMap_cons, ih]; rfl
  | case4 tok args hdev hkey ih => rw [List.flatMap_cons, ih]; rfl
  | case5 tok args hdev hkey ih => rw [List.flatMap_cons, ih]; rfl

theorem mem_keywords_of_mem_sels {w : String} (h : .keyword w ∈ sels keywords args) :
    w ∈ keywords := by
  fun_induction sels keywords args with
  | case1 => cases h
  | case2 => simp at h
  | case3 name args ih => exact ih (by simpa using h)
  | case4 tok args hdev hkey ih =>
    rcases List.mem_cons.mp h with h | h
    · cases h
      exact hkey
    · exact ih h
  | case5 tok args hdev hkey ih => exact ih (by simpa using h)

theorem not_mem_keywords_of_mem_sels {w : String} (h : .word w ∈ sels keywords args) :
    w ≠ "dev" ∧ w ∉ keywords := by
  fun_induction sels keywords args with
  | case1 => cases h
  | case2 => simp at h
  | case3 name args ih => exact ih (by simpa using h)
  | case4 tok args hdev hkey ih => exact ih (by simpa using h)
  | case5 tok args hdev hkey ih =>
    rcases List.mem_cons.mp h with h | h
    · cases h
      exact ⟨hdev, hkey⟩
    · exact ih h

end Sels

/-! ### What the loops take -/

theorem consumeDevLoop_isSome_iff (args : List String) (dev : Option String) :
    (consumeDevLoop args dev).isSome ↔
      (dev = none ∨ ∀ b ∈ sels showWords args, b.isWord = false) ∧
        ¬ Crowded (sels showWords args) := by
  fun_induction consumeDevLoop args dev with
  | case1 dev => simp
  | case2 dev => simp
  | case3 dev name args ih =>
    rw [ih]
    simp
    tauto
  | case4 tok args dev hdev hshow ih =>
    rw [ih, sels_keyword hdev hshow]
    simp
  | case5 tok args hdev hshow ih =>
    rw [ih, sels_word hdev hshow]
    simp
  | case6 dev tok args hdev hshow hnone =>
    rw [sels_word hdev hshow]
    simp [hnone]

theorem consumeDev_isSome_iff (args : List String) :
    (consumeDev args).isSome ↔ ¬ Crowded (sels showWords args) := by
  rw [consumeDev, consumeDevLoop_isSome_iff]
  simp

theorem linkSetLoop_iff (args : List String) (dev : Option String) (updown : Option Bool) :
    (∃ name up, linkSetLoop args dev updown = some (some name, some up)) ↔
      ((dev = none ∨ ∀ b ∈ sels updownWords args, b.isWord = false) ∧
        ¬ Crowded (sels updownWords args)) ∧ .dev none ∉ sels updownWords args ∧
      (dev ≠ none ∨ ∃ a ∈ sels updownWords args, a.names = true) ∧
      (updown ≠ none ∨ ∃ a ∈ sels updownWords args, a.isKeyword = true) := by
  fun_induction linkSetLoop args dev updown with
  | case1 dev updown => simp [Option.ne_none_iff_exists']
  | case2 dev updown => simp
  | case3 dev updown name args ih =>
    rw [ih]
    simp
    tauto
  | case4 args dev updown hdev ih =>
    rw [ih, sels_keyword hdev (by decide)]
    simp
  | case5 args dev updown hdev hup ih =>
    rw [ih, sels_keyword hdev (by decide)]
    simp
  | case6 tok args updown hdev hup hdown ih =>
    rw [ih, sels_word hdev (by simp [updownWords, hup, hdown])]
    simp
  | case7 tok args dev updown hdev hup hdown hnone =>
    rw [sels_word hdev (by simp [updownWords, hup, hdown])]
    simp [hnone]

theorem linkSet_isSome_iff (sys : Sys) (args : List String) :
    (linkSet sys args).isSome ↔ ¬ Crowded (sels updownWords args) ∧
      .dev none ∉ sels updownWords args ∧ (∃ a ∈ sels updownWords args, a.names = true) ∧
      ∃ a ∈ sels updownWords args, a.isKeyword = true := by
  have h := linkSetLoop_iff args none none
  simp only [true_or, true_and, ne_eq, not_true_eq_false, false_or] at h
  rw [← h, linkSet]
  split
  · next name up heq => exact ⟨fun _ => ⟨name, up, heq⟩, fun _ => rfl⟩
  · next hno => exact ⟨nofun, fun ⟨name, up, heq⟩ => absurd heq (hno name up)⟩

/-! ### What the contract allows -/

theorem ne_dev_of_mem_showWords {w : String} (h : w ∈ showWords) : w ≠ "dev" := by
  rintro rfl
  exact absurd h (by decide)

/-- A selector is a keyword, names a device, or is a `dev` with nothing after it. -/
theorem Sel.cases_names (a : Sel) : (∃ w, a = .keyword w) ∨ a = .dev none ∨ a.names = true := by
  rcases a with w | (_ | name) | w
  · exact Or.inl ⟨w, rfl⟩
  · exact Or.inr (Or.inl rfl)
  · exact Or.inr (Or.inr rfl)
  · exact Or.inr (Or.inr rfl)

/-- An optional keyword, and after it an optional device. -/
theorem show_shape {ss : List Sel} (hdangling : .dev none ∉ ss) (hlate : ¬ LateKeyword ss)
    (htwo : ¬ TwoNames ss) :
    ss = [] ∨ (∃ w, ss = [.keyword w]) ∨ (∃ a, a.names = true ∧ ss = [a]) ∨
      ∃ w a, a.names = true ∧ ss = [.keyword w, a] := by
  have hnames : ∀ a b, [a, b].Sublist ss → b.names = true := by
    intro a b hab
    rcases b.cases_names with ⟨w, rfl⟩ | rfl | hb
    · exact absurd ⟨a, _, hab, rfl⟩ hlate
    · exact absurd (hab.subset (by simp)) hdangling
    · exact hb
  rcases ss with _ | ⟨a, _ | ⟨b, _ | ⟨c, rest⟩⟩⟩
  · exact Or.inl rfl
  · rcases a.cases_names with ⟨w, rfl⟩ | rfl | ha
    · exact Or.inr (Or.inl ⟨w, rfl⟩)
    · exact absurd (List.mem_singleton.mpr rfl) hdangling
    · exact Or.inr (Or.inr (Or.inl ⟨a, ha, rfl⟩))
  · have hb := hnames a b (List.Sublist.refl _)
    rcases a.cases_names with ⟨w, rfl⟩ | rfl | ha
    · exact Or.inr (Or.inr (Or.inr ⟨w, b, hb, rfl⟩))
    · exact absurd List.mem_cons_self hdangling
    · exact absurd ⟨a, b, List.Sublist.refl _, ha, hb⟩ htwo
  · have hb := hnames a b (by simp)
    have hc := hnames b c (by simp)
    exact absurd ⟨b, c, by simp, hb, hc⟩ htwo

theorem showForm_iff (args : List String) :
    ShowForm args ↔ .dev none ∉ sels showWords args ∧ ¬ LateKeyword (sels showWords args) ∧
      ¬ TwoNames (sels showWords args) ∧ ¬ ∃ w, Verb w ∧ sels showWords args = [.word w] := by
  constructor
  · intro h
    cases h with
    | nil => simp [LateKeyword, TwoNames, not_after_nil]
    | shown hw =>
      rw [sels_keyword (ne_dev_of_mem_showWords hw) hw]
      simp [LateKeyword, TwoNames, after_cons, not_after_nil]
    | dev name => simp [LateKeyword, TwoNames, after_cons, not_after_nil]
    | showDev hw name =>
      rw [sels_keyword (ne_dev_of_mem_showWords hw) hw]
      simp [LateKeyword, TwoNames, after_cons, not_after_nil]
    | bare hdev hshow hverb =>
      rw [sels_word hdev hshow]
      simp [LateKeyword, TwoNames, after_cons, not_after_nil, hverb]
    | showBare hw hdev hshow =>
      rw [sels_keyword (ne_dev_of_mem_showWords hw) hw, sels_word hdev hshow]
      simp [LateKeyword, TwoNames, after_cons, not_after_nil]
  · rintro ⟨hdangling, hlate, htwo, hverb⟩
    have hargs := render_sels showWords args
    have hkeyword : ∀ w, .keyword w ∈ sels showWords args → w ∈ showWords :=
      fun w => mem_keywords_of_mem_sels
    have hword : ∀ w, .word w ∈ sels showWords args → w ≠ "dev" ∧ w ∉ showWords :=
      fun w => not_mem_keywords_of_mem_sels
    rcases show_shape hdangling hlate htwo with hss | ⟨w, hss⟩ | ⟨a, ha, hss⟩ | ⟨w, a, ha, hss⟩ <;>
      rw [hss] at hargs hkeyword hword hverb <;> subst hargs
    · exact .nil
    · exact .shown (hkeyword w List.mem_cons_self)
    · rcases a with _ | (_ | name) | name
      · cases ha
      · cases ha
      · exact .dev name
      · obtain ⟨hdev, hshow⟩ := hword name List.mem_cons_self
        exact .bare hdev hshow fun h => hverb ⟨name, h, rfl⟩
    · have hw := hkeyword w List.mem_cons_self
      rcases a with _ | (_ | name) | name
      · cases ha
      · cases ha
      · exact .showDev hw name
      · obtain ⟨hdev, hshow⟩ := hword name (List.mem_cons_of_mem _ List.mem_cons_self)
        exact .showBare hw hdev hshow

theorem sels_append_keywords {keywords before : List String} (args : List String)
    (hbefore : ∀ w ∈ before, w ∈ keywords) (hdev : "dev" ∉ keywords) :
    sels keywords (before ++ args) = before.map .keyword ++ sels keywords args := by
  induction before with
  | nil => rfl
  | cons w before ih =>
    obtain ⟨hw, hbefore⟩ := List.forall_mem_cons.mp hbefore
    rw [List.cons_append, sels_keyword (fun h => hdev (h ▸ hw)) hw, ih hbefore]
    rfl

theorem countP_names_of_twoNames {ss : List Sel} (h : TwoNames ss) : 2 ≤ ss.countP Sel.names := by
  obtain ⟨a, b, hab, ha, hb⟩ := h
  calc 2 = [a, b].countP Sel.names := by simp [ha, hb]
    _ ≤ ss.countP Sel.names := hab.countP_le

theorem sels_setForm {before device after : List String}
    (hbefore : ∀ w ∈ before, w ∈ updownWords) (hafter : ∀ w ∈ after, w ∈ updownWords)
    (hdevice : (∃ name, device = ["dev", name]) ∨
      ∃ name, device = [name] ∧ name ≠ "dev" ∧ name ∉ updownWords) :
    ∃ a : Sel, a.names = true ∧ sels updownWords (before ++ device ++ after) =
      before.map .keyword ++ a :: after.map .keyword := by
  have hdev : "dev" ∉ updownWords := by decide
  have hsels : sels updownWords after = after.map .keyword := by
    have h := sels_append_keywords [] hafter hdev
    rwa [List.append_nil, sels_nil, List.append_nil] at h
  rw [List.append_assoc, sels_append_keywords _ hbefore hdev]
  rcases hdevice with ⟨name, rfl⟩ | ⟨name, rfl, hname, hword⟩
  · refine ⟨.dev (some name), rfl, ?_⟩
    rw [List.cons_append, List.cons_append, List.nil_append, sels_dev_cons, hsels]
  · refine ⟨.word name, rfl, ?_⟩
    rw [List.cons_append, List.nil_append, sels_word hname hword, hsels]

theorem setForm_of_split {before after : List Sel} {a : Sel} (hname : a.names = true)
    (hword : ∀ w, a = .word w → w ≠ "dev" ∧ w ∉ updownWords)
    (hothers : ∀ b ∈ before ++ after, ∃ w ∈ updownWords, b = .keyword w)
    (hne : before ++ after ≠ []) : SetForm ((before ++ a :: after).flatMap Sel.render) := by
  refine ⟨before.flatMap Sel.render, a.render, after.flatMap Sel.render, ?_, ?_, ?_, ?_⟩
  · rw [List.flatMap_append, List.flatMap_cons, List.append_assoc]
  · rw [← List.flatMap_append]
    intro w hw
    obtain ⟨b, hb, hw⟩ := List.mem_flatMap.mp hw
    obtain ⟨v, hv, rfl⟩ := hothers b hb
    rwa [List.mem_singleton.mp hw]
  · rw [← List.flatMap_append]
    obtain ⟨b, hb⟩ := List.exists_mem_of_ne_nil _ hne
    obtain ⟨v, -, rfl⟩ := hothers b hb
    exact List.ne_nil_of_mem (List.mem_flatMap.mpr ⟨_, hb, List.mem_singleton.mpr rfl⟩)
  · rcases a with _ | (_ | name) | name
    · cases hname
    · cases hname
    · exact Or.inl ⟨name, rfl⟩
    · exact Or.inr ⟨name, rfl, hword name rfl⟩

/-- Next to the only device there are keywords. -/
theorem keyword_of_mem_others {args : List String} {before after : List Sel} {a b : Sel}
    (hss : sels updownWords args = before ++ a :: after)
    (hdangling : .dev none ∉ sels updownWords args) (htwo : ¬ TwoNames (sels updownWords args))
    (hname : a.names = true) (hb : b ∈ before ++ after) : ∃ w ∈ updownWords, b = .keyword w := by
  have hmem : b ∈ sels updownWords args := by
    rw [hss]
    exact (List.mem_append.mp hb).elim (List.mem_append_left _)
      fun hb => List.mem_append_right _ (List.mem_cons_of_mem _ hb)
  rcases b.cases_names with ⟨w, rfl⟩ | rfl | hb'
  · exact ⟨w, mem_keywords_of_mem_sels hmem, rfl⟩
  · exact absurd hmem hdangling
  · refine absurd ?_ htwo
    rw [hss]
    rcases List.mem_append.mp hb with hb | hb
    · exact ⟨b, a, (List.singleton_sublist.mpr hb).append
        (List.singleton_sublist.mpr List.mem_cons_self), hb', hname⟩
    · exact ⟨a, b, ((List.singleton_sublist.mpr hb).cons_cons a).trans
        (List.sublist_append_right _ _), hname, hb'⟩

theorem setForm_iff (args : List String) :
    SetForm args ↔ .dev none ∉ sels updownWords args ∧
      (∃ a ∈ sels updownWords args, a.names = true) ∧
      (∃ a ∈ sels updownWords args, a.isKeyword = true) ∧ ¬ TwoNames (sels updownWords args) := by
  constructor
  · rintro ⟨before, device, after, rfl, hwords, hne, hdevice⟩
    obtain ⟨hbefore, hafter⟩ := List.forall_mem_append.mp hwords
    obtain ⟨a, ha, hss⟩ := sels_setForm hbefore hafter hdevice
    rw [hss]
    refine ⟨?_, ⟨a, by simp, ha⟩, ?_, fun htwo => ?_⟩
    · have hne : a ≠ .dev none := by
        rintro rfl
        cases ha
      simp [hne.symm]
    · obtain ⟨w, hw⟩ := List.exists_mem_of_ne_nil _ hne
      refine ⟨.keyword w, ?_, rfl⟩
      rcases List.mem_append.mp hw with hw | hw
      · exact List.mem_append_left _ (List.mem_map_of_mem hw)
      · exact List.mem_append_right _ (List.mem_cons_of_mem _ (List.mem_map_of_mem hw))
    · have hcount := countP_names_of_twoNames htwo
      have hkeywords : ∀ ws : List String, (ws.map Sel.keyword).countP Sel.names = 0 := by
        intro ws
        simp [List.countP_eq_zero]
      rw [List.countP_append, List.countP_cons, hkeywords, hkeywords, if_pos ha] at hcount
      omega
  · rintro ⟨hdangling, ⟨a, ha, hname⟩, ⟨k, hk, hkey⟩, htwo⟩
    obtain ⟨before, after, hss⟩ := List.append_of_mem ha
    have hka : k ≠ a := by
      rintro rfl
      cases k with
      | keyword => cases hname
      | _ => cases hkey
    have hk' : k ∈ before ++ after := by
      rw [hss] at hk
      simpa [hka] using hk
    rw [← render_sels updownWords args, hss]
    refine setForm_of_split hname ?_
      (fun b hb => keyword_of_mem_others hss hdangling htwo hname hb) (List.ne_nil_of_mem hk')
    rintro w rfl
    exact not_mem_keywords_of_mem_sels ha

/-! ### The difference -/

/-- Arguments of `addr` and `link` that are taken for a display and should not be: a
`dev` without a name, a show word after another word, a device that replaces another,
or a verb and nothing else. -/
def ShowMisread (args : List String) : Prop :=
  ¬ Crowded (sels showWords args) ∧
    (.dev none ∈ sels showWords args ∨ LateKeyword (sels showWords args) ∨
      TwoNames (sels showWords args) ∨ ∃ w, Verb w ∧ sels showWords args = [.word w])

/-- Arguments of `link set` that are carried out and should not be: a device that
replaces another. -/
def SetMisread (args : List String) : Prop :=
  ¬ Crowded (sels updownWords args) ∧ .dev none ∉ sels updownWords args ∧
    (∃ a ∈ sels updownWords args, a.isKeyword = true) ∧ TwoNames (sels updownWords args)

def LinkMisread (args : List String) : Prop :=
  args.head? ≠ some "set" ∧ ShowMisread args ∨ ∃ rest, args = "set" :: rest ∧ SetMisread rest

/-- Arguments of `route` that are ignored: what follows a show word. -/
def RouteMisread (args : List String) : Prop := ∃ w ∈ showWords, ∃ rest ≠ [], args = w :: rest

def Misread : List String → Prop
  | [] => False
  | sub :: args => sub ∈ addrWords ∧ ShowMisread args ∨ sub ∈ linkWords ∧ LinkMisread args ∨
      sub ∈ routeWords ∧ RouteMisread args

theorem show_iff (args : List String) :
    ((consumeDev args).isSome → ShowForm args) ↔ ¬ ShowMisread args := by
  rw [consumeDev_isSome_iff, showForm_iff, ShowMisread, not_and, not_or, not_or, not_or]

theorem set_iff (sys : Sys) (args : List String) :
    ((linkSet sys args).isSome → SetForm args) ↔ ¬ SetMisread args := by
  rw [linkSet_isSome_iff, setForm_iff, SetMisread]
  constructor
  · rintro h ⟨hcrowded, hdangling, hkey, htwo⟩
    obtain ⟨a, b, hab, ha, -⟩ := id htwo
    have hname : ∃ a ∈ sels updownWords args, a.names = true :=
      ⟨a, hab.subset List.mem_cons_self, ha⟩
    exact (h ⟨hcrowded, hdangling, hname, hkey⟩).2.2.2 htwo
  · rintro h ⟨hcrowded, hdangling, hname, hkey⟩
    exact ⟨hdangling, hname, hkey, fun htwo => h ⟨hcrowded, hdangling, hkey, htwo⟩⟩

theorem not_showForm_set (args : List String) : ¬ ShowForm ("set" :: args) := by
  have hshow : "set" ∉ showWords := by decide
  have hverb : Verb "set" := by decide
  intro h
  generalize hl : "set" :: args = l at h
  cases h with
  | nil => cases hl
  | dev => exact absurd (List.cons.inj hl).1 (by decide)
  | bare _ _ hbare => exact hbare ((List.cons.inj hl).1 ▸ hverb)
  | shown hw | showDev hw | showBare hw => exact hshow ((List.cons.inj hl).1 ▸ hw)

theorem link_iff (sys : Sys) (args : List String) :
    ((link sys args).isSome → LinkForm args) ↔ ¬ LinkMisread args := by
  by_cases hset : ∃ rest, args = "set" :: rest
  · obtain ⟨rest, rfl⟩ := hset
    have hlink : link sys ("set" :: rest) = linkSet sys rest := by rw [link, if_pos rfl]
    have hform : LinkForm ("set" :: rest) ↔ SetForm rest := by
      simp [LinkForm, not_showForm_set]
    have hmisread : LinkMisread ("set" :: rest) ↔ SetMisread rest := by simp [LinkMisread]
    rw [hlink, hform, hmisread, set_iff]
  · have hlink : (link sys args).isSome = (consumeDev args).isSome := by
      cases args with
      | nil => rfl
      | cons tok rest =>
        have htok : tok ≠ "set" := fun h => hset ⟨rest, by rw [h]⟩
        rw [link, if_neg htok, Option.isSome_map]
    have hform : LinkForm args ↔ ShowForm args :=
      or_iff_left fun ⟨rest, h, _⟩ => hset ⟨rest, h⟩
    have hhead : args.head? ≠ some "set" := by
      intro h
      obtain ⟨rest, rfl⟩ := List.head?_eq_some_iff.mp h
      exact hset ⟨rest, rfl⟩
    have hmisread : LinkMisread args ↔ ShowMisread args := by
      rw [LinkMisread, or_iff_left fun ⟨rest, h, _⟩ => hset ⟨rest, h⟩]
      exact and_iff_right hhead
    rw [hlink, hform, hmisread, show_iff]

theorem route_iff (sys : Sys) (args : List String) :
    ((route sys args).isSome → RouteForm args) ↔ ¬ RouteMisread args := by
  rcases args with _ | ⟨w, _ | ⟨v, rest⟩⟩
  · simp [RouteForm, RouteMisread]
  · by_cases hw : w ∈ showWords <;> simp [route, RouteForm, RouteMisread, hw]
  · by_cases hw : w ∈ showWords <;> simp [route, RouteForm, RouteMisread, hw]

theorem not_mem_of_mem_addrWords {sub : String} (h : sub ∈ addrWords) :
    sub ∉ linkWords ∧ sub ∉ routeWords := by
  revert sub
  decide

theorem not_mem_of_mem_linkWords {sub : String} (h : sub ∈ linkWords) : sub ∉ routeWords := by
  revert sub
  decide

/-- **A call is handled only if the contract allows it**, exactly when it is not one
that is misread. -/
theorem handled_allowed_iff (sys : Sys) (argv : List String) :
    ((run sys argv).isSome → Allowed (strip argv)) ↔ ¬ Misread (strip argv) := by
  rw [run]
  rcases strip argv with _ | ⟨sub, args⟩
  · simp [Misread]
  · rw [Allowed, Misread]
    dsimp only
    by_cases haddr : sub ∈ addrWords
    · obtain ⟨hlink, hroute⟩ := not_mem_of_mem_addrWords haddr
      simp only [haddr, hlink, hroute, if_true, Option.isSome_map, true_and, false_and, or_false]
      exact show_iff args
    · by_cases hlink : sub ∈ linkWords
      · have hroute := not_mem_of_mem_linkWords hlink
        simp only [haddr, hlink, hroute, if_true, if_false, true_and, false_and, or_false,
          false_or]
        exact link_iff sys args
      · by_cases hroute : sub ∈ routeWords
        · simp only [haddr, hlink, hroute, if_true, if_false, true_and, false_and, false_or]
          exact route_iff sys args
        · simp [haddr, hlink, hroute]

/-- `ip addr flush dev eth0` shows the addresses it should delete. -/
theorem addr_flush_handled :
    ¬ ∀ sys : Sys, (run sys ["ip", "addr", "flush", "dev", "eth0"]).isSome →
      Allowed (strip ["ip", "addr", "flush", "dev", "eth0"]) := by
  intro h
  have hallowed : Allowed ["addr", "flush", "dev", "eth0"] :=
    h ⟨fun _ => 0, fun _ => 0, fun _ _ => 0, 0⟩ (by decide)
  rcases hallowed with ⟨_, hshow⟩ | ⟨hsub, _⟩ | ⟨hsub, _⟩
  · have htwo : TwoNames (sels showWords ["flush", "dev", "eth0"]) :=
      ⟨.word "flush", .dev (some "eth0"), by decide, rfl, rfl⟩
    exact ((showForm_iff _).mp hshow).2.2.1 htwo
  · exact absurd hsub (by decide)
  · exact absurd hsub (by decide)

end Rustybox.Ip
