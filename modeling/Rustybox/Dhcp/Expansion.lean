import Rustybox.Dhcp.Spelling

/-!
# Expanding a list of compressed names

The loop of `dname_dec`, over a list whose names are known.  Both of its passes are followed at
once: `Decoding.after` are its variables after some text, without a buffer or with one.
-/

namespace Rustybox.Dhcp

open Rustybox.Rust

/-- The labels of a name, each with a dot behind it. -/
def dotted (ls : List Str) : List UInt8 := ls.flatMap (· ++ [dot])

/-- What the loop writes for a name: its last dot has become a space. -/
def expanded (ls : List Str) : List UInt8 := (dotted ls).dropLast ++ [space]

theorem dotted_cons (l : Str) (ls : List Str) : dotted (l :: ls) = l ++ [dot] ++ dotted ls :=
  List.flatMap_cons

theorem append_dotted_cons (text : List UInt8) (l : Str) (ls : List Str) :
    text ++ dotted (l :: ls) = text ++ (l ++ [dot]) ++ dotted ls := by
  rw [dotted_cons, List.append_assoc text]

theorem dotted_ne_nil {ls : List Str} (h : ls ≠ []) : dotted ls ≠ [] := by
  cases ls with
  | nil => exact absurd rfl h
  | cons l ls =>
    rw [dotted_cons]
    exact List.append_ne_nil_of_left_ne_nil
      (List.append_ne_nil_of_right_ne_nil _ (List.cons_ne_nil dot [])) _

theorem expanded_length {ls : List Str} (h : ls ≠ []) :
    (expanded ls).length = (dotted ls).length := by
  have hpos := List.length_pos_of_ne_nil (dotted_ne_nil h)
  rw [expanded, List.length_append, List.length_dropLast, List.length_singleton]
  omega

/-! ### The variables after some text -/

/-- The variables of `dname_dec` after some text, where the buffer, if there is one, had `g` in it
at first. -/
def Decoding.after (g : Option (List UInt8)) (text : List UInt8) (crtpos retpos depth : ℕ) :
    Decoding :=
  { crtpos, retpos, depth, len := text.length, dst := g.map fun g => text ++ g.drop text.length }

/-- There is room for `n` bytes, if there is a buffer. -/
def Room (g : Option (List UInt8)) (n : ℕ) : Prop := ∀ b, g = some b → n ≤ b.length

theorem Room.le {g : Option (List UInt8)} {n m : ℕ} (h : Room g n) (hle : m ≤ n) : Room g m :=
  fun b hb => hle.trans (h b hb)

theorem writeAt_after {text data g : List UInt8} (h : (text ++ data).length ≤ g.length) :
    writeAt (text ++ g.drop text.length) text.length data =
      some (text ++ data ++ g.drop (text ++ data).length) := by
  rw [List.length_append] at h
  rw [writeAt_of_le (by rw [List.length_append, List.length_drop]; omega),
    List.take_left, List.length_append, List.drop_append,
    List.drop_of_length_le (Nat.le_add_right _ _), List.nil_append, List.drop_drop]
  congr 3
  omega

theorem writeAt_last {text g : List UInt8} {c : UInt8} (hne : text ≠ []) :
    writeAt (text ++ g.drop text.length) (text.length - 1) [c] =
      some (text.dropLast ++ [c] ++ g.drop (text.dropLast ++ [c]).length) := by
  have hpos := List.length_pos_of_ne_nil hne
  have hlen : text.length - 1 + [c].length = text.length := by
    rw [List.length_singleton]
    omega
  have hlast : (text.dropLast ++ [c]).length = text.length := by
    rw [List.length_append, List.length_dropLast, hlen]
  rw [writeAt_of_le (by rw [hlen, List.length_append]; omega), hlen, hlast, List.drop_left,
    List.take_append_of_le_length (Nat.sub_le _ _), List.dropLast_eq_take]

theorem moves_label {cstr : List UInt8} {g : Option (List UInt8)} {text : List UInt8}
    {o ret dep : ℕ} {l : Str} (hl : Proper l) (hat : wireLabel l <+: cstr.drop o)
    (hroom : Room g (text ++ (l ++ [dot])).length) :
    Moves cstr (.after g text o ret dep)
      (.after g (text ++ (l ++ [dot])) (o + (l.length + 1)) ret dep) := by
  have hc := getElem?_of_isPrefix hat
  have hle := label_length hat
  have hread : readAt cstr (o + 1) l.length = some l := by
    obtain ⟨rest, hrest⟩ := hat
    rw [readAt_of_le (by omega), ← List.drop_drop, ← hrest, wireLabel, List.cons_append,
      List.drop_one, List.tail_cons, List.take_left]
  have hcopy : copyLabel cstr (.after g text o ret dep) (UInt8.ofNat l.length) =
      some (g.map fun g => text ++ (l ++ [dot]) ++ g.drop (text ++ (l ++ [dot])).length) := by
    cases g with
    | none => rfl
    | some b =>
      simp only [copyLabel, Decoding.after, Option.map_some, hl.toNat, hread,
        Option.bind_eq_bind, Option.bind_some, writeAt_after (hroom b rfl)]
      rfl
  have hmoves := Moves.label hc hl.unmarked hl.ne_zero (by rw [hl.toNat]; exact hle) hcopy
  have hlen : (text ++ (l ++ [dot])).length = text.length + (l.length + 1) := by
    rw [List.length_append, List.length_append, List.length_singleton]
  rw [hl.toNat] at hmoves
  have hpass : (Decoding.after g text o ret dep).pass l.length
        (g.map fun g => text ++ (l ++ [dot]) ++ g.drop (text ++ (l ++ [dot])).length) =
      .after g (text ++ (l ++ [dot])) (o + (l.length + 1)) ret dep := by
    simp only [Decoding.pass, Decoding.after, hlen]
  rw [hpass] at hmoves
  exact hmoves

theorem moves_pointer {cstr : List UInt8} {g : Option (List UInt8)} {text : List UInt8}
    {o ret dep : ℕ} {c c' : UInt8} (hc : cstr[o]? = some c) (hmark : c &&& 0xc0 = 0xc0)
    (hc' : cstr[o + 1]? = some c') :
    Moves cstr (.after g text o ret dep)
      (.after g text (pointee c c') (if ret = 0 then o + 2 else ret) (dep + 1)) :=
  .pointer hc hmark hc'

theorem moves_nul {cstr : List UInt8} {g : Option (List UInt8)} {text : List UInt8}
    {o ret dep : ℕ} (hc : cstr[o]? = some 0) (hne : text ≠ []) (hdep : ret = 0 → dep = 0) :
    Moves cstr (.after g text o ret dep)
      (.after g (text.dropLast ++ [space]) (if ret = 0 then o + 1 else ret) 0 0) := by
  have hpos := List.length_pos_of_ne_nil hne
  have hlast : (text.dropLast ++ [space]).length = text.length := by
    rw [List.length_append, List.length_dropLast, List.length_singleton]
    omega
  have hend : endName (.after g text o ret dep) =
      some (g.map fun g =>
        text.dropLast ++ [space] ++ g.drop (text.dropLast ++ [space]).length) := by
    cases g with
    | none => rfl
    | some b =>
      simp only [endName, Decoding.after, Option.map_some, Option.bind_eq_bind,
        writeAt_last hne, Option.bind_some, if_neg hpos.ne']
      rfl
  have hmoves := Moves.nul hc hend
  have hback : (Decoding.after g text o ret dep).back
        (g.map fun g => text.dropLast ++ [space] ++ g.drop (text.dropLast ++ [space]).length) =
      .after g (text.dropLast ++ [space]) (if ret = 0 then o + 1 else ret) 0 0 := by
    by_cases hret : ret = 0
    · simp only [Decoding.back, Decoding.after, hret, hdep hret, if_true, hlast]
    · simp only [Decoding.back, Decoding.after, hret, if_false, hlast]
  rw [hback] at hmoves
  exact hmoves

/-! ### A name -/

theorem decodePass_label {cstr : List UInt8} {g : Option (List UInt8)} {text : List UInt8}
    {o ret dep : ℕ} {l : Str} {ls : List Str} (hl : Proper l) (hat : wireLabel l <+: cstr.drop o)
    (hdep : dep ≤ 6) (hlen : (text ++ dotted (l :: ls)).length ≤ 1025 * 6)
    (hroom : Room g (text ++ dotted (l :: ls)).length) :
    decodePass cstr (.after g text o ret dep) =
      decodePass cstr (.after g (text ++ (l ++ [dot])) (o + (l.length + 1)) ret dep) := by
  have hle : (text ++ (l ++ [dot])).length ≤ (text ++ dotted (l :: ls)).length := by
    rw [append_dotted_cons, @List.length_append _ (text ++ (l ++ [dot]))]
    exact Nat.le_add_right _ _
  exact decodePass_of_moves (moves_label hl hat (hroom.le hle)) hdep (hle.trans hlen)

theorem decodePass_nul {cstr : List UInt8} {g : Option (List UInt8)} {text : List UInt8}
    {o ret dep : ℕ} (hc : cstr[o]? = some 0) (hne : text ≠ []) (hlen : text.length ≤ 1025 * 6)
    (hdep : ret = 0 → dep = 0) :
    decodePass cstr (.after g text o ret dep) =
      decodePass cstr
        (.after g (text.dropLast ++ [space]) (if ret = 0 then o + 1 else ret) 0 0) := by
  have hlast : (text.dropLast ++ [space]).length ≤ 1025 * 6 := by
    have hpos := List.length_pos_of_ne_nil hne
    rw [List.length_append, List.length_dropLast, List.length_singleton]
    omega
  exact decodePass_of_moves (moves_nul hc hne hdep) (Nat.zero_le 6) hlast

/-- A name that a pointer has led to.  At its end the loop goes back to where the pointer is, if
there have not been too many of them. -/
theorem decodePass_spelled {cstr : List UInt8} {o : ℕ} {ls : List Str} {n : ℕ}
    (h : Spelled cstr o ls n) {g : Option (List UInt8)} {text : List UInt8} {ret dep : ℕ}
    (hret : ret ≠ 0) (hdep : dep ≤ 6) (hne : text ++ dotted ls ≠ [])
    (hlen : (text ++ dotted ls).length ≤ 1025 * 6) (hroom : Room g (text ++ dotted ls).length) :
    decodePass cstr (.after g text o ret dep) =
      if dep + n ≤ 6 then
        decodePass cstr (.after g ((text ++ dotted ls).dropLast ++ [space]) ret 0 0)
      else some none := by
  induction h generalizing text dep with
  | nul hc =>
    rw [dotted, List.flatMap_nil, List.append_nil] at hne hlen ⊢
    rw [decodePass_nul hc hne hlen fun h => absurd h hret, if_neg hret, Nat.add_zero, if_pos hdep]
  | @label o l ls n hl hat _ ih =>
    rw [decodePass_label hl hat hdep hlen hroom]
    rw [append_dotted_cons] at hne hlen hroom ⊢
    exact ih hdep hne hlen hroom
  | @pointer o c c' ls n hc hmark hc' _ _ ih =>
    have hmoves := @moves_pointer cstr g text o ret dep c c' hc hmark hc'
    rw [if_neg hret] at hmoves
    have hle : text.length ≤ 1025 * 6 := by
      rw [List.length_append] at hlen
      omega
    by_cases hdeep : dep + 1 ≤ 6
    · rw [decodePass_of_moves hmoves hdeep hle, ih hdeep hne hlen hroom, Nat.add_assoc dep 1 n,
        Nat.add_comm 1 n]
    · rw [decodePass_of_deep hmoves (Nat.lt_of_not_le hdeep), if_neg (by omega)]

/-- A name in the list itself, from its first place to the place behind it. -/
inductive Listed (cstr : List UInt8) : ℕ → List Str → ℕ → ℕ → Prop
  | nul {o : ℕ} (hc : cstr[o]? = some 0) : Listed cstr o [] 0 (o + 1)
  | label {o : ℕ} {l : Str} {ls : List Str} {n e : ℕ} (hl : Proper l)
      (hat : wireLabel l <+: cstr.drop o) (hrest : Listed cstr (o + (l.length + 1)) ls n e) :
      Listed cstr o (l :: ls) n e
  | pointer {o : ℕ} {c c' : UInt8} {ls : List Str} {n : ℕ} (hc : cstr[o]? = some c)
      (hmark : c &&& 0xc0 = 0xc0) (hc' : cstr[o + 1]? = some c')
      (hjump : jumpTo cstr (pointee c c') = some (pointee c c'))
      (hrest : Spelled cstr (pointee c c') ls n) : Listed cstr o ls (n + 1) (o + 2)

theorem Listed.spelled {cstr : List UInt8} {o : ℕ} {ls : List Str} {n e : ℕ}
    (h : Listed cstr o ls n e) : Spelled cstr o ls n := by
  induction h with
  | nul hc => exact .nul hc
  | label hl hat _ ih => exact .label hl hat ih
  | pointer hc hmark hc' hjump hrest => exact .pointer hc hmark hc' hjump hrest

theorem Listed.append {cstr : List UInt8} {o : ℕ} {ls : List Str} {n e : ℕ}
    (h : Listed cstr o ls n e) (rest : List UInt8) : Listed (cstr ++ rest) o ls n e := by
  induction h with
  | nul hc => exact .nul (getElem?_append_of_some hc)
  | label hl hat _ ih => exact .label hl (isPrefix_append_drop hat) ih
  | pointer hc hmark hc' hjump hrest =>
    exact .pointer (getElem?_append_of_some hc) hmark (getElem?_append_of_some hc')
      (jumpTo_append hjump) (hrest.append rest)

/-- A name in the list itself: the loop comes to what is behind it, if there have not been too many
pointers. -/
theorem decodePass_listed {cstr : List UInt8} {o : ℕ} {ls : List Str} {n e : ℕ}
    (h : Listed cstr o ls n e) {g : Option (List UInt8)} {text : List UInt8}
    (hne : text ++ dotted ls ≠ []) (hlen : (text ++ dotted ls).length ≤ 1025 * 6)
    (hroom : Room g (text ++ dotted ls).length) :
    decodePass cstr (.after g text o 0 0) =
      if n ≤ 6 then decodePass cstr (.after g ((text ++ dotted ls).dropLast ++ [space]) e 0 0)
      else some none := by
  induction h generalizing text with
  | nul hc =>
    rw [dotted, List.flatMap_nil, List.append_nil] at hne hlen ⊢
    rw [decodePass_nul hc hne hlen fun _ => rfl, if_pos rfl, if_pos (Nat.zero_le 6)]
  | @label o l ls n e hl hat _ ih =>
    rw [decodePass_label hl hat (Nat.zero_le 6) hlen hroom]
    rw [append_dotted_cons] at hne hlen hroom ⊢
    exact ih hne hlen hroom
  | @pointer o c c' ls n hc hmark hc' _ hrest =>
    have hmoves := @moves_pointer cstr g text o 0 0 c c' hc hmark hc'
    rw [if_pos rfl] at hmoves
    have hle : text.length ≤ 1025 * 6 := by
      rw [List.length_append] at hlen
      omega
    rw [decodePass_of_moves hmoves (by decide : 1 ≤ 6) hle,
      decodePass_spelled hrest (Nat.succ_ne_zero _) (by decide) hne hlen hroom,
      Nat.zero_add, Nat.add_comm 1 n]

/-! ### A list of names -/

/-- From a place on there are these names, each with how many pointers lead through it. -/
inductive Lists (cstr : List UInt8) : ℕ → List (List Str × ℕ) → Prop
  | done : Lists cstr cstr.length []
  | name {o e : ℕ} {ls : List Str} {n : ℕ} {names : List (List Str × ℕ)}
      (h : Listed cstr o ls n e) (hrest : Lists cstr e names) : Lists cstr o ((ls, n) :: names)

theorem Lists.append {cstr : List UInt8} {o : ℕ} {names : List (List Str × ℕ)}
    (h : Lists cstr o names) {rest : List UInt8} {names' : List (List Str × ℕ)}
    (h' : Lists (cstr ++ rest) cstr.length names') : Lists (cstr ++ rest) o (names ++ names') := by
  induction h with
  | done => exact h'
  | name h _ ih => exact .name (h.append rest) ih

/-- What the loop writes for a list of names. -/
def expandedAll (names : List (List Str × ℕ)) : List UInt8 := names.flatMap fun p => expanded p.1

/-- **The loop** expands all of the names, if there are not too many pointers in any of them. -/
theorem decodePass_lists {cstr : List UInt8} {o : ℕ} {names : List (List Str × ℕ)}
    (h : Lists cstr o names) {g : Option (List UInt8)} {text : List UInt8}
    (hne : ∀ p ∈ names, p.1 ≠ []) (hlen : (text ++ expandedAll names).length ≤ 1025 * 6)
    (hroom : Room g (text ++ expandedAll names).length) :
    decodePass cstr (.after g text o 0 0) =
      if ∀ p ∈ names, p.2 ≤ 6 then
        some (some (.after g (text ++ expandedAll names) cstr.length 0 0))
      else some none := by
  induction h generalizing text with
  | done =>
    have hend : ¬ (Decoding.after g text cstr.length 0 0).crtpos < cstr.length := Nat.lt_irrefl _
    rw [decodePass, if_neg hend, if_pos fun p hp => absurd hp List.not_mem_nil, expandedAll,
      List.flatMap_nil, List.append_nil]
  | @name o e ls n names h _ ih =>
    have hls := hne _ List.mem_cons_self
    have hcons : text ++ expandedAll ((ls, n) :: names) =
        (text ++ dotted ls).dropLast ++ [space] ++ expandedAll names := by
      rw [List.dropLast_append_of_ne_nil (dotted_ne_nil hls), expandedAll, List.flatMap_cons,
        expanded, expandedAll]
      simp only [List.append_assoc]
    have hfirst : (text ++ dotted ls).length ≤ (text ++ expandedAll ((ls, n) :: names)).length := by
      rw [expandedAll, List.flatMap_cons, List.length_append, List.length_append,
        List.length_append, expanded_length hls]
      exact Nat.add_le_add_left (Nat.le_add_right _ _) _
    rw [decodePass_listed h (List.append_ne_nil_of_right_ne_nil _ (dotted_ne_nil hls))
      (hfirst.trans hlen) (hroom.le hfirst)]
    rw [hcons] at hlen hroom ⊢
    by_cases hdeep : n ≤ 6
    · rw [if_pos hdeep, ih (fun p hp => hne p (List.mem_cons_of_mem _ hp)) hlen hroom]
      simp only [List.forall_mem_cons, hdeep, true_and]
    · rw [if_neg hdeep, if_neg fun hall => hdeep (hall _ List.mem_cons_self)]

/-- **`dname_dec`** of a list of names. -/
theorem dnameDec_lists {cstr : List UInt8} {names : List (List Str × ℕ)} (h : Lists cstr 0 names)
    (hnames : names ≠ []) (hne : ∀ p ∈ names, p.1 ≠ [])
    (hlen : (expandedAll names).length ≤ 1025 * 6) (pre : Str) (garbage : ℕ → UInt8) :
    dnameDec cstr pre garbage =
      some (if ∀ p ∈ names, p.2 ≤ 6 then some (pre ++ ((expandedAll names).dropLast ++ [0]))
        else none) := by
  have hfirst := @decodePass_lists cstr 0 names h none [] hne hlen fun b hb => by cases hb
  have hstart : Decoding.start none = .after none [] 0 0 0 := rfl
  rw [dnameDec, hstart, hfirst]
  by_cases hall : ∀ p ∈ names, p.2 ≤ 6
  · have htext : expandedAll names ≠ [] := by
      obtain ⟨p, rest, rfl⟩ := List.exists_cons_of_ne_nil hnames
      rw [expandedAll, List.flatMap_cons]
      exact List.append_ne_nil_of_left_ne_nil
        (List.append_ne_nil_of_right_ne_nil _ (List.cons_ne_nil space [])) _
    have hpos := List.length_pos_of_ne_nil htext
    have hgarbage : ((List.range (expandedAll names).length).map garbage).length =
        (expandedAll names).length := by rw [List.length_map, List.length_range]
    have hsecond := @decodePass_lists cstr 0 names h
      (some ((List.range (expandedAll names).length).map garbage)) [] hne hlen fun b hb => by
        cases hb
        exact Nat.le_of_eq hgarbage.symm
    have hstart' (b : List UInt8) : Decoding.start (some b) = .after (some b) [] 0 0 0 := rfl
    rw [if_pos hall] at hsecond
    simp only [if_pos hall, Option.bind_eq_bind, Option.bind_some, List.nil_append, hstart',
      Decoding.after, if_neg hpos.ne'] at hsecond ⊢
    rw [hsecond]
    simp only [Option.bind_some, if_neg hpos.ne', Option.map_some, writeAt_last htext,
      Option.pure_def]
    rw [List.drop_of_length_le, List.append_nil]
    rw [hgarbage, List.length_append, List.length_dropLast, List.length_singleton]
    omega
  · rw [if_neg hall, if_neg hall]
    rfl

end Rustybox.Dhcp
