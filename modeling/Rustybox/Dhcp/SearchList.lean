import Mathlib.Data.List.Basic
import Rustybox.Dhcp.Expansion

/-!
# Domain search lists

What `dname_dec` makes of the names that `dname_enc` has put into a list one after the other.

The encoder compresses a name against all the names before it: from the longest of its ends that
one of them has, it writes a pointer to the first name that has it.  That name may itself end in a
pointer, so `hopsOf` counts how many of them the decoder has to follow.  `Encoded` is what is known
of a list of names: the places that the encoder looks at, the names that the decoder finds, and
that both of them count the same pointers.
-/

namespace Rustybox.Dhcp

open Rustybox.Rust

/-! ### Counting the pointers -/

/-- The first of the earlier names that ends in these labels. -/
def firstEnding (earlier : List (List Str × ℕ)) (ls : List Str) : Option (List Str × ℕ) :=
  earlier.find? fun p => ls <:+ p.1

/-- How many pointers lead through a name that comes behind the earlier ones: none, if it shares no
end with one of them, and otherwise one more than lead through the first name that has the longest
of the shared ends. -/
def hopsOf (earlier : List (List Str × ℕ)) : List Str → ℕ
  | [] => 0
  | l :: ls =>
    match firstEnding earlier (l :: ls) with
    | some p => p.2 + 1
    | none => hopsOf earlier ls

/-- Each of the names with its number of pointers. -/
def withHops (earlier : List (List Str × ℕ)) : List (List Str) → List (List Str × ℕ)
  | [] => earlier
  | ls :: rest => withHops (earlier ++ [(ls, hopsOf earlier ls)]) rest

/-! ### What the encoder writes -/

/-- The rest of a name after compression. -/
def compress (spots : List Spot) : List Str → List UInt8
  | [] => [0]
  | l :: ls =>
    match findSpot spots (l :: ls) with
    | some spot => pointer spot.off
    | none => wireLabel l ++ compress spots ls

/-- How many pointers lead through it. -/
def compressedHops (spots : List Spot) : List Str → ℕ
  | [] => 0
  | l :: ls =>
    match findSpot spots (l :: ls) with
    | some spot => spot.hops + 1
    | none => compressedHops spots ls

/-- The places where its labels start. -/
def newSpots (spots : List Spot) (o : ℕ) : List Str → List Spot
  | [] => []
  | l :: ls =>
    match findSpot spots (l :: ls) with
    | some _ => []
    | none => ⟨o, l :: ls, compressedHops spots ls⟩ :: newSpots spots (o + (l.length + 1)) ls

theorem compress_length (spots : List Spot) (ls : List Str) :
    (compress spots ls).length ≤ (dotted ls).length + 1 := by
  induction ls with
  | nil => exact Nat.le_refl 1
  | cons l ls ih =>
    rw [compress, dotted_cons, List.length_append, List.length_append, List.length_singleton]
    cases findSpot spots (l :: ls) with
    | none =>
      dsimp only
      rw [List.length_append, wireLabel_length]
      omega
    | some spot =>
      have hpointer : (pointer spot.off).length = 2 := rfl
      dsimp only
      rw [hpointer]
      omega

theorem findOffset_elim {cstr : Option (List UInt8)} {spots : List Spot}
    (h : Spotted (cstr.getD []) 0 spots) {ls : List Str} (hls : ∀ l ∈ ls, Proper l) :
    cstr.elim (some none) (findOffset · (wire ls) 0) =
      some ((findSpot spots ls).map Spot.off) := by
  have hfind := findOffset_spotted h hls
  cases cstr with
  | none =>
    have hempty : ¬ 0 < ([] : List UInt8).length := Nat.lt_irrefl 0
    rw [Option.getD_none, findOffset, dif_neg hempty] at hfind
    exact hfind
  | some cstr => exact hfind

/-- **The loop of `dname_enc`** writes the compressed name. -/
theorem encodeLoop_spotted {cstr : Option (List UInt8)} {spots : List Spot}
    (h : Spotted (cstr.getD []) 0 spots) {ls : List Str} (hls : ∀ l ∈ ls, Proper l)
    (front : List UInt8) :
    encodeLoop cstr front (wire ls) = some (front ++ compress spots ls) := by
  induction ls generalizing front with
  | nil =>
    rw [wire, List.flatMap_nil, List.nil_append, encodeLoop, if_pos rfl, compress]
  | cons l ls ih =>
    have hl := hls l List.mem_cons_self
    have hfind := findOffset_elim h hls
    rw [wire_cons, wireLabel, List.cons_append] at hfind ⊢
    rw [encodeLoop, if_neg hl.ne_zero, hfind, compress]
    cases findSpot spots (l :: ls) with
    | some spot => rfl
    | none =>
      have htake : (UInt8.ofNat l.length :: (l ++ wire ls)).take (l.length + 1) = wireLabel l := by
        rw [List.take_succ_cons, List.take_left, wireLabel]
      have hdrop : (l ++ wire ls).drop l.length = wire ls := List.drop_left
      dsimp only [Option.map_none]
      rw [hl.toNat, htake, hdrop, ih fun x hx => hls x (List.mem_cons_of_mem l hx),
        List.append_assoc]

/-! ### What the decoder finds -/

/-- The places that a pointer can lead to. -/
def Reachable (cstr : List UInt8) (spots : List Spot) : Prop :=
  ∀ spot ∈ spots, spot.off < 2 ^ 14 ∧ jumpTo cstr spot.off = some spot.off ∧
    Spelled cstr spot.off spot.labels spot.hops

theorem pointer_last {cstr : List UInt8} {o off : ℕ} (h : cstr.drop o = pointer off) :
    cstr[o]? = some (UInt8.ofNat (0xc0 ||| off >>> 8)) ∧ cstr[o + 1]? = some (UInt8.ofNat off) ∧
      o + 2 = cstr.length := by
  have hlen := congrArg List.length h
  have hfirst := @List.getElem?_drop _ cstr o 0
  have hsecond := @List.getElem?_drop _ cstr o 1
  rw [h] at hfirst hsecond
  rw [List.length_drop, pointer, List.length_cons, List.length_singleton] at hlen
  exact ⟨hfirst.symm, hsecond.symm, by omega⟩

theorem nul_last {cstr : List UInt8} {o : ℕ} (h : cstr.drop o = [0]) :
    cstr[o]? = some 0 ∧ o + 1 = cstr.length := by
  have hlen := congrArg List.length h
  have hfirst := @List.getElem?_drop _ cstr o 0
  rw [h] at hfirst
  rw [List.length_drop, List.length_singleton] at hlen
  exact ⟨hfirst.symm, by omega⟩

theorem label_front {cstr rest : List UInt8} {o : ℕ} {l : Str}
    (h : cstr.drop o = wireLabel l ++ rest) :
    wireLabel l <+: cstr.drop o ∧ cstr.drop (o + (l.length + 1)) = rest := by
  refine ⟨⟨rest, h.symm⟩, ?_⟩
  rw [← List.drop_drop, h, ← wireLabel_length, List.drop_left]

/-- **The decoder finds the compressed name** at the end of the list. -/
theorem listed_compress {cstr : List UInt8} {spots : List Spot} (hspots : Reachable cstr spots)
    {ls : List Str} (hls : ∀ l ∈ ls, Proper l) {o : ℕ} (h : cstr.drop o = compress spots ls) :
    Listed cstr o ls (compressedHops spots ls) cstr.length := by
  induction ls generalizing o with
  | nil =>
    obtain ⟨hc, he⟩ := nul_last h
    rw [← he, compressedHops]
    exact .nul hc
  | cons l ls ih =>
    rw [compress] at h
    rw [compressedHops]
    cases hfind : findSpot spots (l :: ls) with
    | some spot =>
      rw [hfind] at h
      obtain ⟨hc, hc', he⟩ := pointer_last h
      obtain ⟨hmem, hlabels⟩ := findSpot_some hfind
      obtain ⟨hoff, hjump, hspelled⟩ := hspots spot hmem
      obtain ⟨hmark, hpointee⟩ := pointee_pointer hoff
      rw [hlabels] at hspelled
      rw [← hpointee] at hjump hspelled
      rw [← he]
      exact .pointer hc hmark hc' hjump hspelled
    | none =>
      rw [hfind] at h
      obtain ⟨hat, hdrop⟩ := label_front h
      exact .label (hls l List.mem_cons_self) hat
        (ih (fun x hx => hls x (List.mem_cons_of_mem l hx)) hdrop)

/-- **The encoder will look at** the places where its labels start. -/
theorem spotted_compress {cstr : List UInt8} {spots : List Spot} (hspots : Reachable cstr spots)
    {ls : List Str} (hls : ∀ l ∈ ls, Proper l) {o : ℕ} (h : cstr.drop o = compress spots ls) :
    Spotted cstr o (newSpots spots o ls) := by
  induction ls generalizing o with
  | nil =>
    obtain ⟨hc, he⟩ := nul_last h
    rw [newSpots]
    refine .nul hc ?_
    rw [he]
    exact .done
  | cons l ls ih =>
    have hlisted := listed_compress hspots hls h
    rw [compress] at h
    rw [compressedHops] at hlisted
    rw [newSpots]
    cases hfind : findSpot spots (l :: ls) with
    | some spot =>
      rw [hfind] at h
      obtain ⟨hc, -, he⟩ := pointer_last h
      obtain ⟨hoff, -⟩ := hspots spot (findSpot_some hfind).1
      refine .pointer hc (pointee_pointer hoff).1 ?_
      rw [he]
      exact .done
    | none =>
      rw [hfind] at h hlisted
      obtain ⟨hat, hdrop⟩ := label_front h
      exact .label (hls l List.mem_cons_self) hat hlisted.spelled
        (ih (fun x hx => hls x (List.mem_cons_of_mem l hx)) hdrop)

/-! ### The first place and the first name -/

/-- The first place where some labels are spelled is in the first name that ends in them. -/
def Indexed (spots : List Spot) (names : List (List Str × ℕ)) : Prop :=
  ∀ ls ≠ [], (findSpot spots ls).map Spot.hops = (firstEnding names ls).map Prod.snd

theorem compressedHops_eq {spots : List Spot} {names : List (List Str × ℕ)}
    (h : Indexed spots names) (ls : List Str) : compressedHops spots ls = hopsOf names ls := by
  induction ls with
  | nil => rfl
  | cons l ls ih =>
    have hfirst := h (l :: ls) (List.cons_ne_nil l ls)
    rw [compressedHops, hopsOf]
    cases hspot : findSpot spots (l :: ls) with
    | some spot =>
      cases hname : firstEnding names (l :: ls) with
      | some p =>
        rw [hspot, hname] at hfirst
        exact congrArg (· + 1) (Option.some.inj hfirst)
      | none =>
        rw [hspot, hname] at hfirst
        cases hfirst
    | none =>
      cases hname : firstEnding names (l :: ls) with
      | some p =>
        rw [hspot, hname] at hfirst
        cases hfirst
      | none => exact ih

/-- What is not spelled before a name is spelled in it, if it ends in it. -/
theorem findSpot_newSpots {spots : List Spot} {names : List (List Str × ℕ)}
    (h : Indexed spots names) {ds : List Str} (hds : ds ≠ []) (hnone : firstEnding names ds = none)
    (ls : List Str) (o : ℕ) :
    (findSpot (newSpots spots o ls) ds).map Spot.hops =
      if ds <:+ ls then some (compressedHops spots ls) else none := by
  induction ls generalizing o with
  | nil =>
    rw [if_neg fun hsuffix => hds (List.suffix_nil.mp hsuffix), newSpots, findSpot,
      List.find?_nil, Option.map_none]
  | cons l ls ih =>
    rw [newSpots, compressedHops]
    cases hspot : findSpot spots (l :: ls) with
    | some spot =>
      -- the name that has this end has every end of it, and so it would have this one
      have hfirst := h (l :: ls) (List.cons_ne_nil l ls)
      rw [hspot, Option.map_some] at hfirst
      obtain ⟨p, hp, -⟩ := Option.map_eq_some_iff.mp hfirst.symm
      have hends := List.find?_some hp
      have hmissing := List.find?_eq_none.mp hnone p (List.mem_of_find?_eq_some hp)
      have hnot : ¬ ds <:+ l :: ls := fun hsuffix =>
        hmissing (decide_eq_true (hsuffix.trans (of_decide_eq_true hends)))
      rw [if_neg hnot, findSpot, List.find?_nil, Option.map_none]
    | none =>
      dsimp only
      rw [findSpot, List.find?_cons]
      by_cases heq : l :: ls = ds
      · have hsuffix : ds <:+ l :: ls := heq ▸ List.suffix_rfl
        simp only [heq, decide_true, Option.map_some]
        rw [if_pos (heq ▸ hsuffix)]
      · have hiff : ds <:+ l :: ls ↔ ds <:+ ls := by
          rw [List.suffix_cons_iff]
          exact or_iff_right fun h => heq h.symm
        have hrest := ih (o + (l.length + 1))
        simp only [heq, decide_false, hiff]
        exact hrest

theorem Indexed.add {spots : List Spot} {names : List (List Str × ℕ)} (h : Indexed spots names)
    (ls : List Str) (o : ℕ) :
    Indexed (spots ++ newSpots spots o ls) (names ++ [(ls, hopsOf names ls)]) := by
  intro ds hds
  have hfirst := h ds hds
  rw [findSpot, List.find?_append, firstEnding, List.find?_append]
  change ((findSpot spots ds).or (findSpot (newSpots spots o ls) ds)).map Spot.hops =
    ((firstEnding names ds).or (firstEnding [(ls, hopsOf names ls)] ds)).map Prod.snd
  cases hspot : findSpot spots ds with
  | some spot =>
    cases hname : firstEnding names ds with
    | some p =>
      rw [hspot, hname] at hfirst
      exact hfirst
    | none =>
      rw [hspot, hname] at hfirst
      cases hfirst
  | none =>
    cases hname : firstEnding names ds with
    | some p =>
      rw [hspot, hname] at hfirst
      cases hfirst
    | none =>
      rw [Option.none_or, Option.none_or, findSpot_newSpots h hds hname ls o,
        compressedHops_eq h, firstEnding, List.find?_singleton]
      by_cases hsuffix : ds <:+ ls
      · simp only [hsuffix, decide_true, if_true, Option.map_some]
      · simp only [hsuffix, decide_false, if_false, Bool.false_eq_true, Option.map_none]

/-! ### A list of names -/

/-- What is known of a list of names: where its labels are, and which names are in it. -/
structure Encoded (cstr : List UInt8) (spots : List Spot) (names : List (List Str × ℕ)) : Prop
    where
  spotted : Spotted cstr 0 spots
  lists : Lists cstr 0 names
  indexed : Indexed spots names

theorem Encoded.empty : Encoded [] [] [] := ⟨.done, .done, fun _ _ => rfl⟩

/-- **A name put into the list** is one more name in it. -/
theorem Encoded.add {cstr : List UInt8} {spots : List Spot} {names : List (List Str × ℕ)}
    (h : Encoded cstr spots names) (hlen : cstr.length ≤ 2 ^ 14) {ls : List Str}
    (hls : ∀ l ∈ ls, Proper l) :
    Encoded (cstr ++ compress spots ls) (spots ++ newSpots spots cstr.length ls)
      (names ++ [(ls, hopsOf names ls)]) := by
  have hspots : Reachable (cstr ++ compress spots ls) spots := by
    intro spot hspot
    obtain ⟨hoff, hjump, hspelled⟩ := h.spotted.spot spot hspot
    exact ⟨Nat.lt_of_lt_of_le hoff hlen, jumpTo_append hjump, hspelled.append _⟩
  have hdrop : (cstr ++ compress spots ls).drop cstr.length = compress spots ls :=
    List.drop_left
  have hlisted := listed_compress hspots hls hdrop
  rw [compressedHops_eq h.indexed] at hlisted
  exact {
    spotted := h.spotted.append (spotted_compress hspots hls hdrop)
    lists := h.lists.append (.name hlisted .done)
    indexed := h.indexed.add ls cstr.length }

/-! ### The text of names -/

def dotJoin (ls : List Str) : Str := [dot].intercalate ls

def blankJoin (names : List Str) : Str := [space].intercalate names

theorem dropLast_flatMap (c : UInt8) (parts : List Str) :
    (parts.flatMap (· ++ [c])).dropLast = [c].intercalate parts := by
  induction parts with
  | nil => rfl
  | cons s rest ih =>
    cases rest with
    | nil =>
      rw [List.flatMap_singleton, List.dropLast_concat, List.intercalate_singleton]
    | cons t rest =>
      have hne : (t :: rest).flatMap (· ++ [c]) ≠ [] := by
        rw [List.flatMap_cons]
        exact List.append_ne_nil_of_left_ne_nil
          (List.append_ne_nil_of_right_ne_nil _ (List.cons_ne_nil c [])) _
      rw [List.flatMap_cons, List.dropLast_append_of_ne_nil hne, ih,
        List.intercalate_cons_cons]

theorem length_intercalate (c : UInt8) {parts : List Str} (h : parts ≠ []) :
    ([c].intercalate parts).length + 1 = (parts.flatMap (· ++ [c])).length := by
  obtain ⟨s, rest, rfl⟩ := List.exists_cons_of_ne_nil h
  have hpos : 0 < ((s :: rest).flatMap (· ++ [c])).length := by
    rw [List.flatMap_cons, List.length_append, List.length_append, List.length_singleton]
    omega
  rw [← dropLast_flatMap, List.length_dropLast]
  omega

theorem map_intercalate (f : UInt8 → UInt8) (c : UInt8) (parts : List Str) :
    ([c].intercalate parts).map f = [f c].intercalate (parts.map (List.map f)) := by
  induction parts with
  | nil => rfl
  | cons s rest ih =>
    cases rest with
    | nil => rw [List.intercalate_singleton, List.map_singleton, List.intercalate_singleton]
    | cons t rest =>
      rw [List.intercalate_cons_cons, List.map_append, List.map_append, ih]
      simp only [List.map_cons, List.map_nil, List.intercalate_cons_cons]

theorem expandedAll_dropLast (names : List (List Str × ℕ)) :
    (expandedAll names).dropLast = blankJoin (names.map fun p => dotJoin p.1) := by
  have hall : expandedAll names =
      (names.map fun p => dotJoin p.1).flatMap (· ++ [space]) := by
    rw [expandedAll, List.flatMap_map]
    congr 1
    funext p
    rw [expanded, dotted, dropLast_flatMap, dotJoin]
  rw [hall, dropLast_flatMap, blankJoin]

/-! ### `convert_dname` -/

theorem convertLoop_label (res pre : List UInt8) {l : Str} (hl : dot ∉ l) (src : Str) :
    convertLoop res pre (l ++ src) = convertLoop res (pre ++ l.map toLower) src := by
  induction l generalizing pre with
  | nil => rw [List.nil_append, List.map_nil, List.append_nil]
  | cons c l ih =>
    have hc : c ≠ dot := fun heq => hl (heq ▸ List.mem_cons_self)
    rw [List.cons_append, convertLoop, if_neg hc,
      ih (pre ++ [toLower c]) fun h => hl (List.mem_cons_of_mem c h), List.map_cons,
      List.append_assoc, List.singleton_append]

def lower (ls : List Str) : List Str := ls.map (List.map toLower)

theorem Proper.lower {l : Str} (hl : Proper l) : Proper (l.map toLower) := by
  rw [Proper, List.length_map]
  exact hl

theorem lower_proper {ls : List Str} (hls : ∀ l ∈ ls, Proper l) :
    ∀ l ∈ lower ls, Proper l := by
  intro l hl
  obtain ⟨m, hm, rfl⟩ := List.mem_map.mp hl
  exact (hls m hm).lower

theorem convertLoop_dotJoin {ls : List Str} (hne : ls ≠ []) (hls : ∀ l ∈ ls, Proper l ∧ dot ∉ l)
    (res : List UInt8) :
    convertLoop res [] (dotJoin ls) = some (res ++ (lower ls).flatMap wireLabel) := by
  induction ls generalizing res with
  | nil => exact absurd rfl hne
  | cons l ls ih =>
    obtain ⟨hl, hdot⟩ := hls l List.mem_cons_self
    have hlower := hl.lower
    have hfits : ¬ (63 < (l.map toLower).length ∨ (l.map toLower).length = 0) := by
      rintro (hlong | hzero)
      · exact absurd hlower.2 (Nat.not_le_of_lt hlong)
      · exact absurd hzero hlower.1.ne'
    cases ls with
    | nil =>
      rw [dotJoin, List.intercalate_singleton]
      have hread := convertLoop_label res [] hdot []
      rw [List.append_nil] at hread
      rw [hread, List.nil_append, convertLoop, if_neg hfits]
      simp only [lower, List.map_singleton, List.flatMap_singleton, wireLabel]
    | cons m ls =>
      obtain ⟨hm, hdot'⟩ := hls m (List.mem_cons_of_mem l List.mem_cons_self)
      obtain ⟨c, cs, rfl⟩ := List.exists_cons_of_ne_nil (List.ne_nil_of_length_pos hm.1)
      obtain ⟨rest, hrest⟩ : ∃ rest, dotJoin ((c :: cs) :: ls) = c :: rest := by
        cases ls with
        | nil => exact ⟨cs, List.intercalate_singleton⟩
        | cons k ls =>
          rw [dotJoin, List.intercalate_cons_cons, List.cons_append, List.cons_append]
          exact ⟨_, rfl⟩
      have hhead : (dotJoin ((c :: cs) :: ls)).head? ≠ some dot := by
        rw [hrest, List.head?_cons]
        exact fun h => hdot' (Option.some.inj h ▸ List.mem_cons_self)
      have hlong : dotJoin ((c :: cs) :: ls) ≠ [] := by
        rw [hrest]
        exact List.cons_ne_nil c rest
      have hjoin : dotJoin (l :: (c :: cs) :: ls) = l ++ dot :: dotJoin ((c :: cs) :: ls) := by
        rw [dotJoin, List.intercalate_cons_cons, List.append_assoc, List.singleton_append, dotJoin]
      have hstop : ¬ (63 < (l.map toLower).length ∨ (l.map toLower).length = 0 ∨
          (dotJoin ((c :: cs) :: ls)).head? = some dot) := by
        rw [← or_assoc]
        exact fun h => h.elim hfits hhead
      rw [hjoin, convertLoop_label res [] hdot, List.nil_append, convertLoop, if_pos rfl,
        if_neg hstop, if_neg hlong,
        ih (List.cons_ne_nil _ _) (fun x hx => hls x (List.mem_cons_of_mem l hx))]
      simp only [lower, List.map_cons, List.flatMap_cons, wireLabel, List.append_assoc]

/-! ### Search lists -/

/-- A domain name: fewer than 250 characters in labels, which have 1 to 63 characters and no dot in
them. -/
structure DomainName where
  labels : List Str
  labels_ne_nil : labels ≠ []
  labels_proper : ∀ l ∈ labels, Proper l ∧ dot ∉ l
  text_short : (dotJoin labels).length < 250

def DomainName.text (name : DomainName) : Str := dotJoin name.labels

/-- The text of a search list: the names with blanks between them. -/
def searchText (names : List DomainName) : Str := blankJoin (names.map DomainName.text)

/-- How many pointers the decoder has to follow in each of the names of a search list. -/
def pointers (names : List DomainName) : List ℕ :=
  (withHops [] (names.map fun name => lower name.labels)).map Prod.snd

/-- The result of `dname_enc` appended to `cstr` for each of the names. -/
def encodeNames (cstr : Option (List UInt8)) : List Str → Option (List UInt8)
  | [] => some (cstr.getD [])
  | src :: rest =>
    match dnameEnc cstr src with
    | some (some bs) => encodeNames (some (cstr.getD [] ++ bs)) rest
    | _ => none

theorem DomainName.lower_labels_proper (name : DomainName) :
    ∀ l ∈ lower name.labels, Proper l :=
  lower_proper fun l hl => (name.labels_proper l hl).1

theorem length_lower (ls : List Str) : (dotted (lower ls)).length = (dotted ls).length := by
  induction ls with
  | nil => rfl
  | cons l ls ih =>
    rw [lower, List.map_cons, dotted_cons, dotted_cons, List.length_append, List.length_append,
      List.length_append, List.length_append, List.length_map]
    exact congrArg _ ih

theorem length_wire (ls : List Str) : (ls.flatMap wireLabel).length = (dotted ls).length := by
  induction ls with
  | nil => rfl
  | cons l ls ih =>
    rw [List.flatMap_cons, dotted_cons, List.length_append, List.length_append,
      List.length_append, ih, wireLabel_length, List.length_singleton]

theorem DomainName.length_dotted (name : DomainName) :
    (dotted name.labels).length = name.text.length + 1 :=
  (length_intercalate dot name.labels_ne_nil).symm

/-- **`convert_dname`** of a domain name. -/
theorem convertDname_text (name : DomainName) :
    convertDname name.text = some (wire (lower name.labels)) := by
  have hshort : ¬ 255 ≤ ((lower name.labels).flatMap wireLabel).length := by
    have hlen := name.text_short
    have htext := name.length_dotted
    rw [DomainName.text] at htext
    rw [length_wire, length_lower, htext]
    omega
  rw [convertDname, DomainName.text,
    convertLoop_dotJoin name.labels_ne_nil name.labels_proper, List.nil_append]
  dsimp only
  rw [if_neg hshort, wire]

theorem dnameEnc_text {cstr : Option (List UInt8)} {spots : List Spot}
    (h : Spotted (cstr.getD []) 0 spots) (name : DomainName) :
    dnameEnc cstr name.text = some (some (compress spots (lower name.labels))) := by
  rw [dnameEnc, convertDname_text]
  dsimp only
  rw [encodeLoop_spotted h name.lower_labels_proper, List.nil_append, Option.map_some]

/-- **All of the names** put into the list. -/
theorem encodeNames_encoded {cstr : Option (List UInt8)} {spots : List Spot}
    {seen : List (List Str × ℕ)} (h : Encoded (cstr.getD []) spots seen)
    (names : List DomainName)
    (hlen : (cstr.getD []).length + (names.map fun name => name.text.length + 2).sum ≤ 2 ^ 14) :
    ∃ bs spots', encodeNames cstr (names.map DomainName.text) = some bs ∧
      Encoded bs spots' (withHops seen (names.map fun name => lower name.labels)) := by
  induction names generalizing cstr spots seen with
  | nil => exact ⟨_, spots, rfl, h⟩
  | cons name names ih =>
    rw [List.map_cons, List.sum_cons] at hlen
    have hsize := compress_length spots (lower name.labels)
    rw [length_lower, name.length_dotted] at hsize
    have hadd := h.add (by omega) name.lower_labels_proper
    have hrest : ((some (cstr.getD [] ++ compress spots (lower name.labels))).getD []).length +
        (names.map fun name => name.text.length + 2).sum ≤ 2 ^ 14 := by
      rw [Option.getD_some, List.length_append]
      omega
    obtain ⟨bs, spots', hbs, henc⟩ :=
      @ih (some (cstr.getD [] ++ compress spots (lower name.labels))) _ _ hadd hrest
    refine ⟨bs, spots', ?_, henc⟩
    rw [List.map_cons, encodeNames, dnameEnc_text h.spotted]
    exact hbs

theorem withHops_map_fst (seen : List (List Str × ℕ)) (names : List (List Str)) :
    (withHops seen names).map Prod.fst = seen.map Prod.fst ++ names := by
  induction names generalizing seen with
  | nil => rw [withHops, List.append_nil]
  | cons ls names ih =>
    rw [withHops, ih, List.map_append, List.map_singleton, List.append_assoc,
      List.singleton_append]

/-- A name takes at most twice as many bytes in the list as in the text. -/
theorem sum_le_text (names : List DomainName) :
    (names.map fun name => name.text.length + 2).sum ≤
      2 * ((names.map DomainName.text).flatMap (· ++ [space])).length := by
  induction names with
  | nil => exact Nat.le_refl 0
  | cons name names ih =>
    rw [List.map_cons, List.sum_cons, List.map_cons, List.flatMap_cons, List.length_append,
      List.length_append, List.length_singleton]
    omega

/-- What the loop writes for a search list, without the last blank: its text in lower case. -/
theorem expandedAll_searchText (names : List DomainName) :
    (expandedAll (withHops [] (names.map fun name => lower name.labels))).dropLast =
      (searchText names).map toLower := by
  have hfst := withHops_map_fst [] (names.map fun name => lower name.labels)
  have hjoin : (withHops [] (names.map fun name => lower name.labels)).map
      (fun p => dotJoin p.1) = names.map fun name => dotJoin (lower name.labels) := by
    rw [List.map_nil, List.nil_append] at hfst
    have hmap := congrArg (List.map dotJoin) hfst
    rw [List.map_map, List.map_map] at hmap
    exact hmap
  have hdot : toLower dot = dot := rfl
  have hspace : toLower space = space := rfl
  rw [expandedAll_dropLast, hjoin, searchText, blankJoin, blankJoin, map_intercalate, hspace,
    List.map_map]
  congr 2
  funext name
  rw [Function.comp_apply, DomainName.text, dotJoin, dotJoin, map_intercalate, hdot, lower]

/-- **A search list is expanded again.**  The result of `dname_enc` can be appended for every name,
and `dname_dec` makes of the list the names in lower case with blanks between them, where no name
leads it through more than six pointers; and otherwise its result is NULL. -/
theorem searchList_expands {cstr : Option (List UInt8)} (hcstr : cstr.getD [] = [])
    {names : List DomainName} (hne : names ≠ []) (htext : (searchText names).length ≤ 6000) :
    ∃ bs, encodeNames cstr (names.map DomainName.text) = some bs ∧
      ∀ (pre : Str) (garbage : ℕ → UInt8), dnameDec bs pre garbage =
        some (if ∀ n ∈ pointers names, n ≤ 6 then
          some (pre ++ ((searchText names).map toLower ++ [0])) else none) := by
  have hparts : names.map DomainName.text ≠ [] := fun h => hne (List.map_eq_nil_iff.mp h)
  have hsum := sum_le_text names
  have hjoin := length_intercalate space hparts
  have hlen : (cstr.getD []).length + (names.map fun name => name.text.length + 2).sum ≤
      2 ^ 14 := by
    rw [searchText, blankJoin] at htext
    rw [hcstr, List.length_nil]
    omega
  have hempty : Encoded (cstr.getD []) [] [] := by
    rw [hcstr]
    exact .empty
  obtain ⟨bs, spots, hbs, henc⟩ := encodeNames_encoded hempty names hlen
  refine ⟨bs, hbs, fun pre garbage => ?_⟩
  have hfst := withHops_map_fst [] (names.map fun name => lower name.labels)
  rw [List.map_nil, List.nil_append] at hfst
  have hlist : withHops [] (names.map fun name => lower name.labels) ≠ [] := by
    intro h
    rw [h, List.map_nil] at hfst
    exact hne (List.map_eq_nil_iff.mp hfst.symm)
  have hlabels : ∀ p ∈ withHops [] (names.map fun name => lower name.labels), p.1 ≠ [] := by
    intro p hp
    have hmem := List.mem_map_of_mem (f := Prod.fst) hp
    rw [hfst] at hmem
    obtain ⟨name, -, hname⟩ := List.mem_map.mp hmem
    rw [← hname]
    exact fun h => name.labels_ne_nil (List.map_eq_nil_iff.mp h)
  have hexpanded := congrArg List.length (expandedAll_searchText names)
  rw [List.length_dropLast, List.length_map] at hexpanded
  rw [dnameDec_lists henc.lists hlist hlabels (by omega), expandedAll_searchText, pointers]
  simp only [List.forall_mem_map]

/-- Two names of one domain, which are written in different cases. -/
theorem searchList_expands_domain :
    ∃ bs, encodeNames none [bytes "www.Example.com", bytes "mail.example.COM"] = some bs ∧
      ∀ (pre : Str) (garbage : ℕ → UInt8), dnameDec bs pre garbage =
        some (some (pre ++ (bytes "www.example.com mail.example.com" ++ [0]))) :=
  @searchList_expands none rfl
    [⟨[bytes "www", bytes "Example", bytes "com"], by decide, by decide, by decide⟩,
      ⟨[bytes "mail", bytes "example", bytes "COM"], by decide, by decide, by decide⟩]
    (by decide) (by decide)

/-- Whether the loop of `dname_dec` has come to NULL in so many turns. -/
def nullWithin (cstr : List UInt8) : ℕ → Decoding → Bool
  | 0, _ => false
  | n + 1, s =>
    if s.crtpos < cstr.length then
      match decodeTurn cstr s with
      | .next s' => nullWithin cstr n s'
      | .null => true
      | .outside => false
    else false

theorem decodePass_of_nullWithin {cstr : List UInt8} {n : ℕ} {s : Decoding}
    (h : nullWithin cstr n s = true) : decodePass cstr s = some none := by
  induction n generalizing s with
  | zero => cases h
  | succ n ih =>
    rw [nullWithin] at h
    by_cases hlt : s.crtpos < cstr.length
    · rw [if_pos hlt] at h
      cases hturn : decodeTurn cstr s with
      | next s' =>
        rw [hturn] at h
        rw [decodePass_next hlt hturn]
        exact ih h
      | null => exact decodePass_null hlt hturn
      | outside =>
        rw [hturn] at h
        cases h
    · rw [if_neg hlt] at h
      cases h

/-- The labels of `a`, `b.a`, `c.b.a` and so on. -/
def stairLabels (n : ℕ) : List Str :=
  ((List.range (n + 1)).map fun i => [UInt8.ofNat (97 + i)]).reverse

def stairName (i : Fin 8) : DomainName where
  labels := stairLabels i
  labels_ne_nil := (by decide : ∀ i : Fin 8, stairLabels i ≠ []) i
  labels_proper := (by decide : ∀ i : Fin 8, ∀ l ∈ stairLabels i, Proper l ∧ dot ∉ l) i
  text_short := (by decide : ∀ i : Fin 8, (dotJoin (stairLabels i)).length < 250) i

/-- Eight names, each of them with one more label in front than the one before it. -/
def stair : List DomainName := (List.finRange 8).map stairName

/-- Not every search list is expanded again: seven pointers lead through the last of eight names. -/
theorem not_searchList_expands :
    ¬ ∀ names : List DomainName, names ≠ [] → (searchText names).length ≤ 6000 →
      ∃ bs, encodeNames none (names.map DomainName.text) = some bs ∧
        ∀ garbage : ℕ → UInt8,
          dnameDec bs [] garbage = some (some ((searchText names).map toLower ++ [0])) := by
  intro hall
  obtain ⟨bs, hbs, hdec⟩ := hall stair (by decide) (by decide)
  have hnull : (encodeNames none (stair.map DomainName.text)).map
      (fun bs => nullWithin bs 72 (.start none)) = some true := by
    decide +kernel
  rw [hbs, Option.map_some, Option.some.injEq] at hnull
  have hresult := hdec fun _ => 0
  rw [dnameDec, decodePass_of_nullWithin hnull] at hresult
  cases hresult

end Rustybox.Dhcp
