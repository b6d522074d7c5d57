import Mathlib.Logic.Function.Basic
import Rustybox.Dhcp.Options

/-!
# The list of configured options

What a line sets is an option and some values (`settings`); the list it is put into plays no role in
that.  A list for DHCPv4 is a map from codes to data (`Represents`), where a value of an option that
may have several goes behind those that are there, as long as there is room, and otherwise the
first value stays (`put`).

In a list for DHCPv6 the options are looked for by the first byte of their codes, which is zero for
all of them.
-/

namespace Rustybox.Dhcp

open Rustybox.Rust

/-! ### What a line sets -/

/-- The values of a line, in their binary form, and `retval`. -/
def valuesLoop (str2nip : Str → Option UInt32) (optflag : DhcpOptflag) (rest : Str)
    (retval : Bool) : Except Die (List (List UInt8) × Bool) :=
  match _h : nextVal optflag rest with
  | none => .ok ([], retval)
  | some (val, rest₁) =>
    match _hv : parseValue str2nip optflag.type val rest₁ with
    | (none, _) => .ok ([], false)
    | (some v, rest₂) =>
      match v.toBinary with
      | .error e => .error e
      | .ok buffer =>
        if optflag.list then
          (valuesLoop str2nip optflag rest₂ true).map fun r => (buffer :: r.1, r.2)
        else .ok ([buffer], true)
termination_by rest.length
decreasing_by
  have h1 := nextVal_length _h
  have h2 := parseValue_length str2nip optflag.type val rest₁
  rw [_hv] at h2
  exact Nat.lt_of_le_of_lt h2 h1

/-- What a line sets: options with values. -/
def settings (str2nip : Str → Option UInt32) (optflags : List (Str × DhcpOptflag)) (str : Str) :
    Except Die (List (DhcpOptflag × List UInt8)) :=
  match strtok str nameDelims with
  | none => .ok []
  | some (opt, rest) =>
    match findOptflag optflags opt with
    | .error e => .error e
    | .ok optflag =>
      (valuesLoop str2nip optflag rest false).map fun r => r.1.map fun b => (optflag, b)

/-- What lines set, one after the other. -/
def settingsAll (str2nip : Str → Option UInt32) (optflags : List (Str × DhcpOptflag)) :
    List Str → Except Die (List (DhcpOptflag × List UInt8))
  | [] => .ok []
  | str :: strs => do
    let sets ← settings str2nip optflags str
    let sets' ← settingsAll str2nip optflags strs
    return sets ++ sets'

/-- Settings put into a list. -/
def attachAll (dhcpv6 : Bool) (optList : List Node) (sets : List (DhcpOptflag × List UInt8)) :
    List Node :=
  sets.foldl (fun optList s => attach optList s.1 s.2 dhcpv6) optList

section Calls

variable {str2nip : Str → Option UInt32} {optflags : List (Str × DhcpOptflag)} {dhcpv6 : Bool}

theorem valuesLoop_eq (optflag : DhcpOptflag) (rest : Str) (retval : Bool) :
    valuesLoop str2nip optflag rest retval =
      match nextVal optflag rest with
      | none => .ok ([], retval)
      | some (val, rest₁) =>
        match parseValue str2nip optflag.type val rest₁ with
        | (none, _) => .ok ([], false)
        | (some v, rest₂) =>
          match v.toBinary with
          | .error e => .error e
          | .ok buffer =>
            if optflag.list then
              (valuesLoop str2nip optflag rest₂ true).map fun r => (buffer :: r.1, r.2)
            else .ok ([buffer], true) := by
  rw [valuesLoop]
  split
  · rename_i h
    rw [h]
  · rename_i val rest₁ h
    rw [h]
    dsimp only
    split
    · rename_i hv
      rw [hv]
    · rename_i v rest₂ hv
      rw [hv]

theorem valuesLoop_value {optflag : DhcpOptflag} {rest val rest₁ rest₂ : Str} {v : Value}
    (h : nextVal optflag rest = some (val, rest₁))
    (hv : parseValue str2nip optflag.type val rest₁ = (some v, rest₂)) (retval : Bool) :
    valuesLoop str2nip optflag rest retval =
      match v.toBinary with
      | .error e => .error e
      | .ok buffer =>
        if optflag.list then
          (valuesLoop str2nip optflag rest₂ true).map fun r => (buffer :: r.1, r.2)
        else .ok ([buffer], true) := by
  rw [valuesLoop_eq, h]
  dsimp only
  rw [hv]

theorem attachOption_error {optList : List Node} {optflag : DhcpOptflag} {v : Value} {e : Die}
    (h : attachOption optList optflag v dhcpv6 = .error e) : v.toBinary = .error e := by
  rw [attachOption] at h
  cases hb : v.toBinary with
  | error e' =>
    rw [hb] at h
    cases h
    rfl
  | ok buffer =>
    rw [hb] at h
    cases h

theorem attachOption_ok {optList optList' : List Node} {optflag : DhcpOptflag} {v : Value}
    (h : attachOption optList optflag v dhcpv6 = .ok optList') :
    ∃ buffer, v.toBinary = .ok buffer ∧ optList' = attach optList optflag buffer dhcpv6 := by
  rw [attachOption] at h
  cases hb : v.toBinary with
  | error e' =>
    rw [hb] at h
    cases h
  | ok buffer =>
    rw [hb] at h
    cases h
    exact ⟨buffer, rfl, rfl⟩

theorem setLoop_eq (optflag : DhcpOptflag) (optList : List Node) (rest : Str) (retval : Bool) :
    setLoop str2nip optflag dhcpv6 optList rest retval =
      (valuesLoop str2nip optflag rest retval).map fun r =>
        (attachAll dhcpv6 optList (r.1.map fun b => (optflag, b)), r.2) := by
  fun_induction setLoop str2nip optflag dhcpv6 optList rest retval with
  | case1 optList rest retval h =>
    rw [valuesLoop_eq, h]
    rfl
  | case2 optList rest retval val rest₁ h rest₂ hv =>
    rw [valuesLoop_eq, h]
    dsimp only
    rw [hv]
    rfl
  | case3 optList rest retval val rest₁ h v rest₂ hv e he =>
    rw [valuesLoop_value h hv, attachOption_error he]
    rfl
  | case4 optList rest retval val rest₁ h v rest₂ hv optList' hok hlist ih =>
    obtain ⟨buffer, hb, rfl⟩ := attachOption_ok hok
    rw [valuesLoop_value h hv, hb, ih]
    dsimp only
    rw [if_pos hlist]
    cases valuesLoop str2nip optflag rest₂ true <;> rfl
  | case5 optList rest retval val rest₁ h v rest₂ hv optList' hok hlist =>
    obtain ⟨buffer, hb, rfl⟩ := attachOption_ok hok
    rw [valuesLoop_value h hv, hb]
    dsimp only
    rw [if_neg hlist]
    rfl

theorem udhcpStr2optset_eq (optList : List Node) (str : Str) :
    (udhcpStr2optset str2nip optflags dhcpv6 optList str).map Prod.fst =
      (settings str2nip optflags str).map (attachAll dhcpv6 optList) := by
  rw [udhcpStr2optset, settings]
  cases strtok str nameDelims with
  | none => rfl
  | some r =>
    dsimp only
    cases findOptflag optflags r.1 with
    | error e => rfl
    | ok optflag =>
      dsimp only
      rw [setLoop_eq]
      cases valuesLoop str2nip optflag r.2 false <;> rfl

/-- **Calls** put what their lines set into the list. -/
theorem setAll_eq (optList : List Node) (strs : List Str) :
    setAll str2nip optflags dhcpv6 optList strs =
      (settingsAll str2nip optflags strs).map (attachAll dhcpv6 optList) := by
  induction strs generalizing optList with
  | nil => rfl
  | cons str strs ih =>
    have hcall := @udhcpStr2optset_eq str2nip optflags dhcpv6 optList str
    rw [setAll, settingsAll]
    cases hset : settings str2nip optflags str with
    | error e =>
      rw [hset] at hcall
      cases hres : udhcpStr2optset str2nip optflags dhcpv6 optList str with
      | error e' =>
        rw [hres] at hcall
        cases hcall
        rfl
      | ok r =>
        rw [hres] at hcall
        cases hcall
    | ok sets =>
      rw [hset] at hcall
      cases hres : udhcpStr2optset str2nip optflags dhcpv6 optList str with
      | error e' =>
        rw [hres] at hcall
        cases hcall
      | ok r =>
        rw [hres] at hcall
        have hlist : r.1 = attachAll dhcpv6 optList sets := Except.ok.inj hcall
        dsimp only
        rw [ih, hlist]
        cases settingsAll str2nip optflags strs with
        | error e => rfl
        | ok sets' =>
          show Except.ok _ = Except.ok _
          rw [attachAll, attachAll, attachAll, List.foldl_append]

theorem setAll_ok {strs : List Str} {optList : List Node}
    (h : setAll str2nip optflags dhcpv6 [] strs = .ok optList) :
    ∃ sets, settingsAll str2nip optflags strs = .ok sets ∧
      optList = attachAll dhcpv6 [] sets := by
  rw [setAll_eq] at h
  cases hsets : settingsAll str2nip optflags strs with
  | error e =>
    rw [hsets] at h
    cases h
  | ok sets =>
    rw [hsets] at h
    cases h
    exact ⟨sets, rfl, rfl⟩

end Calls

/-! ### A list for DHCPv4 is a map -/

/-- The values of options: the data of each code that has been set. -/
abbrev Settings := UInt8 → Option (List UInt8)

/-- Setting an option.  A value goes behind those of an option that may have several, where the
data have at most 254 bytes then; otherwise what is set first stays. -/
def put (m : Settings) (s : DhcpOptflag × List UInt8) : Settings :=
  match m s.1.code with
  | none => Function.update m s.1.code (some s.2)
  | some old =>
    if s.1.list = true ∧ old.length + s.2.length < 255 then
      Function.update m s.1.code (some (old ++ s.2))
    else m

/-- The node of a code with its data. -/
def node (code : UInt8) (data : List UInt8) : Node := newNode code data false

theorem node_eq (code : UInt8) (data : List UInt8) :
    node code data = code :: UInt8.ofNat data.length :: data := rfl

/-- The nodes are those of a map, in the order of their codes, and the length field of each counts
its data. -/
structure Represents (optList : List Node) (m : Settings) : Prop where
  sorted : (optList.map Node.first).Pairwise (· < ·)
  mem_iff : ∀ n, n ∈ optList ↔ ∃ code data, n = node code data ∧ m code = some data
  length : ∀ code data, m code = some data → (UInt8.ofNat data.length).toNat = data.length

theorem represents_nil : Represents [] fun _ => none := by
  refine ⟨List.Pairwise.nil, fun n => ⟨fun h => absurd h List.not_mem_nil, ?_⟩,
    fun code data h => (by cases h)⟩
  rintro ⟨code, data, -, h⟩
  cases h

theorem udhcpFindOption_some {optList : List Node} {code : UInt8} {i : ℕ}
    (h : udhcpFindOption optList code = some i) :
    ∃ l n r, optList = l ++ n :: r ∧ n.first = code ∧
      ∀ f, optList.modify i f = l ++ f n :: r := by
  induction optList generalizing i with
  | nil => cases h
  | cons n optList ih =>
    rw [udhcpFindOption] at h
    split at h
    · obtain ⟨j, hj, rfl⟩ := Option.map_eq_some_iff.mp h
      obtain ⟨l, n', r, rfl, hfirst, hmodify⟩ := ih hj
      refine ⟨n :: l, n', r, rfl, hfirst, fun f => ?_⟩
      rw [List.modify_succ_cons, hmodify]
      rfl
    · split at h
      · rename_i hfirst
        cases h
        exact ⟨[], n, optList, rfl, hfirst, fun f => rfl⟩
      · cases h

theorem udhcpFindOption_none {optList : List Node} {code : UInt8}
    (hsorted : (optList.map Node.first).Pairwise (· < ·))
    (h : udhcpFindOption optList code = none) : ∀ n ∈ optList, n.first ≠ code := by
  induction optList with
  | nil => exact fun n hn => by cases hn
  | cons n optList ih =>
    obtain ⟨hhead, htail⟩ := List.pairwise_cons.mp hsorted
    intro n' hn'
    rw [udhcpFindOption] at h
    split at h
    · rename_i hlt
      rcases List.mem_cons.mp hn' with rfl | hn'
      · exact UInt8.ne_of_lt hlt
      · exact ih htail (Option.map_eq_none_iff.mp h) n' hn'
    · rename_i hge
      split at h
      · cases h
      · rename_i hne
        rcases List.mem_cons.mp hn' with rfl | hn'
        · exact hne
        · have hlt := hhead n'.first (List.mem_map_of_mem hn')
          intro heq
          rw [heq] at hlt
          exact hge hlt

theorem mem_insertNode {new n : Node} {code : UInt8} {optList : List Node} :
    n ∈ insertNode new code optList ↔ n = new ∨ n ∈ optList := by
  induction optList with
  | nil => rw [insertNode, List.mem_singleton]; simp
  | cons n' optList ih =>
    rw [insertNode]
    split
    · rw [List.mem_cons, ih, List.mem_cons]
      exact or_left_comm
    · rw [List.mem_cons]

theorem sorted_insertNode {new : Node} {code : UInt8} {optList : List Node}
    (hsorted : (optList.map Node.first).Pairwise (· < ·)) (hnew : new.first = code)
    (hne : ∀ n ∈ optList, n.first ≠ code) :
    ((insertNode new code optList).map Node.first).Pairwise (· < ·) := by
  induction optList with
  | nil => exact List.pairwise_singleton _ _
  | cons n optList ih =>
    obtain ⟨hhead, htail⟩ := List.pairwise_cons.mp hsorted
    rw [insertNode]
    split
    · rename_i hlt
      refine List.pairwise_cons.mpr ⟨fun c hc => ?_,
        ih htail fun n' hn' => hne n' (List.mem_cons_of_mem _ hn')⟩
      obtain ⟨n', hn', rfl⟩ := List.mem_map.mp hc
      rcases mem_insertNode.mp hn' with rfl | hn'
      · rw [hnew]
        exact hlt
      · exact hhead n'.first (List.mem_map_of_mem hn')
    · rename_i hge
      have hlt : code < n.first := UInt8.lt_of_le_of_ne (UInt8.not_lt.mp hge)
        (hne n List.mem_cons_self).symm
      refine List.pairwise_cons.mpr ⟨fun c hc => ?_, hsorted⟩
      rw [hnew]
      rcases List.mem_cons.mp hc with rfl | hc
      · exact hlt
      · exact UInt8.lt_trans hlt (hhead c hc)

theorem addValue_node {code : UInt8} {old : List UInt8}
    (hlen : (UInt8.ofNat old.length).toNat = old.length) (buffer : List UInt8) :
    addValue buffer (node code old) =
      if old.length + buffer.length < 255 then node code (old ++ buffer) else node code old := by
  have hold : ((node code old).getD 1 0).toNat = old.length := hlen
  rw [addValue, hold]
  by_cases hfits : old.length + buffer.length < 255
  · rw [if_pos hfits, if_pos hfits, node_eq, node_eq, List.take_of_length_le (by
      rw [List.length_cons, List.length_cons]; omega), List.length_append]
    rfl
  · rw [if_neg hfits, if_neg hfits]

theorem Represents.insert {optList : List Node} {m : Settings} (h : Represents optList m)
    {code : UInt8} {buffer : List UInt8} (hlen : buffer.length < 256)
    (hnone : ∀ n ∈ optList, n.first ≠ code) :
    m code = none ∧ Represents (insertNode (node code buffer) code optList)
      (Function.update m code (some buffer)) := by
  have hcode : m code = none := by
    cases hm : m code with
    | none => rfl
    | some data =>
      exact absurd rfl (hnone (node code data) ((h.mem_iff _).mpr ⟨code, data, rfl, hm⟩))
  refine ⟨hcode, sorted_insertNode h.sorted rfl hnone, fun n => ?_, fun c data hm => ?_⟩
  · rw [mem_insertNode, h.mem_iff]
    constructor
    · rintro (rfl | ⟨c, data, rfl, hm⟩)
      · exact ⟨code, buffer, rfl, Function.update_self _ _ _⟩
      · have hne : c ≠ code := by
          rintro rfl
          rw [hcode] at hm
          cases hm
        exact ⟨c, data, rfl, (Function.update_of_ne hne _ _).trans hm⟩
    · rintro ⟨c, data, rfl, hm⟩
      by_cases hc : c = code
      · subst hc
        rw [Function.update_self] at hm
        cases hm
        exact Or.inl rfl
      · rw [Function.update_of_ne hc] at hm
        exact Or.inr ⟨c, data, rfl, hm⟩
  · by_cases hc : c = code
    · subst hc
      rw [Function.update_self] at hm
      cases hm
      exact UInt8.toNat_ofNat_of_lt' hlen
    · rw [Function.update_of_ne hc] at hm
      exact h.length c data hm

theorem Represents.replace {m : Settings} {l r : List Node} {code : UInt8}
    {old data : List UInt8} (h : Represents (l ++ node code old :: r) m)
    (hlen : data.length < 256) :
    Represents (l ++ node code data :: r) (Function.update m code (some data)) := by
  have hsorted : ((l ++ node code data :: r).map Node.first).Pairwise (· < ·) := by
    have hfirst : (l ++ node code data :: r).map Node.first =
        (l ++ node code old :: r).map Node.first := by
      rw [List.map_append, List.map_append]
      rfl
    rw [hfirst]
    exact h.sorted
  -- the other nodes have other codes
  have hother (n : Node) (hn : n ∈ l ∨ n ∈ r) : n.first ≠ code := by
    have hpair := h.sorted
    rw [List.map_append, List.map_cons, List.pairwise_append, List.pairwise_cons] at hpair
    obtain ⟨-, ⟨hr, -⟩, hl⟩ := hpair
    rcases hn with hn | hn
    · exact UInt8.ne_of_lt (hl _ (List.mem_map_of_mem hn) _ List.mem_cons_self)
    · exact (UInt8.ne_of_lt (hr _ (List.mem_map_of_mem hn))).symm
  have hmem (n : Node) : n ∈ l ++ node code old :: r ↔ n = node code old ∨ n ∈ l ∨ n ∈ r := by
    rw [List.mem_append, List.mem_cons]
    exact or_left_comm
  refine ⟨hsorted, fun n => ?_, fun c d hm => ?_⟩
  · have hmem' : n ∈ l ++ node code data :: r ↔ n = node code data ∨ n ∈ l ∨ n ∈ r := by
      rw [List.mem_append, List.mem_cons]
      exact or_left_comm
    rw [hmem']
    constructor
    · rintro (rfl | hn)
      · exact ⟨code, data, rfl, Function.update_self _ _ _⟩
      · obtain ⟨c, d, rfl, hm⟩ := (h.mem_iff n).mp ((hmem n).mpr (Or.inr hn))
        have hc : c ≠ code := hother _ hn
        exact ⟨c, d, rfl, (Function.update_of_ne hc _ _).trans hm⟩
    · rintro ⟨c, d, rfl, hm⟩
      by_cases hc : c = code
      · subst hc
        rw [Function.update_self] at hm
        cases hm
        exact Or.inl rfl
      · rw [Function.update_of_ne hc] at hm
        rcases (hmem _).mp ((h.mem_iff _).mpr ⟨c, d, rfl, hm⟩) with heq | hn
        · have hfirst : c = code := congrArg Node.first heq
          exact absurd hfirst hc
        · exact Or.inr hn
  · by_cases hc : c = code
    · subst hc
      rw [Function.update_self] at hm
      cases hm
      exact UInt8.toNat_ofNat_of_lt' hlen
    · rw [Function.update_of_ne hc] at hm
      exact h.length c d hm

/-- **Attaching an option** to a list is setting it in the map. -/
theorem Represents.attach {optList : List Node} {m : Settings} (h : Represents optList m)
    (s : DhcpOptflag × List UInt8) (hlen : s.2.length < 256) :
    Represents (Dhcp.attach optList s.1 s.2 false) (put m s) := by
  rw [Dhcp.attach]
  cases hfind : udhcpFindOption optList s.1.code with
  | none =>
    obtain ⟨hcode, hinsert⟩ := h.insert hlen (udhcpFindOption_none h.sorted hfind)
    rw [put, hcode]
    exact hinsert
  | some i =>
    obtain ⟨l, n, r, rfl, hfirst, hmodify⟩ := udhcpFindOption_some hfind
    obtain ⟨c, old, rfl, hm⟩ := (h.mem_iff n).mp
      (List.mem_append_right _ List.mem_cons_self)
    have hc : c = s.1.code := hfirst
    subst hc
    rw [put, hm]
    dsimp only
    by_cases hlist : s.1.list = true
    · rw [if_pos hlist, hmodify, addValue_node (h.length _ _ hm)]
      by_cases hfits : old.length + s.2.length < 255
      · rw [if_pos hfits, if_pos ⟨hlist, hfits⟩]
        refine h.replace ?_
        rw [List.length_append]
        omega
      · rw [if_neg hfits, if_neg fun hand => hfits hand.2]
        exact h
    · rw [if_neg hlist, if_neg fun hand => hlist hand.1]
      exact h

/-! ### Values fit into their length field -/

theorem hex2bin_length {str : Str} {count : ℕ} {bs : List UInt8} (h : hex2bin str count = some bs) :
    bs.length ≤ count := by
  fun_induction hex2bin str count generalizing bs with
  | case1 =>
    cases h
    exact Nat.zero_le _
  | case2 => cases h
  | case3 => cases h
  | case4 =>
    cases h
    exact Nat.succ_le_succ (Nat.zero_le _)
  | case5 =>
    rename_i ih
    obtain ⟨bs', hbs', rfl⟩ := Option.map_eq_some_iff.mp h
    exact Nat.succ_le_succ (ih hbs')
  | case6 =>
    rename_i ih
    obtain ⟨bs', hbs', rfl⟩ := Option.map_eq_some_iff.mp h
    exact Nat.succ_le_succ (ih hbs')
  | case7 => cases h

theorem encodeLoop_none_length {front d bs : List UInt8} (h : encodeLoop none front d = some bs) :
    bs.length ≤ front.length + d.length := by
  fun_induction encodeLoop none front d generalizing bs with
  | case1 => cases h
  | case2 front rest =>
    cases h
    rw [List.length_append, List.length_singleton, List.length_cons]
    omega
  | case3 => cases h
  | case4 _ _ _ _ _ hoff => cases hoff
  | case5 front c rest _ _ ih =>
    have hle := ih h
    rw [List.length_append, List.length_take, List.length_drop] at hle
    rw [List.length_cons] at hle ⊢
    omega

theorem dnameEnc_none_length {src : Str} {bs : List UInt8}
    (h : dnameEnc none src = some (some bs)) : bs.length < 256 := by
  rw [dnameEnc, convertDname] at h
  cases hconv : convertLoop [] [] src with
  | none =>
    rw [hconv] at h
    cases h
  | some res =>
    rw [hconv] at h
    dsimp only at h
    by_cases hlong : 255 ≤ res.length
    · rw [if_pos hlong] at h
      cases h
    · rw [if_neg hlong] at h
      dsimp only at h
      obtain ⟨bs', hbs', heq⟩ := Option.map_eq_some_iff.mp h
      cases heq
      have hle := encodeLoop_none_length hbs'
      rw [List.length_append, List.length_singleton, List.length_nil] at hle
      omega

/-- A value that is in its binary form already has few bytes. -/
def Value.Short : Value → Prop
  | .raw buffer => buffer.length < 256
  | _ => True

theorem Value.Short.toBinary {v : Value} (hv : v.Short) {bs : List UInt8}
    (h : v.toBinary = .ok bs) : bs.length < 256 := by
  cases v with
  | raw buffer =>
    cases h
    exact hv
  | hex buffer =>
    rw [Value.toBinary] at h
    cases hhex : hex2bin buffer 255 with
    | none =>
      rw [hhex] at h
      cases h
    | some bs' =>
      rw [hhex] at h
      cases h
      exact Nat.lt_succ_of_le (hex2bin_length hhex)
  | name buffer =>
    rw [Value.toBinary] at h
    split at h
    · rename_i hname
      cases h
      exact dnameEnc_none_length hname
    · cases h
      exact Nat.succ_pos _

theorem stringValue_short {val : Str} {v w : Value} (hv : v.Short)
    (h : stringValue val v = some w) : w.Short := by
  rw [stringValue] at h
  split at h
  · cases h
    exact hv
  · cases h

theorem take_short (val : Str) : (Value.raw (val.take 254)).Short := by
  have hle := List.length_take_le 254 val
  show (val.take 254).length < 256
  omega

theorem staticRoute_short {str2nip : Str → Option UInt32} {val rest : Str} {v : Value}
    (h : (staticRoute str2nip val rest).1 = some v) : v.Short := by
  rw [staticRoute] at h
  split at h
  · cases h
  · dsimp only at h
    split at h
    · split at h
      · cases h
      · rename_i net _ _ _ _
        obtain ⟨gw, -, rfl⟩ := Option.map_eq_some_iff.mp h
        show (_ :: (_ ++ leBytes 4 gw.toNat) : List UInt8).length < 256
        rw [List.length_cons, List.length_append, List.length_take, length_leBytes, length_leBytes]
        omega
    · cases h
    · cases h

/-- **Every value** is short, or it is brought into its binary form later. -/
theorem parseValue_short {str2nip : Str → Option UInt32} {type : OptionType} {val rest : Str}
    {v : Value} (h : (parseValue str2nip type val rest).1 = some v) : v.Short := by
  have hbytes (n x : ℕ) (hn : n < 256) : (Value.raw (leBytes n x)).Short := by
    show (leBytes n x).length < 256
    rw [length_leBytes]
    exact hn
  have hbe (n x : ℕ) (hn : n < 256) : (Value.raw (beBytes n x)).Short := by
    show (beBytes n x).length < 256
    rw [beBytes, List.length_reverse, length_leBytes]
    exact hn
  cases type with
  | ip =>
    obtain ⟨ip, -, rfl⟩ := Option.map_eq_some_iff.mp h
    exact hbytes 4 _ (by decide)
  | ipPair =>
    rw [parseValue] at h
    split at h
    · cases h
    · obtain ⟨ip, -, h⟩ := Option.bind_eq_some_iff.mp h
      obtain ⟨ip', -, rfl⟩ := Option.map_eq_some_iff.mp h
      show (leBytes 4 ip.toNat ++ leBytes 4 ip'.toNat).length < 256
      rw [List.length_append, length_leBytes, length_leBytes]
      decide
  | string | stringHost => exact stringValue_short (take_short val) h
  | dnsString =>
    have hname : (Value.name val).Short := trivial
    exact stringValue_short hname h
  | u8 =>
    obtain ⟨n, -, rfl⟩ := Option.map_eq_some_iff.mp h
    exact Nat.succ_le_succ (Nat.succ_le_succ (Nat.zero_le _))
  | u16 =>
    obtain ⟨n, -, rfl⟩ := Option.map_eq_some_iff.mp h
    exact hbe 2 n (by decide)
  | u32 =>
    obtain ⟨n, -, rfl⟩ := Option.map_eq_some_iff.mp h
    exact hbe 4 n (by decide)
  | s32 =>
    obtain ⟨n, -, rfl⟩ := Option.map_eq_some_iff.mp h
    exact hbe 4 _ (by decide)
  | staticRoutes => exact staticRoute_short h
  | bin =>
    rw [parseValue.eq_def] at h
    dsimp only at h
    split at h
    · split at h
      · exact stringValue_short (take_short _) h
      · cases h
        trivial
    · cases h
      trivial
  | sixRd | sipServers => cases h

/-- **What a line sets** fits into the length field. -/
theorem valuesLoop_short {str2nip : Str → Option UInt32} {optflag : DhcpOptflag} {rest : Str}
    {retval : Bool} {r : List (List UInt8) × Bool}
    (h : valuesLoop str2nip optflag rest retval = .ok r) : ∀ b ∈ r.1, b.length < 256 := by
  fun_induction valuesLoop str2nip optflag rest retval generalizing r with
  | case1 =>
    cases h
    exact fun b hb => absurd hb List.not_mem_nil
  | case2 =>
    cases h
    exact fun b hb => absurd hb List.not_mem_nil
  | case3 => cases h
  | case4 rest retval val rest₁ _ v rest₂ hv buffer hb _ ih =>
    have hshort : v.Short := parseValue_short (by rw [hv])
    cases hrest : valuesLoop str2nip optflag rest₂ true with
    | error e =>
      rw [hrest] at h
      cases h
    | ok r' =>
      rw [hrest] at h
      cases h
      intro b hmem
      rcases List.mem_cons.mp hmem with rfl | hmem
      · exact hshort.toBinary hb
      · exact ih hrest b hmem
  | case5 rest retval val rest₁ _ v rest₂ hv buffer hb _ =>
    have hshort : v.Short := parseValue_short (by rw [hv])
    cases h
    intro b hmem
    rw [List.mem_singleton.mp hmem]
    exact hshort.toBinary hb

theorem settings_mem {str2nip : Str → Option UInt32} {optflags : List (Str × DhcpOptflag)}
    {str : Str} {sets : List (DhcpOptflag × List UInt8)}
    (h : settings str2nip optflags str = .ok sets) :
    ∀ s ∈ sets, (∃ opt, findOptflag optflags opt = .ok s.1) ∧
      ∃ rest r, valuesLoop str2nip s.1 rest false = .ok r ∧ s.2 ∈ r.1 := by
  rw [settings] at h
  split at h
  · cases h
    exact fun s hs => absurd hs List.not_mem_nil
  · rename_i opt rest _
    split at h
    · cases h
    · rename_i optflag hfind
      cases hvalues : valuesLoop str2nip optflag rest false with
      | error e =>
        rw [hvalues] at h
        cases h
      | ok r =>
        rw [hvalues] at h
        cases h
        intro s hs
        obtain ⟨b, hb, rfl⟩ := List.mem_map.mp hs
        exact ⟨⟨opt, hfind⟩, rest, r, hvalues, hb⟩

theorem settings_short {str2nip : Str → Option UInt32} {optflags : List (Str × DhcpOptflag)}
    {str : Str} {sets : List (DhcpOptflag × List UInt8)}
    (h : settings str2nip optflags str = .ok sets) : ∀ s ∈ sets, s.2.length < 256 := by
  intro s hs
  obtain ⟨-, rest, r, hvalues, hb⟩ := settings_mem h s hs
  exact valuesLoop_short hvalues s.2 hb

/-- **Settings** put into a list are settings of the map. -/
theorem Represents.attachAll {optList : List Node} {m : Settings} (h : Represents optList m)
    {sets : List (DhcpOptflag × List UInt8)} (hshort : ∀ s ∈ sets, s.2.length < 256) :
    Represents (Dhcp.attachAll false optList sets) (sets.foldl put m) := by
  induction sets generalizing optList m with
  | nil => exact h
  | cons s sets ih =>
    exact ih (h.attach s (hshort s List.mem_cons_self))
      fun s' hs' => hshort s' (List.mem_cons_of_mem _ hs')

/-! ### Lists for DHCPv6 -/

/-- The length field of a node for DHCPv6 counts its data. -/
def Counts (n : Node) : Prop :=
  ∃ c₁ c₂ l₁ l₂ data, n = c₁ :: c₂ :: l₁ :: l₂ :: data ∧ l₁.toNat * 256 + l₂.toNat = data.length

theorem newNode_counts (code : UInt8) {buffer : List UInt8} (hlen : buffer.length < 256) :
    (newNode code buffer true).first = 0 ∧ Counts (newNode code buffer true) := by
  have hhigh {n : ℕ} (hn : n < 256) : n >>> 8 = 0 := by
    rw [Nat.shiftRight_eq_div_pow]
    exact Nat.div_eq_of_lt hn
  have hlow {n : ℕ} (hn : n < 256) : n &&& 0xff = n := by
    rw [show (0xff : ℕ) = 2 ^ 8 - 1 by rfl, Nat.and_two_pow_sub_one_eq_mod]
    exact Nat.mod_eq_of_lt hn
  have hnode : newNode code buffer true = UInt8.ofNat (code.toNat >>> 8) ::
      UInt8.ofNat (code.toNat &&& 0xff) :: UInt8.ofNat (buffer.length >>> 8) ::
        UInt8.ofNat (buffer.length &&& 0xff) :: buffer := rfl
  rw [hnode, hhigh code.toNat_lt, hhigh hlen, hlow hlen]
  refine ⟨rfl, _, _, _, _, buffer, rfl, ?_⟩
  rw [UInt8.toNat_ofNat_of_lt' hlen]
  exact Nat.zero_add _

/-- Nodes for DHCPv6 are put into the list, and never changed. -/
theorem attach_counts {optList : List Node} (h : ∀ n ∈ optList, n.first = 0 ∧ Counts n)
    (s : DhcpOptflag × List UInt8) (hlen : s.2.length < 256)
    (hcode : s.1.list = true → s.1.code ≠ 0) :
    ∀ n ∈ attach optList s.1 s.2 true, n.first = 0 ∧ Counts n := by
  rw [attach]
  cases hfind : udhcpFindOption optList s.1.code with
  | none =>
    intro n hn
    rcases mem_insertNode.mp hn with rfl | hn
    · exact newNode_counts s.1.code hlen
    · exact h n hn
  | some i =>
    obtain ⟨l, n, r, rfl, hfirst, -⟩ := udhcpFindOption_some hfind
    have hzero := (h n (List.mem_append_right _ List.mem_cons_self)).1
    have hlist : ¬ s.1.list = true := fun hlist => hcode hlist (hfirst.symm.trans hzero)
    dsimp only
    rw [if_neg hlist]
    exact h

theorem findOptflag_ok {optflags : List (Str × DhcpOptflag)} {opt : Str} {optflag : DhcpOptflag}
    (h : findOptflag optflags opt = .ok optflag) :
    optflag.list = false ∨ ∃ entry ∈ optflags, entry.2 = optflag := by
  rw [findOptflag] at h
  split at h
  · cases h
    exact Or.inl rfl
  · split at h
    · rename_i entry hfind
      cases h
      exact Or.inr ⟨entry, List.mem_of_find?_eq_some hfind, rfl⟩
    · cases h

theorem settings_optflag {str2nip : Str → Option UInt32} {optflags : List (Str × DhcpOptflag)}
    {str : Str} {sets : List (DhcpOptflag × List UInt8)}
    (h : settings str2nip optflags str = .ok sets) :
    ∀ s ∈ sets, s.1.list = false ∨ ∃ entry ∈ optflags, entry.2 = s.1 := by
  intro s hs
  obtain ⟨⟨opt, hfind⟩, -⟩ := settings_mem h s hs
  exact findOptflag_ok hfind

/-- What holds of what each line sets holds of what all of them set. -/
theorem settingsAll_rule {str2nip : Str → Option UInt32} {optflags : List (Str × DhcpOptflag)}
    {P : DhcpOptflag × List UInt8 → Prop}
    (hline : ∀ str sets, settings str2nip optflags str = .ok sets → ∀ s ∈ sets, P s)
    {strs : List Str} {sets : List (DhcpOptflag × List UInt8)}
    (h : settingsAll str2nip optflags strs = .ok sets) : ∀ s ∈ sets, P s := by
  induction strs generalizing sets with
  | nil =>
    cases h
    exact fun s hs => absurd hs List.not_mem_nil
  | cons str strs ih =>
    rw [settingsAll] at h
    cases hset : settings str2nip optflags str with
    | error e =>
      rw [hset] at h
      cases h
    | ok sets₁ =>
      cases hsets : settingsAll str2nip optflags strs with
      | error e =>
        rw [hset, hsets] at h
        cases h
      | ok sets₂ =>
        rw [hset, hsets] at h
        cases h
        intro s hs
        rcases List.mem_append.mp hs with hs | hs
        · exact hline str sets₁ hset s hs
        · exact ih hsets s hs

theorem attachAll_counts {optList : List Node} (h : ∀ n ∈ optList, n.first = 0 ∧ Counts n)
    {sets : List (DhcpOptflag × List UInt8)}
    (hsets : ∀ s ∈ sets, s.2.length < 256 ∧ (s.1.list = true → s.1.code ≠ 0)) :
    ∀ n ∈ attachAll true optList sets, n.first = 0 ∧ Counts n := by
  induction sets generalizing optList with
  | nil => exact h
  | cons s sets ih =>
    obtain ⟨hlen, hcode⟩ := hsets s List.mem_cons_self
    exact ih (attach_counts h s hlen hcode) fun s' hs' => hsets s' (List.mem_cons_of_mem _ hs')

/-- **The list of configured options.**  A list for DHCPv4 is the map that the settings make: its
nodes are in the order of their codes, with one for each code, and the length field of each counts
its data.  In a list for DHCPv6 the length field of each node counts its data. -/
theorem optset_lists (str2nip : Str → Option UInt32) (strs : List Str) :
    (∀ optflags optList, setAll str2nip optflags false [] strs = .ok optList →
        ∃ sets, settingsAll str2nip optflags strs = .ok sets ∧
          Represents optList (sets.foldl put fun _ => none)) ∧
      ∀ optList, setAll str2nip v6Table true [] strs = .ok optList → ∀ n ∈ optList, Counts n := by
  refine ⟨fun optflags optList h => ?_, fun optList h => ?_⟩
  · obtain ⟨sets, hsets, rfl⟩ := setAll_ok h
    exact ⟨sets, hsets, represents_nil.attachAll
      (settingsAll_rule (fun _ _ hline => settings_short hline) hsets)⟩
  · obtain ⟨sets, hsets, rfl⟩ := setAll_ok h
    have htable : ∀ entry ∈ v6Table, entry.2.list = true → entry.2.code ≠ 0 := by decide
    have hgood : ∀ s ∈ sets, s.2.length < 256 ∧ (s.1.list = true → s.1.code ≠ 0) := by
      refine settingsAll_rule (fun str sets hline s hs => ⟨settings_short hline s hs, ?_⟩) hsets
      intro hlist
      rcases settings_optflag hline s hs with hfalse | ⟨entry, hentry, heq⟩
      · rw [hfalse] at hlist
        cases hlist
      · rw [← heq] at hlist ⊢
        exact htable entry hentry hlist
    intro n hn
    exact (attachAll_counts (fun n hn => absurd hn List.not_mem_nil) hgood n hn).2

/-- A value of `dns` that has no room any more, and `tz` set twice for DHCPv6. -/
theorem not_optset_lists :
    ¬ (∀ optList, (setAll (fun _ => some 1) v4Table false []
          [bytes "6 " ++ [34] ++ List.replicate 254 120 ++ [34], bytes "dns a"]).toOption =
            some optList →
        node 6 (List.replicate 254 120 ++ [1, 0, 0, 0]) ∈ optList) ∧
      ¬ ∀ optList, (setAll (fun _ => some 1) v6Table true []
          [bytes "tz a", bytes "tz b"]).toOption = some optList →
        (optList.map fun n => n.getD 1 0).Nodup := by
  constructor
  · intro h
    have hlist := h [node 6 (List.replicate 254 120)] (by decide +kernel)
    exact absurd hlist (by decide +kernel)
  · intro h
    have hlist := h [[0, 41, 0, 1, 97], [0, 41, 0, 1, 98]] (by decide +kernel)
    exact absurd hlist (by decide)

/-- Two addresses of `dns` are in one node. -/
theorem optset_lists_dns :
    ∃ sets, settingsAll (fun _ => some 1) v4Table [bytes "dns a", bytes "dns b"] = .ok sets ∧
      Represents [node 6 [1, 0, 0, 0, 1, 0, 0, 0]] (sets.foldl put fun _ => none) :=
  (optset_lists (fun _ => some 1) [bytes "dns a", bytes "dns b"]).1 v4Table
    [node 6 [1, 0, 0, 0, 1, 0, 0, 0]] (by decide +kernel)

end Rustybox.Dhcp
