import Rustybox.Split.NoLines

/-!
# When the pieces are right

`next_file` tests its stop condition after it has incremented a character: with no letters of suffix
that character is the prefix's last one.  And no lines to a piece is not refused.
-/

namespace Rustybox.Split

open Rust

variable {o : Options} {env : Env}

/-! ### No letters -/

/-- The names given, and the one to come. -/
def State.allNames (s : State) : List Str := s.names ++ s.pfx.toList

theorem opened_allNames {s t : State} (h : Opened o env s t) :
    ∀ name ∈ s.allNames, name ∈ t.allNames := by
  intro name hname
  rcases h with ⟨_, rfl⟩ | ⟨_, hopen⟩
  · exact hname
  · obtain ⟨pfx, hpfx, rfl⟩ := openNext_ok hopen
    rw [State.allNames, hpfx] at hname
    refine List.mem_append_left _ ?_
    simpa [State.names, State.pieces] using hname

theorem allNames_of_eq {s t : State} (hpfx : s.pfx = t.pfx) (hnames : s.names = t.names) :
    s.allNames = t.allNames := by
  rw [State.allNames, State.allNames, hpfx, hnames]

/-- A state between turns, or at the death in one, has the names it had. -/
theorem turn_allNames {src : Str} {s : State} :
    match turn o env src s with
    | .error (_, s') => ∀ name ∈ s.allNames, name ∈ s'.allNames
    | .ok (_, s') => ∀ name ∈ s.allNames, name ∈ s'.allNames := by
  split
  · rename_i die s' hturn
    rcases turn_error hturn with ⟨rfl, _⟩ | ⟨t, hopened, hpfx, hpieces⟩
    · exact fun _ hname => hname
    · have hsame : s'.allNames = t.allNames := allNames_of_eq hpfx (by
        rw [State.names, State.names, hpieces])
      exact hsame ▸ opened_allNames hopened
  · rename_i src' s' hturn
    obtain ⟨t, hopened, _, _, hpfx, hclosed, hcurrent⟩ := turn_ok hturn
    have hsame : s'.allNames = t.allNames := allNames_of_eq hpfx (by
      rw [State.names, State.names, State.pieces, State.pieces, hclosed, hcurrent]
      cases t.current <;> simp)
    exact hsame ▸ opened_allNames hopened

theorem bufferLoop_allNames {turns : ℕ} {src : Str} {s : State} {out : Result State}
    (h : bufferLoop o env turns src s = some out) :
    ∀ name ∈ s.allNames, name ∈ (final out).allNames := by
  induction turns generalizing src s with
  | zero => cases h
  | succ turns ih =>
    have hturn := @turn_allNames o env src s
    rw [bufferLoop] at h
    split at h
    · rename_i e he
      rw [he] at hturn
      rw [← Option.some.inj h]
      exact hturn
    · rename_i src' s' he
      rw [he] at hturn
      split at h
      · rw [← Option.some.inj h]
        exact hturn
      · exact fun name hname => ih h name (hturn name hname)

theorem readLoop_allNames {turns : ℕ} {reads : List Str} {s : State} {out : Result State}
    (h : readLoop o env turns reads s = some out) :
    ∀ name ∈ s.allNames, name ∈ (final out).allNames := by
  induction reads generalizing s with
  | nil =>
    rw [← Option.some.inj h]
    exact fun _ hname => hname
  | cons buffer reads ih =>
    rw [readLoop] at h
    split at h
    · cases h
    · rename_i e he
      rw [← Option.some.inj h]
      exact bufferLoop_allNames he
    · rename_i s' he
      exact fun name hname => ih h name (bufferLoop_allNames he name hname)

theorem NamesOk.formed_all {s : State} (h : NamesOk o s) : ∀ name ∈ s.allNames, Formed o name := by
  intro name hname
  rcases List.mem_append.mp hname with hmem | hmem
  · exact h.formed name hmem
  · exact h.pending name (Option.mem_toList.mp hmem)

/-- Without letters the prefix itself is counted up. -/
theorem nextFile_prefix (front : Str) {c : UInt8} (hc : belowZ c = true) (n : ℕ) :
    ∃ name, nextFile (front ++ [c]) n = some name ∧ name ≠ front ++ [c] := by
  rw [nextFile, List.reverse_append, List.reverse_singleton, List.singleton_append, nextLoop,
    if_pos hc]
  refine ⟨_, rfl, ?_⟩
  intro hsame
  split at hsame
  · rw [List.reverse_reverse] at hsame
    exact List.cons_ne_nil c [] (List.append_right_eq_self.mp hsame.symm)
  · rw [List.reverse_cons, List.reverse_reverse] at hsame
    have hlast : c + 1 = c := List.head_eq_of_cons_eq (List.append_cancel_left hsame)
    exact absurd (UInt8.add_eq_left.mp hlast) (by decide)

/-- The first turn leaves a name that is not of the form, unless it cannot open a file. -/
theorem turn_start_unusable (husable : ¬ Usable o) (hlively : env.Lively) (src : Str) :
    ∃ name, ¬ Formed o name ∧
      match turn o env src (start o) with
      | .error (_, s') => name ∈ s'.allNames
      | .ok (_, s') => name ∈ s'.allNames := by
  rw [Usable, not_or] at husable
  obtain ⟨hzero, hlast⟩ := husable
  have hletters : o.suffixLen = 0 := Nat.eq_zero_of_not_pos hzero
  push Not at hlast
  obtain ⟨c, hc, hbelow⟩ := hlast
  obtain ⟨front, hfront⟩ := List.getLast?_eq_some_iff.mp hc
  obtain ⟨name, hname, hne⟩ := nextFile_prefix front
    (Bool.not_eq_false _ ▸ hbelow : belowZ c = true) o.suffixLen
  have hpfx : (start o).pfx = some (front ++ [c]) := by
    rw [start, hletters, List.replicate_zero, List.append_nil, hfront]
  have hopened : ∀ t, Opened o env (start o) t → t.pfx = some name := by
    intro t ht
    rcases ht with ⟨hremaining, _⟩ | ⟨_, hopen⟩
    · exact absurd rfl hremaining
    · obtain ⟨pfx, hpfx', rfl⟩ := openNext_ok hopen
      rw [hpfx] at hpfx'
      rw [← Option.some.inj hpfx']
      exact hname
  have hmem : ∀ s : State, s.pfx = some name → name ∈ s.allNames := by
    intro s hs
    rw [State.allNames, hs]
    exact List.mem_append_right _ List.mem_cons_self
  refine ⟨name, ?_, ?_⟩
  · rintro ⟨letters, hform, hlength⟩
    rw [hletters] at hlength
    rw [List.eq_nil_of_length_eq_zero hlength, List.append_nil, hfront] at hform
    exact hne hform
  · split
    · rename_i die s' hturn
      rcases turn_error hturn with ⟨_, hfails⟩ | ⟨t, ht, hsame, _⟩
      · obtain ⟨t, ht⟩ := openNext_lively (o := o) hlively hpfx (List.concat_ne_nil c front)
        rw [ht] at hfails
        cases hfails
      · exact hmem s' (hsame.trans (hopened t ht))
    · rename_i src' s' hturn
      obtain ⟨t, ht, _, _, hsame, _⟩ := turn_ok hturn
      exact hmem s' (hsame.trans (hopened t ht))

theorem not_right_of_unusable (husable : ¬ Usable o) (hlively : env.Lively) {turns : ℕ}
    {reads : List Str} (hsome : reads ≠ []) {out : Result State}
    (hrun : readLoop o env turns reads (start o) = some out) : ¬ NamesOk o (final out) := by
  intro hnames
  obtain ⟨buffer, rest, rfl⟩ := List.exists_cons_of_ne_nil hsome
  obtain ⟨name, hname, hfirst⟩ := turn_start_unusable husable hlively buffer
  refine hname (hnames.formed_all name ?_)
  rw [readLoop] at hrun
  cases turns with
  | zero => cases hrun
  | succ turns =>
    rw [bufferLoop] at hrun
    cases hturn : turn o env buffer (start o) with
    | error e =>
      rw [hturn] at hrun hfirst
      rw [← Option.some.inj hrun]
      exact hfirst
    | ok p =>
      obtain ⟨src, s⟩ := p
      rw [hturn] at hrun hfirst
      dsimp only at hrun hfirst
      by_cases hdone : src = []
      · rw [if_pos hdone] at hrun
        exact readLoop_allNames hrun name hfirst
      · rw [if_neg hdone] at hrun
        split at hrun
        · cases hrun
        · rename_i e he
          rw [← Option.some.inj hrun]
          exact bufferLoop_allNames he name hfirst
        · rename_i s' he
          exact readLoop_allNames hrun name (bufferLoop_allNames he name hfirst)

/-! ### More turns -/

theorem bufferLoop_succ {turns : ℕ} {src : Str} {s : State} {out : Result State}
    (h : bufferLoop o env turns src s = some out) :
    bufferLoop o env (turns + 1) src s = some out := by
  induction turns generalizing src s with
  | zero => cases h
  | succ turns ih =>
    rw [bufferLoop] at h ⊢
    split at h
    · exact h
    · split at h
      · rename_i hdone
        rw [if_pos hdone]
        exact h
      · rename_i hmore
        rw [if_neg hmore]
        exact ih h

theorem readLoop_succ {turns : ℕ} {reads : List Str} {s : State} {out : Result State}
    (h : readLoop o env turns reads s = some out) :
    readLoop o env (turns + 1) reads s = some out := by
  induction reads generalizing s with
  | nil => exact h
  | cons buffer reads ih =>
    rw [readLoop] at h ⊢
    split at h
    · cases h
    · rename_i e he
      rw [bufferLoop_succ he]
      exact h
    · rename_i s' he
      rw [bufferLoop_succ he]
      exact ih h

theorem readLoop_add {turns : ℕ} {reads : List Str} {s : State} {out : Result State}
    (h : readLoop o env turns reads s = some out) (more : ℕ) :
    readLoop o env (turns + more) reads s = some out := by
  induction more with
  | zero => exact h
  | succ more ih => exact readLoop_succ ih

theorem readLoop_unique {turns turns' : ℕ} {reads : List Str} {s : State} {out out' : Result State}
    (h : readLoop o env turns reads s = some out) (h' : readLoop o env turns' reads s = some out') :
    out = out' := by
  have hmore := readLoop_add h turns'
  rw [Nat.add_comm, readLoop_add h' turns] at hmore
  exact (Option.some.inj hmore).symm

/-! ### No lines -/

theorem right_of_lumped (husable : Usable o) (hlines : o.byBytes = false) (hcount : o.count = 0)
    {reads : List Str} (hreads : ∀ buffer ∈ reads, buffer ≠ [])
    (hfew : files reads ≤ 1 ∨ limit o < files reads) :
    ∃ turns out, readLoop o env turns reads (start o) = some out ∧ Right o reads.flatten out := by
  obtain ⟨turns, out, hout, hgood⟩ := @run_lumped o env husable hlines hcount reads hreads
  refine ⟨turns, out, hout, ?_⟩
  cases out with
  | error e => exact right_died hgood.1
  | ok s =>
    obtain ⟨hnamed, hlumped⟩ := hgood
    have hlength : s.contents.length = files reads := by rw [hlumped.contents, lump_length]
    refine ⟨hnamed.namesOk, fun _ => ?_, fun _ => ?_, fun _ => ?_⟩
    · exact (congrArg List.flatten hlumped.contents).trans (lump_flatten reads)
    · have hone : s.contents.length ≤ 1 := by
        rcases hfew with hfew | hmany
        · exact hlength ▸ hfew
        · have hle : s.contents.length ≤ limit o := by
            rw [State.contents, List.length_map]
            exact hnamed.2.1
          omega
      intro content hcontent
      have hnone : s.contents.dropLast = [] := by
        apply List.eq_nil_of_length_eq_zero
        rw [List.length_dropLast]
        omega
      change content ∈ s.contents.dropLast at hcontent
      rw [hnone] at hcontent
      cases hcontent
    · intro content hcontent
      refine lump_some hreads content ?_
      rw [← hlumped.contents]
      exact List.mem_of_getLast? hcontent

/-- Two pieces are one too many: the first is part of a line. -/
theorem not_right_of_lumped (husable : Usable o) (hlively : env.Lively)
    (hlines : o.byBytes = false) (hcount : o.count = 0) {reads : List Str}
    (hreads : ∀ buffer ∈ reads, buffer ≠ []) (hmany : 1 < files reads)
    (hroom : files reads ≤ limit o) {turns : ℕ} {out : Result State}
    (hrun : readLoop o env turns reads (start o) = some out) : ¬ Right o reads.flatten out := by
  intro hright
  obtain ⟨turns', out', hout', hgood⟩ := @run_lumped o env husable hlines hcount reads hreads
  obtain rfl := readLoop_unique hrun hout'
  cases out with
  | error e =>
    have := hgood.2 hlively (Nat.lt_of_lt_of_le hmany hroom)
    omega
  | ok s =>
    have hcontents := hgood.2.contents
    cases reads with
    | nil => exact absurd hmany (Nat.not_lt_zero 1)
    | cons buffer rest =>
      rw [← lump_length, lump] at hmany
      rw [lump] at hcontents
      by_cases hbuffer : unended buffer = true
      · rw [if_pos hbuffer] at hmany hcontents
        have hrest : lump rest ≠ [] := by
          intro hnil
          rw [hnil] at hmany
          exact Nat.lt_irrefl 1 hmany
        have hexactly : Exactly o buffer := by
          refine hright.full rfl buffer ?_
          change buffer ∈ s.contents.dropLast
          rw [hcontents, List.dropLast_cons_of_ne_nil hrest]
          exact List.mem_cons_self
        have hsome : buffer ≠ [] := hreads buffer List.mem_cons_self
        have hend := hexactly.2 hlines _ (List.getLast?_eq_some_getLast hsome)
        rw [unended, decide_eq_true_iff] at hbuffer
        exact hbuffer (hend ▸ List.getLast_mem hsome)
      · rw [if_neg hbuffer] at hmany
        exact Nat.lt_irrefl 1 hmany

/-! ### Any options -/

/-- Split makes the right pieces, in whatever way the input is read: if and only if there is no
input, or the letters of the suffix leave the prefix alone and, with `-l 0`, there are no two pieces
for which there are names. -/
theorem split_right_iff (o : Options) (reads : List Str) (hreads : ∀ buffer ∈ reads, buffer ≠ []) :
    (∀ env, ∃ turns out, readLoop o env turns reads (start o) = some out ∧
        Right o reads.flatten out) ↔
      reads = [] ∨ (Usable o ∧
        (o.byBytes = false → o.count = 0 → files reads ≤ 1 ∨ limit o < files reads)) := by
  refine ⟨fun h => ?_, ?_⟩
  · obtain ⟨turns, out, hrun, hright⟩ := h ⟨fun _ => true, fun _ => true⟩
    have hlively : Env.Lively ⟨fun _ => true, fun _ => true⟩ := fun _ => ⟨rfl, rfl⟩
    by_cases hsome : reads = []
    · exact Or.inl hsome
    · have husable : Usable o := by
        by_contra hunusable
        exact not_right_of_unusable hunusable hlively hsome hrun hright.names
      refine Or.inr ⟨husable, fun hlines hcount => ?_⟩
      by_contra hmany
      rw [not_or, Nat.not_le, Nat.not_lt] at hmany
      exact not_right_of_lumped husable hlively hlines hcount hreads hmany.1 hmany.2 hrun hright
  · intro hcond env
    by_cases hsome : reads = []
    · rw [hsome]
      exact ⟨0, _, rfl, counted_start.right⟩
    · obtain ⟨husable, hzero⟩ := hcond.resolve_left hsome
      by_cases hcnt : 0 < o.cnt
      · exact right_of_pos husable hcnt hreads
      · rw [Int.not_lt] at hcnt
        cases hbytes : o.byBytes with
        | true => exact right_of_stuck husable hbytes hcnt hsome hreads
        | false =>
          have hcount := count_of_lines hbytes hcnt
          exact right_of_lumped husable hbytes hcount hreads (hzero hbytes hcount)

theorem split_right_iff_two :
    (∀ env, ∃ turns out, readLoop ⟨[120], 1, true, 1, by decide, by decide⟩ env turns [[97], [98]]
        (start ⟨[120], 1, true, 1, by decide, by decide⟩) = some out ∧
        Right ⟨[120], 1, true, 1, by decide, by decide⟩ [97, 98] out) ↔
      [[97], [98]] = ([] : List Str) ∨ (Usable ⟨[120], 1, true, 1, by decide, by decide⟩ ∧
        (true = false → 1 = 0 → files [[97], [98]] ≤ 1 ∨
          limit ⟨[120], 1, true, 1, by decide, by decide⟩ < files [[97], [98]])) :=
  split_right_iff ⟨[120], 1, true, 1, by decide, by decide⟩ [[97], [98]] (by decide)

/-- `split -a 0 -b 1` on two bytes: the second piece has the name `y`. -/
theorem prefix_counted : ¬ ∀ env, ∃ turns out,
    readLoop ⟨[120], 0, true, 1, by decide, by decide⟩ env turns [[97, 98]]
        (start ⟨[120], 0, true, 1, by decide, by decide⟩) = some out ∧
      Right ⟨[120], 0, true, 1, by decide, by decide⟩ [97, 98] out := by
  intro h
  obtain ⟨turns, out, hrun, hright⟩ := h ⟨fun _ => true, fun _ => true⟩
  have hout : readLoop ⟨[120], 0, true, 1, by decide, by decide⟩ ⟨fun _ => true, fun _ => true⟩ 3
      [[97, 98]] (start ⟨[120], 0, true, 1, by decide, by decide⟩) =
      some (.ok ⟨0, some [122], [([120], [97])], some ([121], [98]), 2⟩) := rfl
  obtain rfl := readLoop_unique hrun hout
  obtain ⟨letters, hname, hlength⟩ := hright.names.formed [121] (by decide)
  obtain rfl := List.eq_nil_of_length_eq_zero hlength
  exact absurd hname (by decide)

end Rustybox.Split
