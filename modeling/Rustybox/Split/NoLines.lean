import Rustybox.Split.Pieces
import Mathlib.Data.List.TakeWhile

/-!
# Splitting by no lines

`-l 0` is accepted.  A read without a newline becomes a piece of its own; the first newline takes
`remaining` below zero, and from then on everything goes to one piece.
-/

namespace Rustybox.Split

open Rust

variable {o : Options} {env : Env}

/-- No line ends in a read. -/
def unended (buffer : Str) : Bool := newline ∉ buffer

/-- The pieces that `-l 0` makes of the reads. -/
def lump : List Str → List Str
  | [] => []
  | buffer :: reads => if unended buffer then buffer :: lump reads else [(buffer :: reads).flatten]

/-- How many they are. -/
def files (reads : List Str) : ℕ := min reads.length ((reads.takeWhile unended).length + 1)

theorem lump_length (reads : List Str) : (lump reads).length = files reads := by
  rw [files]
  induction reads with
  | nil => rfl
  | cons buffer reads ih =>
    rw [lump, List.takeWhile_cons]
    cases unended buffer with
    | true =>
      rw [if_pos rfl, if_pos rfl, List.length_cons, List.length_cons, List.length_cons, ih]
      omega
    | false =>
      rw [if_neg Bool.false_ne_true, if_neg Bool.false_ne_true, List.length_cons, List.length_cons,
        List.length_nil]
      omega

theorem lump_flatten (reads : List Str) : (lump reads).flatten = reads.flatten := by
  induction reads with
  | nil => rfl
  | cons buffer reads ih =>
    rw [lump]
    split
    · rw [List.flatten_cons, ih, List.flatten_cons]
    · rw [List.flatten_singleton]

theorem lump_some {reads : List Str} (hreads : ∀ buffer ∈ reads, buffer ≠ []) :
    ∀ content ∈ lump reads, content ≠ [] := by
  induction reads with
  | nil =>
    intro content hcontent
    cases hcontent
  | cons buffer reads ih =>
    intro content hcontent
    have hbuffer : buffer ≠ [] := hreads buffer List.mem_cons_self
    rw [lump] at hcontent
    split at hcontent
    · rcases List.mem_cons.mp hcontent with rfl | hmem
      · exact hbuffer
      · exact ih (fun other hother => hreads other (List.mem_cons_of_mem _ hother)) content hmem
    · rw [List.mem_singleton.mp hcontent, List.flatten_cons]
      exact List.append_ne_nil_of_left_ne_nil hbuffer _

/-- Reads without a newline are pieces, and so is the one after them. -/
theorem lump_unended {past : List Str} (hpast : ∀ buffer ∈ past, unended buffer = true) :
    lump past = past ∧ ∀ part, lump (past ++ [part]) = past ++ [part] := by
  induction past with
  | nil =>
    refine ⟨rfl, ?_⟩
    intro part
    rw [List.nil_append, lump]
    split
    · rfl
    · rw [List.flatten_singleton]
  | cons buffer past ih =>
    obtain ⟨hsame, hmore⟩ := ih fun other hother => hpast other (List.mem_cons_of_mem _ hother)
    have hbuffer := hpast buffer List.mem_cons_self
    refine ⟨?_, ?_⟩
    · rw [lump, if_pos hbuffer, hsame]
    · intro part
      rw [List.cons_append, lump, if_pos hbuffer, hmore part]

/-- After a newline what is read goes to the last piece. -/
theorem lump_ended {past : List Str} (hpast : ¬ ∀ buffer ∈ past, unended buffer = true) :
    ∃ front content, lump past = front ++ [content] ∧
      ∀ part, lump (past ++ [part]) = front ++ [content ++ part] := by
  induction past with
  | nil =>
    refine absurd ?_ hpast
    intro buffer hbuffer
    cases hbuffer
  | cons buffer past ih =>
    by_cases hbuffer : unended buffer = true
    · have hrest : ¬ ∀ buffer ∈ past, unended buffer = true := by
        intro hall
        refine hpast fun other hother => ?_
        rcases List.mem_cons.mp hother with rfl | hmem
        · exact hbuffer
        · exact hall other hmem
      obtain ⟨front, content, hsame, hmore⟩ := ih hrest
      refine ⟨buffer :: front, content, ?_, ?_⟩
      · rw [lump, if_pos hbuffer, hsame, List.cons_append]
      · intro part
        rw [List.cons_append, lump, if_pos hbuffer, hmore part, List.cons_append]
    · refine ⟨[], (buffer :: past).flatten, ?_, ?_⟩
      · rw [lump, if_neg hbuffer, List.nil_append]
      · intro part
        rw [List.cons_append, lump, if_neg hbuffer, List.nil_append, ← List.cons_append,
          List.flatten_append, List.flatten_singleton]

/-- After a newline it makes no difference how what follows is read. -/
theorem lump_split {past : List Str} {part : Str}
    (hended : ¬ ∀ buffer ∈ past ++ [part], unended buffer = true) (more : Str) :
    lump (past ++ [part ++ more]) = lump (past ++ [part] ++ [more]) := by
  induction past with
  | nil =>
    have hpart : ¬ unended part = true := by
      intro hpart
      refine hended fun buffer hbuffer => ?_
      rwa [List.mem_singleton.mp hbuffer]
    have hboth : ¬ unended (part ++ more) = true := by
      rw [unended, decide_eq_true_iff, not_not] at hpart ⊢
      exact List.mem_append_left _ hpart
    rw [List.nil_append, List.nil_append, List.singleton_append, lump, if_neg hboth, lump,
      if_neg hpart, List.flatten_singleton, List.flatten_cons, List.flatten_singleton]
  | cons buffer past ih =>
    rw [List.cons_append, List.cons_append, List.cons_append, lump, lump]
    by_cases hbuffer : unended buffer = true
    · rw [if_pos hbuffer, if_pos hbuffer, ih]
      intro hall
      refine hended fun other hother => ?_
      rcases List.mem_cons.mp hother with rfl | hmem
      · exact hbuffer
      · exact hall other hmem
    · rw [if_neg hbuffer, if_neg hbuffer]
      simp

/-- The state between two turns: the pieces are those of the parts written so far. -/
structure Lumped (parts : List Str) (s : State) : Prop where
  contents : s.contents = lump parts
  nonpos : s.remaining ≤ 0
  unended_ : s.remaining = 0 ↔ ∀ buffer ∈ parts, unended buffer = true

theorem lumped_start : Lumped [] (start o) := by
  refine ⟨rfl, Int.le_refl 0, fun _ => ?_, fun _ => rfl⟩
  intro buffer hbuffer
  cases hbuffer

theorem unended_snoc {past : List Str} {part : Str} :
    (∀ buffer ∈ past ++ [part], unended buffer = true) ↔
      (∀ buffer ∈ past, unended buffer = true) ∧ unended part = true := by
  rw [List.forall_mem_append, List.forall_mem_singleton]

/-- What is written is not empty, and it is the whole buffer or ends a line. -/
theorem toWrite_lines (hlines : o.byBytes = false) {src : Str} (hsrc : src ≠ []) (remaining : ℤ) :
    let part := src.take (toWrite o src remaining).1.toNat
    part ≠ [] ∧
      if unended part then part = src ∧ (toWrite o src remaining).2 = remaining
      else (toWrite o src remaining).2 = remaining - 1 := by
  dsimp only
  rw [toWrite, if_neg (by rw [hlines]; exact Bool.false_ne_true)]
  split
  · rename_i i hi
    have hn : ((i : ℤ) + 1).toNat = i + 1 := by omega
    obtain ⟨hone, _⟩ := take_line hi
    have hmem : newline ∈ src.take (i + 1) := List.count_pos_iff.mp (by omega)
    dsimp only
    rw [hn]
    refine ⟨List.ne_nil_of_mem hmem, ?_⟩
    rw [if_neg]
    rw [unended, decide_eq_true_iff, not_not]
    exact hmem
  · rename_i hnone
    have hfree : newline ∉ src := by
      intro hmem
      exact absurd (List.findIdx?_eq_none_iff.mp hnone newline hmem) (by decide)
    dsimp only
    rw [Int.toNat_natCast, List.take_length]
    refine ⟨hsrc, ?_⟩
    rw [if_pos]
    · exact ⟨rfl, rfl⟩
    · rw [unended, decide_eq_true_iff]
      exact hfree

theorem Lumped.moved (hlines : o.byBytes = false) (hcount : o.count = 0) {parts : List Str}
    {src src' : Str} {s s' : State} (h : Lumped parts s) (hsrc : src ≠ [])
    (hmoved : Moved o src s src' s') :
    ∃ part, part ≠ [] ∧ src = part ++ src' ∧ Lumped (parts ++ [part]) s' ∧
      (src' ≠ [] → s'.remaining ≠ 0) := by
  obtain ⟨front, content, remaining, hsrc', hremaining', hcontents, hcases⟩ := hmoved.parts
  obtain ⟨hsome, hwritten⟩ := toWrite_lines hlines hsrc remaining
  have hsplit := List.take_append_drop (toWrite o src remaining).1.toNat src
  rw [← hsrc'] at hsplit
  rw [← hremaining'] at hwritten
  generalize src.take (toWrite o src remaining).1.toNat = part at hsome hwritten hsplit hcontents
  have hcnt : o.cnt = 0 := cnt_of_zero hcount
  -- `remaining` is what it was, and the pieces are those with the part added
  have hbefore : remaining = s.remaining ∧ s'.contents = lump (parts ++ [part]) := by
    rcases hcases with ⟨hopen, hsame, hhad⟩ | ⟨hzero, hnew, hhad, hempty, _⟩
    · obtain ⟨front', content', hlump, hmore⟩ := lump_ended (mt h.unended_.mpr hopen)
      rw [h.contents, hlump] at hhad
      obtain ⟨rfl, hcons⟩ := List.append_inj' hhad rfl
      obtain rfl : content' = content := List.head_eq_of_cons_eq hcons
      exact ⟨hsame, hcontents.trans (hmore part).symm⟩
    · obtain ⟨hsame, hmore⟩ := lump_unended (h.unended_.mp hzero)
      refine ⟨hnew.trans (hcnt.trans hzero.symm), ?_⟩
      rw [hcontents, hempty, List.nil_append, hmore part, ← hhad, h.contents, hsame]
  obtain ⟨hsame, hcontents'⟩ := hbefore
  have hnonpos := h.nonpos
  refine ⟨part, hsome, hsplit.symm, ⟨hcontents', ?_, ?_⟩, ?_⟩
  · split at hwritten <;> omega
  · rw [unended_snoc, ← h.unended_]
    split at hwritten
    · rename_i hpart
      rw [hwritten.2, hsame]
      exact ⟨fun hzero => ⟨hzero, hpart⟩, fun hzero => hzero.1⟩
    · rename_i hpart
      exact ⟨fun hzero => by omega, fun hzero => absurd hzero.2 hpart⟩
  · intro hleft hzero
    split at hwritten
    · rw [hwritten.1] at hsplit
      exact hleft (List.append_right_eq_self.mp hsplit)
    · omega

/-! ### The run -/

def Env.Lively (env : Env) : Prop := ∀ n, env.opens n = true ∧ env.writes n = true

theorem xwrite_lively (hlively : env.Lively) (src : Str) {n : ℤ} (hn : 0 ≤ n) (s : State) :
    ∃ s', xwrite env src n s = .ok s' := by
  rw [xwrite]
  split
  · exact ⟨_, rfl⟩
  · rw [if_neg]
    · exact ⟨_, rfl⟩
    · rintro (hneg | hfails)
      · omega
      · rw [(hlively _).2] at hfails
        cases hfails

theorem openNext_lively (hlively : env.Lively) {s : State} {pfx : Str} (hpfx : s.pfx = some pfx)
    (hsome : pfx ≠ []) : ∃ s', openNext o env s = .ok s' := by
  rw [openNext, hpfx]
  dsimp only
  rw [if_neg]
  · exact ⟨_, rfl⟩
  · rintro (hempty | hfails)
    · exact hsome hempty
    · rw [(hlively _).1] at hfails
      cases hfails

theorem toWrite_lines_nonneg (hlines : o.byBytes = false) (src : Str) (remaining : ℤ) :
    0 ≤ (toWrite o src remaining).1 := by
  rw [toWrite, if_neg (by rw [hlines]; exact Bool.false_ne_true)]
  split <;> dsimp only <;> omega

/-- Where nothing fails, only the end of the names ends a turn. -/
theorem turn_lively (hlively : env.Lively) (hlines : o.byBytes = false) (src : Str) {s : State}
    (hname : s.remaining = 0 → ∃ pfx, s.pfx = some pfx ∧ pfx ≠ []) :
    ∃ p, turn o env src s = .ok p := by
  have hopen : ∃ t, (if s.remaining = 0 then openNext o env s else .ok s) = .ok t := by
    split
    · rename_i hzero
      obtain ⟨pfx, hpfx, hsome⟩ := hname hzero
      exact openNext_lively hlively hpfx hsome
    · exact ⟨s, rfl⟩
  obtain ⟨t, ht⟩ := hopen
  rw [turn, ht]
  dsimp only
  obtain ⟨s', hs'⟩ := xwrite_lively hlively src
    (toWrite_lines_nonneg hlines src t.remaining)
    { t with remaining := (toWrite o src t.remaining).2 }
  rw [hs']
  exact ⟨_, rfl⟩

theorem nameAt_some (hlimit : 1 < limit o) (n : ℕ) : nameAt o n ≠ [] := by
  intro hempty
  obtain ⟨_, hsuffix⟩ := List.append_eq_nil_iff.mp hempty
  have hzero : o.suffixLen = 0 := by
    rw [← suffix_length o.suffixLen n, hsuffix, List.length_nil]
  rw [limit, hzero, Nat.pow_zero] at hlimit
  exact Nat.lt_irrefl 1 hlimit

theorem files_of_unended {past reads : List Str} {buffer : Str}
    (hfront : past ++ [buffer] <+: reads) (hpast : ∀ other ∈ past, unended other = true) :
    past.length < files reads := by
  obtain ⟨rest, rfl⟩ := hfront
  have hlead : past.length ≤ ((past ++ ([buffer] ++ rest)).takeWhile unended).length := by
    rw [List.takeWhile_append_of_pos hpast, List.length_append]
    omega
  rw [files, List.append_assoc]
  rw [List.length_append, List.length_append, List.length_singleton]
  omega

/-- A run by no lines makes the pieces of `lump`, unless it dies.  Where nothing fails it does so
only for want of names. -/
theorem run_lumped (husable : Usable o) (hlines : o.byBytes = false) (hcount : o.count = 0)
    {reads : List Str} (hreads : ∀ buffer ∈ reads, buffer ≠ []) :
    ∃ turns out, readLoop o env turns reads (start o) = some out ∧
      match out with
      | .error (_, s) => NamesOk o s ∧ (env.Lively → 1 < limit o → limit o < files reads)
      | .ok s => Named o s ∧ Lumped reads s := by
  have hkeeps : ∀ (past : List Str) (buffer : Str), past ++ [buffer] <+: reads →
      Keeps o env
        (fun src s => Named o s ∧ Ready s ∧
          ((src = buffer ∧ src ≠ [] ∧ Lumped past s) ∨ ∃ part, part ≠ [] ∧ buffer = part ++ src ∧
            Lumped (past ++ [part]) s ∧ (src ≠ [] → s.remaining ≠ 0)))
        (fun s => NamesOk o s ∧ (env.Lively → 1 < limit o → limit o < files reads)) := by
    intro past buffer hfront
    refine ⟨?_, ?_⟩
    · rintro src s src' s' ⟨hnamed, hready, hstate⟩ hsrc hturn
      have hmoved := turn_moved husable hnamed hready hturn
      refine ⟨⟨hmoved.named, fun _ => hmoved.open_, Or.inr ?_⟩,
        hmoved.room_lt hsrc fun _ hbytes => absurd hbytes (by rw [hlines]; exact Bool.false_ne_true)⟩
      rcases hstate with ⟨rfl, _, hlumped⟩ | ⟨part, hsome, hbuffer, hlumped, hopen⟩
      · exact hlumped.moved hlines hcount hsrc hmoved
      · obtain ⟨more, hmore, hsrc', hlumped', hopen'⟩ := hlumped.moved hlines hcount hsrc hmoved
        have hended := mt hlumped.unended_.mpr (hopen hsrc)
        refine ⟨part ++ more, List.append_ne_nil_of_left_ne_nil hsome _, ?_, ?_, hopen'⟩
        · rw [hbuffer, hsrc', List.append_assoc]
        · have hended' : ¬ ∀ buffer ∈ past ++ [part] ++ [more], unended buffer = true := fun h =>
            hended (unended_snoc.mp h).1
          refine ⟨hlumped'.contents.trans (lump_split hended more).symm, hlumped'.nonpos, ?_⟩
          refine ⟨fun hzero => absurd (hlumped'.unended_.mp hzero) hended', fun hall => ?_⟩
          obtain ⟨hpast, hboth⟩ := unended_snoc.mp hall
          refine absurd (unended_snoc.mpr ⟨hpast, ?_⟩) hended
          rw [unended, decide_eq_true_iff] at hboth ⊢
          exact fun hmem => hboth (List.mem_append_left _ hmem)
    · rintro src s die s' ⟨hnamed, hready, hstate⟩ hsrc hturn
      refine ⟨turn_error_names husable hnamed hready hturn, ?_⟩
      intro hlively hlimit
      by_contra hfew
      have hname : s.remaining = 0 → ∃ pfx, s.pfx = some pfx ∧ pfx ≠ [] := by
        intro hzero
        have hlumped : Lumped past s := by
          rcases hstate with ⟨_, _, hlumped⟩ | ⟨_, _, _, _, hopen⟩
          · exact hlumped
          · exact absurd hzero (hopen hsrc)
        have hpast := hlumped.unended_.mp hzero
        have hlength : s.pieces.length = past.length := by
          rw [← List.length_map Prod.snd]
          exact congrArg List.length (hlumped.contents.trans (lump_unended hpast).1)
        have hless := files_of_unended hfront hpast
        refine ⟨_, hnamed.2.2.trans (if_pos ?_), nameAt_some hlimit _⟩
        omega
      obtain ⟨p, hp⟩ := turn_lively hlively hlines src hname
      rw [hp] at hturn
      cases hturn
  obtain ⟨out, hout, hgood⟩ := readLoop_keeps
    (J := fun past s => Named o s ∧ Ready s ∧ Lumped past s) hkeeps
    (fun h hbuffer => ⟨h.1, h.2.1, Or.inl ⟨rfl, hbuffer, h.2.2⟩⟩)
    (fun h => by
      obtain ⟨hnamed, hready, ⟨_, hnone, _⟩ | ⟨part, _, hbuffer, hlumped, _⟩⟩ := h
      · exact absurd rfl hnone
      · rw [List.append_nil] at hbuffer
        exact ⟨hnamed, hready, hbuffer ▸ hlumped⟩)
    hreads (Nat.le_refl _) (List.nil_append reads)
    ⟨named_start, fun h => absurd rfl h, lumped_start⟩
  refine ⟨_, out, hout, ?_⟩
  cases out with
  | error e => exact hgood
  | ok s => exact ⟨hgood.1, hgood.2.2⟩

end Rustybox.Split
