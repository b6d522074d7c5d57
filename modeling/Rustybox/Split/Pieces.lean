import Rustybox.Split.Split
import Mathlib.Data.List.Basic

/-!
# The pieces of a split

What every turn keeps: the names are counted up, and the pieces joined are what has been read.

With a count to fill, every piece but the last is full.  No bytes at all, or more than an `off_t`
holds, is an end in the first buffer.
-/

namespace Rustybox.Split

open Rust

variable {o : Options} {env : Env}

/-- The contents in the order of creation. -/
def State.contents (s : State) : List Str := s.pieces.map Prod.snd

def State.names (s : State) : List Str := s.pieces.map Prod.fst

/-- The prefix with a suffix of the requested length. -/
def Formed (o : Options) (name : Str) : Prop :=
  ∃ letters : Str, name = o.sfx ++ letters ∧ letters.length = o.suffixLen

/-- The names are in byte order and of the form that is requested, and so is the name to come. -/
structure NamesOk (o : Options) (s : State) : Prop where
  increasing : s.names.Pairwise (· < ·)
  formed : ∀ name ∈ s.names, Formed o name
  pending : ∀ name ∈ s.pfx, Formed o name

theorem nameAt_formed (n : ℕ) : Formed o (nameAt o n) :=
  ⟨suffix o.suffixLen n, rfl, suffix_length o.suffixLen n⟩

theorem nameAt_lt {m n : ℕ} (hmn : m < n) (hn : n < limit o) : nameAt o m < nameAt o n :=
  List.append_left_lt (suffix_lt hmn hn)

theorem Named.namesOk {s : State} (h : Named o s) : NamesOk o s := by
  obtain ⟨hnames, hle, hpfx⟩ := h
  refine ⟨?_, ?_, ?_⟩
  · rw [State.names, hnames, List.pairwise_map]
    refine List.pairwise_lt_range.imp_of_mem ?_
    intro m n _ hn hmn
    exact nameAt_lt hmn (Nat.lt_of_lt_of_le (List.mem_range.mp hn) hle)
  · intro name hname
    rw [State.names, hnames] at hname
    obtain ⟨n, _, rfl⟩ := List.mem_map.mp hname
    exact nameAt_formed n
  · intro name hname
    rw [hpfx] at hname
    split at hname
    · rw [← Option.some.inj hname]
      exact nameAt_formed _
    · cases hname

/-- Names do not depend on what has been written. -/
theorem Named.of_names {s t : State} (h : Named o s) (hpfx : t.pfx = s.pfx)
    (hnames : t.names = s.names) : Named o t := by
  have hlength : t.pieces.length = s.pieces.length := by
    have hsame := congrArg List.length hnames
    rwa [State.names, State.names, List.length_map, List.length_map] at hsame
  obtain ⟨hs, hle, hs'⟩ := h
  refine ⟨?_, hlength ▸ hle, ?_⟩
  · rw [hlength]
    exact hnames.trans hs
  · rw [hpfx, hlength]
    exact hs'

theorem named_snoc {s t : State} (h : Named o s)
    (hpieces : t.pieces = s.pieces ++ [(nameAt o s.pieces.length, [])])
    (hlt : s.pieces.length < limit o)
    (hpfx : t.pfx = if s.pieces.length + 1 < limit o then some (nameAt o (s.pieces.length + 1))
      else none) : Named o t := by
  have hlength : t.pieces.length = s.pieces.length + 1 := by
    rw [hpieces, List.length_append]
    rfl
  refine ⟨?_, hlength ▸ hlt, hlength ▸ hpfx⟩
  rw [hlength, hpieces, List.range_succ, List.map_append, List.map_append, h.1]
  rfl

theorem openNext_named (husable : Usable o) {s t : State} (h : Named o s)
    (hopen : openNext o env s = .ok t) :
    Named o t ∧ t.closed = s.pieces ∧ t.current = some (nameAt o s.pieces.length, []) ∧
      t.remaining = o.cnt ∧ s.pieces.length < limit o := by
  obtain ⟨pfx, hsome, rfl⟩ := openNext_ok hopen
  obtain ⟨hnames, hle, hpfx⟩ := h
  rw [hpfx] at hsome
  split at hsome
  · rename_i hlt
    obtain rfl := Option.some.inj hsome
    refine ⟨named_snoc ⟨hnames, hle, hpfx⟩ ?_ hlt ?_, rfl, rfl, by dsimp only, hlt⟩
    · rfl
    · exact nextFile_nameAt husable hlt
  · cases hsome

/-- A file is open unless it is time for the next one. -/
def Ready (s : State) : Prop := s.remaining ≠ 0 → s.current.isSome

theorem opened_named (husable : Usable o) {s t : State} (h : Named o s) (hready : Ready s)
    (hopened : Opened o env s t) :
    Named o t ∧ ∃ name content, t.current = some (name, content) ∧
      ((s.remaining ≠ 0 ∧ t.remaining = s.remaining ∧
          s.contents = t.closed.map Prod.snd ++ [content]) ∨
        (s.remaining = 0 ∧ t.remaining = o.cnt ∧ s.contents = t.closed.map Prod.snd ∧
          content = [] ∧ s.contents.length < limit o)) := by
  rcases hopened with ⟨hremaining, rfl⟩ | ⟨hremaining, hopen⟩
  · obtain ⟨⟨name, content⟩, hcurrent⟩ := Option.isSome_iff_exists.mp (hready hremaining)
    refine ⟨h, name, content, hcurrent, Or.inl ⟨hremaining, rfl, ?_⟩⟩
    rw [State.contents, State.pieces, hcurrent, List.map_append]
    rfl
  · obtain ⟨hnamed, hclosed, hcurrent, hcnt, hlt⟩ := openNext_named husable h hopen
    refine ⟨hnamed, _, _, hcurrent, Or.inr ⟨hremaining, hcnt, ?_, rfl, ?_⟩⟩
    · rw [State.contents, hclosed]
    · rw [State.contents, List.length_map]
      exact hlt

/-- How a turn that goes well moves on: a part of the buffer is written to the last piece, which may
be a new one. -/
structure Moved (o : Options) (src : Str) (s : State) (src' : Str) (s' : State) : Prop where
  named : Named o s'
  open_ : s'.current.isSome
  parts : ∃ (front : List Str) (content : Str) (remaining : ℤ),
    src' = src.drop (toWrite o src remaining).1.toNat ∧
    s'.remaining = (toWrite o src remaining).2 ∧
    s'.contents = front ++ [content ++ src.take (toWrite o src remaining).1.toNat] ∧
    ((s.remaining ≠ 0 ∧ remaining = s.remaining ∧ s.contents = front ++ [content]) ∨
      (s.remaining = 0 ∧ remaining = o.cnt ∧ s.contents = front ∧ content = [] ∧
        front.length < limit o))

theorem turn_moved (husable : Usable o) {src src' : Str} {s s' : State} (hnamed : Named o s)
    (hready : Ready s) (h : turn o env src s = .ok (src', s')) : Moved o src s src' s' := by
  obtain ⟨t, hopened, hsrc, hremaining, hpfx, hclosed, hcurrent⟩ := turn_ok h
  obtain ⟨ht, name, content, htcurrent, hcases⟩ := opened_named husable hnamed hready hopened
  rw [htcurrent, Option.map_some] at hcurrent
  refine ⟨ht.of_names hpfx ?_, ?_, t.closed.map Prod.snd, content, t.remaining, hsrc,
    hremaining, ?_, ?_⟩
  · rw [State.names, State.names, State.pieces, State.pieces, hclosed, hcurrent, htcurrent]
    simp
  · rw [hcurrent]
    rfl
  · rw [State.contents, State.pieces, hclosed, hcurrent]
    simp
  · rcases hcases with hsame | ⟨hzero, hcnt, hcontents, hempty, hlt⟩
    · exact Or.inl hsame
    · exact Or.inr ⟨hzero, hcnt, hcontents, hempty, hcontents ▸ hlt⟩

theorem turn_error_names (husable : Usable o) {src : Str} {s s' : State} {die : Die}
    (hnamed : Named o s) (hready : Ready s) (h : turn o env src s = .error (die, s')) :
    NamesOk o s' := by
  rcases turn_error h with ⟨rfl, _⟩ | ⟨t, hopened, hpfx, hpieces⟩
  · exact hnamed.namesOk
  · have ht := (opened_named husable hnamed hready hopened).1
    refine (ht.of_names hpfx ?_).namesOk
    rw [State.names, State.names, hpieces]

/-! ### The loops -/

/-- What is left of the buffer, and of the names. -/
def room (o : Options) (src : Str) (s : State) : ℕ :=
  src.length + (limit o - s.contents.length)

theorem toWrite_pos {src : Str} (hsrc : src ≠ []) {remaining : ℤ}
    (hfill : o.byBytes = true → 0 < remaining) : 0 < (toWrite o src remaining).1.toNat := by
  have hlength : 0 < src.length := List.length_pos_iff.mpr hsrc
  rw [toWrite]
  split
  · rename_i hbytes
    have hpos := hfill hbytes
    dsimp only
    split
    · omega
    · omega
  · split <;> dsimp only <;> omega

/-- A turn uses up the buffer or a name. -/
theorem Moved.room_lt {src src' : Str} {s s' : State} (h : Moved o src s src' s')
    (hsrc : src ≠ []) (hfill : s.remaining ≠ 0 → o.byBytes = true → 0 < s.remaining) :
    room o src' s' < room o src s := by
  obtain ⟨front, content, remaining, hsrc', _, hcontents, hcases⟩ := h.parts
  have hlength : src'.length = src.length - (toWrite o src remaining).1.toNat := by
    rw [hsrc', List.length_drop]
  have hpieces : s'.contents.length = front.length + 1 := by
    rw [hcontents, List.length_append]
    rfl
  have hsome : 0 < src.length := List.length_pos_iff.mpr hsrc
  rw [room, room]
  rcases hcases with ⟨hremaining, hsame, hbefore⟩ | ⟨_, _, hbefore, _, hlt⟩
  · have hpos := toWrite_pos hsrc (hsame ▸ hfill hremaining)
    have hkept : s.contents.length = front.length + 1 := by
      rw [hbefore, List.length_append]
      rfl
    omega
  · have hless : s.contents.length = front.length := by rw [hbefore]
    omega

/-- What the turns on a buffer keep.  `I` is about what is left of it, and `D` about the end. -/
structure Keeps (o : Options) (env : Env) (I : Str → State → Prop) (D : State → Prop) : Prop where
  moves : ∀ {src s src' s'}, I src s → src ≠ [] → turn o env src s = .ok (src', s') →
    I src' s' ∧ room o src' s' < room o src s
  dies : ∀ {src s die s'}, I src s → src ≠ [] → turn o env src s = .error (die, s') → D s'

theorem bufferLoop_keeps {I : Str → State → Prop} {D : State → Prop} (hkeeps : Keeps o env I D)
    {turns : ℕ} {src : Str} {s : State} (h : I src s) (hsrc : src ≠ [])
    (hturns : room o src s < turns) :
    (∃ die s', bufferLoop o env turns src s = some (.error (die, s')) ∧ D s') ∨
      ∃ s', bufferLoop o env turns src s = some (.ok s') ∧ I [] s' := by
  induction turns generalizing src s with
  | zero => exact absurd hturns (Nat.not_lt_zero _)
  | succ turns ih =>
    rw [bufferLoop]
    cases hturn : turn o env src s with
    | error e =>
      obtain ⟨die, s'⟩ := e
      exact Or.inl ⟨die, s', rfl, hkeeps.dies h hsrc hturn⟩
    | ok p =>
      obtain ⟨src', s'⟩ := p
      obtain ⟨hI, hroom⟩ := hkeeps.moves h hsrc hturn
      dsimp only
      by_cases hdone : src' = []
      · rw [if_pos hdone]
        exact Or.inr ⟨s', rfl, hdone ▸ hI⟩
      · rw [if_neg hdone]
        exact ih hI hdone (by omega)

/-- The turns that are enough for the reads. -/
def enough (o : Options) (reads : List Str) : ℕ := reads.flatten.length + limit o + 1

/-- What the loop over the reads keeps.  `J` is about the reads so far, and `I` about the turns on
the next one. -/
theorem readLoop_keeps {J : List Str → State → Prop} {I : List Str → Str → Str → State → Prop}
    {D : State → Prop} {all : List Str}
    (hkeeps : ∀ past buffer, past ++ [buffer] <+: all → Keeps o env (I past buffer) D)
    (hbegin : ∀ {past buffer s}, J past s → buffer ≠ [] → I past buffer buffer s)
    (hend : ∀ {past buffer s}, I past buffer [] s → J (past ++ [buffer]) s)
    {turns : ℕ} {reads : List Str} (hreads : ∀ buffer ∈ reads, buffer ≠ [])
    (hturns : enough o reads ≤ turns) {past : List Str} (hall : past ++ reads = all) {s : State}
    (h : J past s) :
    ∃ out, readLoop o env turns reads s = some out ∧
      match out with
      | .error (_, s') => D s'
      | .ok s' => J all s' := by
  induction reads generalizing past s with
  | nil =>
    rw [List.append_nil] at hall
    exact ⟨.ok s, rfl, hall ▸ h⟩
  | cons buffer reads ih =>
    have hall' : past ++ [buffer] ++ reads = all := by
      rw [List.append_assoc, List.singleton_append, hall]
    have hlength : (buffer :: reads).flatten.length = buffer.length + reads.flatten.length := by
      rw [List.flatten_cons, List.length_append]
    rw [enough] at hturns
    have hroom : room o buffer s < turns := by
      rw [room]
      omega
    have hbuffer : buffer ≠ [] := hreads buffer List.mem_cons_self
    rw [readLoop]
    have hbuffers := bufferLoop_keeps (hkeeps past buffer ⟨reads, hall'⟩) (hbegin h hbuffer) hbuffer
      hroom
    rcases hbuffers with ⟨die, s', hloop, hD⟩ | ⟨s', hloop, hI⟩
    · rw [hloop]
      exact ⟨_, rfl, hD⟩
    · rw [hloop]
      have hmore : enough o reads ≤ turns := by
        rw [enough]
        omega
      have hrest : ∀ other ∈ reads, other ≠ [] := fun other hother =>
        hreads other (List.mem_cons_of_mem _ hother)
      exact ih hrest hmore hall' (hend hI)

/-! ## Splitting by a count -/

/-- What of a piece is counted. -/
def size (o : Options) (content : Str) : ℕ :=
  if o.byBytes then content.length else content.count newline

/-- Exactly as many bytes, or as many lines, as it should hold. -/
def Exactly (o : Options) (content : Str) : Prop :=
  size o content = o.count ∧
    (o.byBytes = false → ∀ c ∈ content.getLast?, c = newline)

def final : Result State → State
  | .error (_, s) => s
  | .ok s => s

def died : Result State → Bool
  | .error _ => true
  | .ok _ => false

/-- The outcome is right: a death, or the input in full pieces, and in any case good names. -/
structure Right (o : Options) (input : Str) (out : Result State) : Prop where
  names : NamesOk o (final out)
  joined : died out = false → (final out).contents.flatten = input
  full : died out = false → ∀ content ∈ (final out).contents.dropLast, Exactly o content
  last : died out = false → ∀ content ∈ (final out).contents.getLast?, content ≠ []

theorem right_died {input : Str} {die : Die} {s : State} (h : NamesOk o s) :
    Right o input (.error (die, s)) := by
  refine ⟨h, ?_, ?_, ?_⟩ <;> intro halive <;> cases halive

theorem size_append (content part : Str) :
    size o (content ++ part) = size o content + size o part := by
  rw [size, size, size]
  split
  · exact List.length_append
  · exact List.count_append

theorem bmod_of_pos {n m : ℕ} (hn : n < m) (h : 0 < (n : ℤ).bmod m) : (n : ℤ).bmod m = n := by
  have hsame : (n : ℤ) % m = n :=
    Int.emod_eq_of_lt (Int.natCast_nonneg n) (Int.ofNat_lt.mpr hn)
  rw [Int.bmod_def, hsame] at h ⊢
  split
  · rfl
  · rename_i hhalf
    rw [if_neg hhalf] at h
    omega

theorem Options.lt (o : Options) : o.count < 2 ^ 64 := by
  have hbound := o.bound
  split at hbound <;> omega

theorem cnt_of_pos (h : 0 < o.cnt) : o.cnt = o.count :=
  bmod_of_pos o.lt h

theorem bmod_of_zero {n m : ℕ} (hn : n = 0) : (n : ℤ).bmod m = 0 := by
  rw [hn]
  exact Int.zero_bmod

theorem cnt_of_zero (h : o.count = 0) : o.cnt = 0 :=
  bmod_of_zero h

theorem bmod_nonpos {n m : ℕ} (hn : n < (m + 1) / 2) (h : (n : ℤ).bmod m ≤ 0) : n = 0 := by
  have hsame : (n : ℤ) % m = n :=
    Int.emod_eq_of_lt (Int.natCast_nonneg n) (Int.ofNat_lt.mpr (by omega))
  rw [Int.bmod_def, hsame, if_pos (by omega)] at h
  omega

theorem count_of_lines (hlines : o.byBytes = false) (h : o.cnt ≤ 0) : o.count = 0 := by
  have hbound := o.bound
  rw [if_neg (by rw [hlines]; exact Bool.false_ne_true)] at hbound
  exact bmod_nonpos (Nat.lt_of_lt_of_eq hbound (by decide)) h

theorem take_line {src : Str} {i : ℕ} (h : src.findIdx? (· = newline) = some i) :
    (src.take (i + 1)).count newline = 1 ∧ ∀ c ∈ (src.take (i + 1)).getLast?, c = newline := by
  obtain ⟨hi, hfound, hbefore⟩ := List.findIdx?_eq_some_iff_getElem.mp h
  have hline : src.take (i + 1) = src.take i ++ [newline] := by
    rw [← List.take_append_getElem hi, of_decide_eq_true hfound]
  have hnone : newline ∉ src.take i := by
    intro hmem
    obtain ⟨j, hj, hbyte⟩ := List.mem_take_iff_getElem.mp hmem
    exact hbefore j (by omega) (decide_eq_true hbyte)
  rw [hline]
  refine ⟨?_, ?_⟩
  · rw [List.count_append, List.count_eq_zero_of_not_mem hnone, List.count_singleton_self]
  · intro c hc
    rw [List.getLast?_concat] at hc
    exact (Option.some.inj hc).symm

/-- What is written while there is something to fill. -/
theorem toWrite_spec {src : Str} {remaining : ℤ} (hremaining : 0 < remaining) :
    let n := (toWrite o src remaining).1
    let left := (toWrite o src remaining).2
    0 ≤ left ∧ (size o (src.take n.toNat) : ℤ) + left = remaining ∧
      (left = 0 → o.byBytes = false → ∀ c ∈ (src.take n.toNat).getLast?, c = newline) := by
  dsimp only
  rw [toWrite, size]
  cases hbytes : o.byBytes with
  | true =>
    rw [if_pos rfl, if_pos rfl]
    dsimp only
    split
    · rw [List.length_take]
      refine ⟨?_, ?_, ?_⟩
      · omega
      · omega
      · intro _ hfalse
        cases hfalse
    · rw [List.length_take]
      refine ⟨?_, ?_, ?_⟩
      · omega
      · omega
      · intro _ hfalse
        cases hfalse
  | false =>
    rw [if_neg Bool.false_ne_true, if_neg Bool.false_ne_true]
    split
    · rename_i i hi
      obtain ⟨hone, hlast⟩ := take_line hi
      have hn : ((i : ℤ) + 1).toNat = i + 1 := by omega
      dsimp only
      rw [hn, hone]
      refine ⟨?_, ?_, ?_⟩
      · omega
      · omega
      · intro _ _
        exact hlast
    · rename_i hnone
      have hfree : newline ∉ src := by
        intro hmem
        exact absurd (List.findIdx?_eq_none_iff.mp hnone newline hmem) (by decide)
      dsimp only
      rw [Int.toNat_natCast, List.take_length, List.count_eq_zero_of_not_mem hfree]
      refine ⟨?_, ?_, ?_⟩
      · omega
      · omega
      · intro hzero
        omega

/-- The state between two turns, with a count to fill. -/
structure Counted (o : Options) (input : Str) (s : State) : Prop where
  named : Named o s
  ready : Ready s
  joined : s.contents.flatten = input
  some_ : ∀ content ∈ s.contents, content ≠ []
  full : (s.remaining = 0 ∧ ∀ content ∈ s.contents, Exactly o content) ∨
    (0 < s.remaining ∧ ∃ front content, s.contents = front ++ [content] ∧
      (∀ content ∈ front, Exactly o content) ∧ (size o content : ℤ) + s.remaining = o.count)

theorem counted_start : Counted o [] (start o) := by
  refine ⟨named_start, ?_, rfl, ?_, Or.inl ⟨rfl, ?_⟩⟩
  · intro hremaining
    exact absurd rfl hremaining
  · intro content hcontent
    cases hcontent
  · intro content hcontent
    cases hcontent

/-- A turn keeps the count. -/
theorem Counted.moved (hcnt : 0 < o.cnt) {input src src' : Str} {s s' : State}
    (h : Counted o input s) (hsrc : src ≠ []) (hmoved : Moved o src s src' s') :
    ∃ part, src = part ++ src' ∧ Counted o (input ++ part) s' := by
  obtain ⟨front, content, remaining, hsrc', hremaining', hcontents, hcases⟩ := hmoved.parts
  -- Before the write, the pieces before this one are full, and this one lacks `remaining`.
  have hbefore : 0 < remaining ∧ (∀ content ∈ front, Exactly o content ∧ content ≠ []) ∧
      (size o content : ℤ) + remaining = o.count ∧
      s.contents.flatten = front.flatten ++ content := by
    rcases hcases with ⟨hopen, hsame, hhad⟩ | ⟨hzero, hnew, hhad, hempty, _⟩
    · rcases h.full with ⟨hclosed, _⟩ | ⟨hpos, front', content', hhad', hfull, hsize⟩
      · exact absurd hclosed hopen
      · rw [hhad] at hhad'
        obtain ⟨rfl, hcons⟩ := List.append_inj' hhad' rfl
        obtain rfl : content = content' := List.head_eq_of_cons_eq hcons
        refine ⟨hsame ▸ hpos, ?_, hsame ▸ hsize, ?_⟩
        · intro other hother
          refine ⟨hfull other hother, h.some_ other ?_⟩
          rw [hhad]
          exact List.mem_append_left _ hother
        · rw [hhad, List.flatten_append, List.flatten_singleton]
    · rcases h.full with ⟨_, hfull⟩ | ⟨hpos, _⟩
      · refine ⟨hnew ▸ hcnt, ?_, ?_, ?_⟩
        · intro other hother
          rw [← hhad] at hother
          exact ⟨hfull other hother, h.some_ other hother⟩
        · rw [hnew, cnt_of_pos hcnt, hempty, size]
          split <;> simp
        · rw [hhad, hempty, List.append_nil]
      · omega
  obtain ⟨hpos, hfront, hsize, hflatten⟩ := hbefore
  obtain ⟨hleft, hcount, hlast⟩ := @toWrite_spec o src _ hpos
  have hnpos := toWrite_pos (o := o) hsrc fun _ => hpos
  generalize hpart : src.take (toWrite o src remaining).1.toNat = part at hcontents hcount hlast
  have hsplit : src = part ++ src' := by
    rw [← hpart, hsrc', List.take_append_drop]
  have hpartsome : part ≠ [] := by
    rw [← hpart]
    intro hnone
    rcases List.take_eq_nil_iff.mp hnone with hzero | hnil
    · omega
    · exact hsrc hnil
  have htotal : (size o (content ++ part) : ℤ) + s'.remaining = o.count := by
    rw [size_append, hremaining']
    omega
  refine ⟨part, hsplit, hmoved.named, fun _ => hmoved.open_, ?_, ?_, ?_⟩
  · rw [hcontents, List.flatten_append, List.flatten_singleton, ← h.joined, hflatten,
      List.append_assoc]
  · intro other hother
    rw [hcontents] at hother
    rcases List.mem_append.mp hother with hmem | hmem
    · exact (hfront other hmem).2
    · rw [List.mem_singleton.mp hmem]
      exact List.append_ne_nil_of_right_ne_nil _ hpartsome
  · rw [hcontents]
    by_cases hzero : s'.remaining = 0
    · refine Or.inl ⟨hzero, ?_⟩
      intro other hother
      rcases List.mem_append.mp hother with hmem | hmem
      · exact (hfront other hmem).1
      · rw [List.mem_singleton.mp hmem]
        refine ⟨by omega, ?_⟩
        intro hlines c hc
        rw [List.getLast?_append_of_ne_nil _ hpartsome] at hc
        exact hlast (by omega) hlines c hc
    · refine Or.inr ⟨by omega, front, _, rfl, ?_, htotal⟩
      intro other hother
      exact (hfront other hother).1

theorem Counted.right {input : Str} {s : State} (h : Counted o input s) :
    Right o input (.ok s) := by
  refine ⟨h.named.namesOk, fun _ => h.joined, fun _ => ?_, fun _ => ?_⟩
  · intro content hcontent
    rcases h.full with ⟨_, hfull⟩ | ⟨_, front, content', hcontents, hfull, _⟩
    · exact hfull content ((List.dropLast_sublist _).subset hcontent)
    · change content ∈ s.contents.dropLast at hcontent
      rw [hcontents, List.dropLast_concat] at hcontent
      exact hfull content hcontent
  · intro content hcontent
    exact h.some_ content (List.mem_of_getLast? hcontent)

/-- With a count to fill the outcome is right. -/
theorem right_of_pos (husable : Usable o) (hcnt : 0 < o.cnt) {reads : List Str}
    (hreads : ∀ buffer ∈ reads, buffer ≠ []) :
    ∃ turns out, readLoop o env turns reads (start o) = some out ∧ Right o reads.flatten out := by
  have hkeeps : ∀ (past : List Str) (buffer : Str), past ++ [buffer] <+: reads →
      Keeps o env (fun src s => ∃ part, buffer = part ++ src ∧ Counted o (past.flatten ++ part) s)
        (NamesOk o) := by
    intro past buffer _
    refine ⟨?_, ?_⟩
    · rintro src s src' s' ⟨part, hbuffer, hcounted⟩ hsrc hturn
      have hmoved := turn_moved husable hcounted.named hcounted.ready hturn
      obtain ⟨more, hmore, hcounted'⟩ := hcounted.moved hcnt hsrc hmoved
      refine ⟨⟨part ++ more, ?_, ?_⟩, hmoved.room_lt hsrc fun hopen _ => ?_⟩
      · rw [hbuffer, hmore, List.append_assoc]
      · rw [← List.append_assoc]
        exact hcounted'
      · rcases hcounted.full with ⟨hzero, _⟩ | ⟨hpos, _⟩
        · exact absurd hzero hopen
        · exact hpos
    · rintro src s die s' ⟨part, _, hcounted⟩ _ hturn
      exact turn_error_names husable hcounted.named hcounted.ready hturn
  obtain ⟨out, hout, hgood⟩ := readLoop_keeps (J := fun past s => Counted o past.flatten s) hkeeps
    (fun h _ => ⟨[], rfl, by rwa [List.append_nil]⟩)
    (fun h => by
      obtain ⟨part, hpart, hcounted⟩ := h
      rw [List.append_nil] at hpart
      rw [List.flatten_append, List.flatten_singleton, hpart]
      exact hcounted)
    hreads (Nat.le_refl _) (List.nil_append reads) counted_start
  refine ⟨_, out, hout, ?_⟩
  cases out with
  | error e => exact right_died hgood
  | ok s => exact hgood.right

/-! ### Nothing to fill -/

/-- A count of bytes that nothing can fill leaves no turn but the opening of another file. -/
theorem Moved.stuck (hbytes : o.byBytes = true) (hcnt : o.cnt ≤ 0) {src src' : Str} {s s' : State}
    (hzero : s.remaining = 0) (h : Moved o src s src' s') : src' = src ∧ s'.remaining = 0 := by
  obtain ⟨front, content, remaining, hsrc', hremaining', _, hcases⟩ := h.parts
  generalize o.cnt = cnt at hcnt hcases
  obtain rfl : remaining = cnt := by
    rcases hcases with ⟨hopen, _⟩ | ⟨_, hnew, _⟩
    · exact absurd hzero hopen
    · exact hnew
  have hwrite : toWrite o src remaining = (remaining, remaining - remaining) := by
    rw [toWrite, if_pos hbytes]
    dsimp only
    rw [if_neg (by omega)]
  rw [hwrite] at hsrc' hremaining'
  dsimp only at hsrc' hremaining'
  have hnone : remaining.toNat = 0 := by omega
  rw [hnone, List.drop_zero] at hsrc'
  exact ⟨hsrc', hremaining'.trans (Int.sub_self _)⟩

/-- Then the outcome of any input is a death. -/
theorem right_of_stuck (husable : Usable o) (hbytes : o.byBytes = true) (hcnt : o.cnt ≤ 0)
    {reads : List Str} (hsome : reads ≠ []) (hreads : ∀ buffer ∈ reads, buffer ≠ []) :
    ∃ turns out, readLoop o env turns reads (start o) = some out ∧ Right o reads.flatten out := by
  have hkeeps : ∀ (past : List Str) (buffer : Str), past ++ [buffer] <+: reads →
      Keeps o env (fun src s => src ≠ [] ∧ Named o s ∧ s.remaining = 0) (NamesOk o) := by
    intro past buffer _
    refine ⟨?_, ?_⟩
    · rintro src s src' s' ⟨_, hnamed, hzero⟩ hsrc hturn
      have hmoved := turn_moved husable hnamed (fun h => absurd hzero h) hturn
      obtain ⟨hsame, hzero'⟩ := hmoved.stuck hbytes hcnt hzero
      exact ⟨⟨hsame ▸ hsrc, hmoved.named, hzero'⟩, hmoved.room_lt hsrc fun hopen => absurd hzero hopen⟩
    · rintro src s die s' ⟨_, hnamed, hzero⟩ _ hturn
      exact turn_error_names husable hnamed (fun h => absurd hzero h) hturn
  obtain ⟨out, hout, hgood⟩ := readLoop_keeps
    (J := fun past s => past = [] ∧ Named o s ∧ s.remaining = 0) hkeeps
    (fun h hbuffer => ⟨hbuffer, h.2⟩) (fun h => absurd rfl h.1)
    hreads (Nat.le_refl _) (List.nil_append reads) ⟨rfl, named_start, rfl⟩
  refine ⟨_, out, hout, ?_⟩
  cases out with
  | error e => exact right_died hgood
  | ok s => exact absurd hgood.1 hsome

end Rustybox.Split
