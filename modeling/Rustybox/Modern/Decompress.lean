import Rustybox.Modern.Compress

/-!
# What gzip leaves behind

The output is created before the input is known to be good, and nothing takes it back.  A decoder
reads one member of its input and stops.

* `no_trace_iff`: a failure changes no file exactly when it comes before the output is created, or
  the output already held what has been written into it.
* `members_iff`: several members are restored exactly when all but the first are empty.
-/

namespace Rustybox.Modern.Compress

variable {env : Env} {c : Codec} {o : Options} {f : Path} {w : World}

/-! ### Failures -/

/-- The same names, with the same contents. -/
def SameFiles (fs fs' : Fs) : Prop := ∀ p, fs'.content p = fs.content p

/-- A failure leaves all files as they were. -/
def LeavesNoTrace (env : Env) (c : Codec) (o : Options) (f : Path) (w : World) : Prop :=
  ∀ e, (process env c o f w).1 = .error e → SameFiles w.fs (process env c o f w).2.fs

/-- The output `out`, which is the file `i`, is created for the input. -/
structure Started (env : Env) (c : Codec) (o : Options) (f : Path) (fs : Fs) (input : ℕ) (out : Path)
    (i : ℕ) (fs' : Fs) : Prop where
  can_open : env.canOpen f = true
  node : fs.node f = some input
  to_file : o.toStdout = false
  out_name : outName c o f = some out
  unguarded : o.force = true ∨ fs.node out = none
  created : fs.create env out = some (i, fs')

def written (env : Env) (c : Codec) (o : Options) (src : Source) : List UInt8 :=
  (limit env.room (code c o src).1).1

/-- The input is coded to its end, the output has room for it, and the input goes if it is to. -/
def Finishes (env : Env) (c : Codec) (o : Options) (f : Path) (src : Source) : Prop :=
  (code c o src).2 = true ∧ (limit env.room (code c o src).1).2 = true ∧
    (o.keep = true ∨ env.canRemove f = true)

theorem content_write (fs : Fs) (i : ℕ) (bytes : List UInt8) (p : Path) :
    (fs.write i bytes).content p =
      if fs.node p = some i then some (.file bytes) else fs.content p := by
  rw [Fs.content, Fs.content, Fs.write]
  cases hp : fs.node p with
  | none => rfl
  | some j =>
    by_cases hij : j = i
    · rw [hij, if_pos rfl]
      exact congrArg some (Function.update_self _ _ _)
    · rw [if_neg (fun h => hij (Option.some.inj h))]
      exact congrArg some (Function.update_of_ne hij _ _)

/-- Writing into the output changes no file exactly when it held the same before. -/
theorem sameFiles_write_iff {fs fs' : Fs} {out : Path} {i : ℕ}
    (h : fs.create env out = some (i, fs')) (bytes : List UInt8) :
    SameFiles fs (fs'.write i bytes) ↔ fs.content out = some (.file bytes) := by
  rw [Fs.create] at h
  split at h
  · cases hout : fs.node out with
    | none =>
      rw [hout] at h
      cases h
      have hnone : fs.content out = none := by rw [Fs.content, hout]; rfl
      have hsome : ((fs.add out).write fs.next bytes).content out = some (.file bytes) := by
        rw [content_write]
        exact if_pos (Function.update_self out (some fs.next) fs.node)
      constructor
      · intro hsame
        have := hsame out
        rw [hnone, hsome] at this
        cases this
      · intro hheld
        rw [hnone] at hheld
        cases hheld
    | some j =>
      rw [hout] at h
      dsimp only at h
      split at h
      · cases h
      · cases h
        have htwice : ((fs.write i []).write i bytes).content = (fs.write i bytes).content := by
          funext p
          rw [content_write, content_write, content_write]
          by_cases hp : fs.node p = some i
          · exact (if_pos hp).trans (if_pos hp).symm
          · exact (if_neg hp).trans ((if_neg hp).trans (if_neg hp).symm)
        constructor
        · intro hsame
          rw [← hsame out, htwice, content_write, if_pos hout]
        · intro hheld p
          rw [htwice, content_write]
          split
          · next hp => rw [← hheld, Fs.content, Fs.content, hp, hout]
          · rfl
  · cases h

theorem sameFiles_of_not_started (h : ∀ input out i fs', ¬ Started env c o f w.fs input out i fs') :
    SameFiles w.fs (process env c o f w).2.fs := by
  rw [process.eq_def]
  split
  · next input hopen hnode =>
    split
    · exact fun _ => rfl
    · next hstdout =>
      split
      · exact fun _ => rfl
      · next out hname =>
        split
        · exact fun _ => rfl
        · next hguard =>
          split
          · exact fun _ => rfl
          · next i fs' hcreate =>
            refine absurd ⟨hopen, hnode, by simpa using hstdout, hname, ?_, hcreate⟩
              (h input out i fs')
            cases hforce : o.force with
            | true => exact .inl rfl
            | false =>
              rw [hforce] at hguard
              exact .inr (Option.not_isSome_iff_eq_none.mp hguard)
  · exact fun _ => rfl

/-- What happens once the output is created. -/
theorem Started.process_eq {input i : ℕ} {out : Path} {fs' : Fs}
    (h : Started env c o f w.fs input out i fs') :
    process env c o f w =
      let src := fs'.source input
      let fs := fs'.write i (written env c o src)
      if ((code c o src).2 && (limit env.room (code c o src).1).2) = false then
        (.error .coding, { w with fs := fs })
      else if o.keep then (.ok (), { w with fs := fs })
      else if env.canRemove f then (.ok (), { w with fs := fs.remove f })
      else (.error (.remove f), { w with fs := fs }) := by
  have hguard : (!o.force && (w.fs.node out).isSome) = false := by
    rcases h.unguarded with hforce | hnone
    · rw [hforce]
      rfl
    · rw [hnone, Option.isSome_none, Bool.and_false]
  simp only [process, h.can_open, h.node, h.to_file, h.out_name, hguard, h.created, written,
    Bool.false_eq_true, if_false, Bool.not_eq_true']

/-- It fails exactly when it does not finish, and then the output is all that is different. -/
theorem Started.fails_iff {input i : ℕ} {out : Path} {fs' : Fs}
    (h : Started env c o f w.fs input out i fs') :
    ((∃ e, (process env c o f w).1 = .error e) ↔ ¬ Finishes env c o f (fs'.source input)) ∧
      (¬ Finishes env c o f (fs'.source input) →
        (process env c o f w).2.fs = fs'.write i (written env c o (fs'.source input))) := by
  rw [h.process_eq, Finishes]
  dsimp only
  cases hok : (code c o (fs'.source input)).2 with
  | false => simp
  | true =>
    cases hfits : (limit env.room (code c o (fs'.source input)).1).2 with
    | false => simp
    | true =>
      cases hkeep : o.keep with
      | true => simp
      | false => cases hremove : env.canRemove f <;> simp

theorem Started.process_ok {input i : ℕ} {out : Path} {fs' : Fs}
    (h : Started env c o f w.fs input out i fs') (hfin : Finishes env c o f (fs'.source input))
    (hkeep : o.keep = false) :
    process env c o f w =
      (.ok (), { w with fs := (fs'.write i (written env c o (fs'.source input))).remove f }) := by
  obtain ⟨hok, hfits, hremove⟩ := hfin
  rw [h.process_eq]
  simp [hok, hfits, hkeep, hremove.resolve_left (by rw [hkeep]; exact Bool.false_ne_true)]

/-- **A failure leaves no trace exactly when no output has been created, or the output already held
what was written.** -/
theorem no_trace_iff (env : Env) (c : Codec) (o : Options) (f : Path) (w : World) :
    LeavesNoTrace env c o f w ↔
      ∀ input out i fs', Started env c o f w.fs input out i fs' →
        Finishes env c o f (fs'.source input) ∨
          w.fs.content out = some (.file (written env c o (fs'.source input))) := by
  constructor
  · intro h input out i fs' hs
    obtain ⟨hfails, hleft⟩ := hs.fails_iff
    by_cases hfin : Finishes env c o f (fs'.source input)
    · exact .inl hfin
    · obtain ⟨e, he⟩ := hfails.mpr hfin
      have hsame := h e he
      rw [hleft hfin] at hsame
      exact .inr ((sameFiles_write_iff hs.created _).mp hsame)
  · intro h e he
    by_cases hstarted : ∃ input out i fs', Started env c o f w.fs input out i fs'
    · obtain ⟨input, out, i, fs', hs⟩ := hstarted
      obtain ⟨hfails, hleft⟩ := hs.fails_iff
      have hfin := hfails.mp ⟨e, he⟩
      rw [hleft hfin]
      exact (sameFiles_write_iff hs.created _).mpr ((h input out i fs' hs).resolve_left hfin)
    · exact sameFiles_of_not_started fun input out i fs' hs => hstarted ⟨input, out, i, fs', hs⟩

/-- One file, `x.gz`, with a byte in it. -/
def oneFile : Fs where
  node p := if p = "x.gz".toList then some 0 else none
  data _ := .file [0]
  next := 1
  node_lt {p i} h := by
    split at h
    · cases h
      exact Nat.one_pos
    · cases h

/-- A crate whose decoder finds no header. -/
def noHeader : Crate where
  encoder _ src := (src.bytes, !src.fails)
  decoder _ := ([], false)

/-- `gunzip x.gz` fails and leaves an empty file `x`. -/
theorem failure_leaves_output :
    let r := process {} (gzip noHeader) { decompress := true, toStdout := false } "x.gz".toList
      { fs := oneFile }
    r.1 = .error .coding ∧ oneFile.content "x".toList = none ∧
      r.2.fs.content "x".toList = some (.file []) ∧
      ¬ LeavesNoTrace {} (gzip noHeader) { decompress := true, toStdout := false } "x.gz".toList
        { fs := oneFile } := by
  intro r
  have herr : r.1 = .error .coding := by rfl
  have hout : r.2.fs.content "x".toList = some (.file []) := by rfl
  refine ⟨herr, by rfl, hout, fun h => ?_⟩
  have hsame := h _ herr "x".toList
  rw [hout] at hsame
  cases hsame

/-! ### Several members -/

inductive Family where
  | gzip
  | bzip2
  | xz

def Family.codec : Family → Crate → Codec
  | .gzip => Compress.gzip
  | .bzip2 => Compress.bzip2
  | .xz => Compress.xz

/-- A decoder gives back the first stream of its input, and reads no further. -/
structure FirstMember (crate : Crate) : Prop where
  first : ∀ level bytes rest,
    crate.decoder ⟨(crate.encoder level ⟨bytes, false⟩).1 ++ rest, false⟩ = (bytes, true)

/-- Some bytes and the level that they are compressed with. -/
structure Member where
  bytes : List UInt8
  level : ℕ

/-- The streams of the members, one behind the other. -/
def streams (c : Codec) (ms : List Member) : List UInt8 :=
  ms.flatMap fun m => (c.encode ⟨m.bytes, false⟩ m.level).1

def plainBytes (ms : List Member) : List UInt8 := ms.flatMap Member.bytes

/-- `gunzip` and its like restore the members: to the standard output, and to a file whose input
goes only then. -/
def Restores (c : Codec) (ms : List Member) : Prop :=
  (∀ w : World, (run {} c c.decomp [c.decomp] { w with stdin := ⟨streams c ms, false⟩ }).2.stdout =
      w.stdout ++ plainBytes ms) ∧
    ∀ (w : World) (base : Path), isOption (base ++ c.suffix) = false → w.fs.node base = none →
      w.fs.content (base ++ c.suffix) = some (.file (streams c ms)) →
      let fs := (run {} c c.decomp [c.decomp, base ++ c.suffix] w).2.fs
      fs.content base = some (.file (plainBytes ms)) ∧
        (fs.content (base ++ c.suffix) = none → fs.content base = some (.file (plainBytes ms)))

section Members

variable {family : Family} {crate : Crate}

theorem decode_streams (h : FirstMember crate) (m : Member) (ms : List Member) :
    (family.codec crate).decode ⟨streams (family.codec crate) (m :: ms), false⟩ = (m.bytes, true) := by
  rw [streams, List.flatMap_cons]
  cases family with
  | gzip => exact h.first _ _ _
  | bzip2 => exact h.first _ _ _
  | xz => exact h.first _ _ _

theorem baseName_decomp : baseName (family.codec crate).decomp = (family.codec crate).decomp := by
  cases family <;> rfl

theorem decomp_ne_cat : (family.codec crate).decomp ≠ (family.codec crate).cat := by
  cases family with
  | gzip => exact (by decide : "gunzip".toList ≠ "zcat".toList)
  | bzip2 => exact (by decide : "bunzip2".toList ≠ "bzcat".toList)
  | xz => exact (by decide : "unxz".toList ≠ "xzcat".toList)

theorem suffix_ne_nil : (family.codec crate).suffix ≠ [] := by
  cases family with
  | gzip => exact (by decide : ".gz".toList ≠ [])
  | bzip2 => exact (by decide : ".bz2".toList ≠ [])
  | xz => exact (by decide : ".xz".toList ≠ [])

theorem stripSuffix_append (base suffix : List Char) :
    stripSuffix suffix (base ++ suffix) = some base := by
  rw [stripSuffix, if_pos (List.isSuffixOf_iff_suffix.mpr (List.suffix_append _ _)),
    List.length_append, Nat.add_sub_cancel, List.take_left]

/-- Under its own name the applet decompresses into a file. -/
theorem run_decomp (env : Env) (args : List Path) (w : World) (hargs : ∀ a ∈ args, isOption a = false) :
    run env (family.codec crate) (family.codec crate).decomp ((family.codec crate).decomp :: args) w =
      let o : Options := { decompress := true, toStdout := false, files := args }
      if args = [] then
        let (bytes, ok) := (family.codec crate).decode w.stdin
        (if ok then 0 else 1, { w with stdin := ⟨[], false⟩, stdout := w.stdout ++ bytes })
      else processAll env (family.codec crate) o args w := by
  have hparse : ∀ (o : Options) (args : List Path), (∀ a ∈ args, isOption a = false) →
      parseArgs o args = some { o with files := o.files ++ args } := by
    intro o args hargs
    induction args generalizing o with
    | nil => rw [parseArgs, List.append_nil]
    | cons a args ih =>
      rw [parseArgs, hargs a List.mem_cons_self, if_neg Bool.false_ne_true,
        ih _ fun a ha => hargs a (List.mem_cons_of_mem _ ha), List.append_assoc]
      rfl
  have hcat : ((family.codec crate).decomp == (family.codec crate).cat) = false :=
    beq_eq_false_iff_ne.mpr decomp_ne_cat
  rw [run, List.drop_one, List.tail_cons, baseName_decomp]
  dsimp only
  rw [hparse _ _ hargs, hcat, beq_self_eq_true, Bool.true_or, List.nil_append]
  rfl

/-- The first member is all that comes out. -/
theorem run_file (h : FirstMember crate) (m : Member) (ms : List Member) {w : World} {base : Path}
    (hname : isOption (base ++ (family.codec crate).suffix) = false) (hnode : w.fs.node base = none)
    (hcontent : w.fs.content (base ++ (family.codec crate).suffix) =
      some (.file (streams (family.codec crate) (m :: ms)))) :
    (run {} (family.codec crate) (family.codec crate).decomp
      [(family.codec crate).decomp, base ++ (family.codec crate).suffix] w).2.fs.content base =
      some (.file m.bytes) := by
  obtain ⟨input, hinput, hdata⟩ := Option.map_eq_some_iff.mp hcontent
  have hne : base ≠ base ++ (family.codec crate).suffix := fun he =>
    suffix_ne_nil (List.append_right_eq_self.mp he.symm)
  rw [run_decomp {} _ w (fun a ha => List.mem_singleton.mp ha ▸ hname)]
  dsimp only
  rw [if_neg (List.cons_ne_nil _ _)]
  generalize ho : Options.mk true false false false 6 [base ++ (family.codec crate).suffix] = o
  have hstarted : Started {} (family.codec crate) o (base ++ (family.codec crate).suffix) w.fs input
      base w.fs.next (w.fs.add base) :=
    { can_open := rfl
      node := hinput
      to_file := by rw [← ho]
      out_name := by rw [← ho]; exact stripSuffix_append _ _
      unguarded := .inr hnode
      created := by simp only [Fs.create, if_true, hnode] }
  have hcode : code (family.codec crate) o ((w.fs.add base).source input) = (m.bytes, true) := by
    have hold : input ≠ w.fs.next := Nat.ne_of_lt (w.fs.node_lt hinput)
    have hsame : (w.fs.add base).data input = w.fs.data input := Function.update_of_ne hold _ _
    rw [Fs.source, hsame, hdata, ← ho]
    exact decode_streams h m ms
  have hwritten : written {} (family.codec crate) o ((w.fs.add base).source input) = m.bytes := by
    rw [written, hcode]
    rfl
  have hfin : Finishes {} (family.codec crate) o (base ++ (family.codec crate).suffix)
      ((w.fs.add base).source input) := by
    rw [Finishes, hcode]
    exact ⟨rfl, rfl, .inr rfl⟩
  rw [processAll, hstarted.process_ok hfin (by rw [← ho]), hwritten]
  have hkept : (((w.fs.add base).write w.fs.next m.bytes).remove
      (base ++ (family.codec crate).suffix)).node base = some w.fs.next :=
    (Function.update_of_ne hne _ _).trans (Function.update_self _ _ _)
  show Option.map _ ((((w.fs.add base).write w.fs.next m.bytes).remove
      (base ++ (family.codec crate).suffix)).node base) = _
  rw [hkept]
  exact congrArg some (Function.update_self _ _ _)

/-- **Concatenated streams are restored exactly when all members but the first are empty.** -/
theorem members_iff (family : Family) {crate : Crate} (h : FirstMember crate) {ms : List Member}
    (hne : ms ≠ []) :
    Restores (family.codec crate) ms ↔ ∀ m ∈ ms.tail, m.bytes = [] := by
  cases ms with
  | nil => exact absurd rfl hne
  | cons m ms =>
  have hplain : plainBytes (m :: ms) = m.bytes ↔ ∀ m' ∈ ms, m'.bytes = [] := by
    rw [plainBytes, List.flatMap_cons, List.append_right_eq_self, List.flatMap_eq_nil_iff]
  have hstdin : ∀ w : World, (run {} (family.codec crate) (family.codec crate).decomp
      [(family.codec crate).decomp]
      { w with stdin := ⟨streams (family.codec crate) (m :: ms), false⟩ }).2.stdout =
      w.stdout ++ m.bytes := by
    intro w
    rw [run_decomp {} [] _ nofun, if_pos rfl, decode_streams h]
  rw [List.tail_cons, ← hplain]
  constructor
  · intro hr
    have hout := hr.1 { fs := oneFile }
    rw [hstdin] at hout
    exact (List.append_cancel_left hout).symm
  · intro hsame
    refine ⟨fun w => by rw [hstdin, hsame], fun w base hname hnode hcontent => ?_⟩
    have hfile := run_file h m ms hname hnode hcontent
    dsimp only
    rw [hsame]
    exact ⟨hfile, fun _ => hfile⟩

end Members

/-- A stream with a mark before each byte, and another one at its end. -/
def unframe : List UInt8 → List UInt8 × Bool
  | 1 :: b :: rest => ((b :: (unframe rest).1), (unframe rest).2)
  | 0 :: _ => ([], true)
  | _ => ([], false)

def framed : Crate where
  encoder _ src := (src.bytes.flatMap (fun b => [1, b]) ++ [0], !src.fails)
  decoder src := ((unframe src.bytes).1, (unframe src.bytes).2 && !src.fails)

theorem firstMember_framed : FirstMember framed where
  first _ bytes rest := by
    have hunframe : unframe (bytes.flatMap (fun b => [1, b]) ++ [0] ++ rest) = (bytes, true) := by
      induction bytes with
      | nil => rfl
      | cons b bytes ih =>
        show (b :: (unframe (bytes.flatMap (fun b => [1, b]) ++ [0] ++ rest)).1,
          (unframe (bytes.flatMap (fun b => [1, b]) ++ [0] ++ rest)).2) = (b :: bytes, true)
        rw [ih]
    simp only [framed, hunframe, Bool.not_false, Bool.and_true]

theorem members_iff_empty_tail :
    FirstMember framed ∧ Restores (Family.gzip.codec framed) [⟨[7], 6⟩, ⟨[], 9⟩] :=
  ⟨firstMember_framed, (members_iff .gzip firstMember_framed (by decide)).mpr (by simp)⟩

/-- Of two members with a byte each the second one is lost. -/
theorem second_member_lost :
    let ms : List Member := [⟨[7], 6⟩, ⟨[8], 6⟩]
    FirstMember framed ∧
      (run {} (gzip framed) "gunzip".toList ["gunzip".toList]
        { fs := oneFile, stdin := ⟨streams (gzip framed) ms, false⟩ }).2.stdout = [7] ∧
      ¬ Restores (gzip framed) ms := by
  intro ms
  have hout : (run {} (gzip framed) "gunzip".toList ["gunzip".toList]
      { fs := oneFile, stdin := ⟨streams (gzip framed) ms, false⟩ }).2.stdout = [7] := by rfl
  refine ⟨firstMember_framed, hout, fun h => ?_⟩
  have hboth : [7] = plainBytes ms := hout.symm.trans (h.1 { fs := oneFile })
  cases hboth

end Rustybox.Modern.Compress
