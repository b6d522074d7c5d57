import Rustybox.Dnsd.Reply

/-!
# Which queries get a sound reply

A reply is sound when it fits, says what it should, and does not depend on what was in the buffer.
The bytes up to the first NUL, with four more for type and class, are taken for the question.  The
reply is sound when they are the question and lie in the datagram, and when an error reply does not
inherit a count of answers.
-/

namespace Rustybox.Dnsd

open Rustybox.Rust

/-! ### Statements -/

/-- The number of answers that are appended. -/
def Outcome.count : Outcome → ℕ
  | .error _ _ => 0
  | .found _ _ => 1

/-- **A sound reply.** -/
def Sound (confData : List DnsEntry) (confTtl : UInt32) (silent : Bool) (mem : Memory)
    (d : Datagram) : Prop :=
  ∀ rep, reply confData confTtl silent mem d = some rep →
    rep.length ≤ maxPackLen ∧ Echoes d rep (lookUp confData (receive mem d)).count ∧
      ∀ mem', reply confData confTtl silent mem' d = some rep

/-- What the code takes for the question. -/
def taken (mem : Memory) : List UInt8 := load mem 12 (answb mem - 12)

/-- What is appended to the name, type and class of an answer. -/
def answerTail (confTtl : UInt32) (answstr : List UInt8) (outrRlen : UInt16) : List UInt8 :=
  beBytes 4 confTtl.toNat ++
    ([(outrRlen >>> 8).toUInt8, outrRlen.toUInt8] ++ answstr.take outrRlen.toNat)

/-- Nothing is sent: the packet is ignored, or an error is kept silent. -/
def Ignored (confData : List DnsEntry) (silent : Bool) (mem : Memory) : Prop :=
  load16 mem 4 = 0 ∨ load16 mem 2 &&& 0x8000 ≠ 0 ∨
    silent = true ∧ (lookUp confData mem).count = 0

/-- The first NUL is the end of the question's name. -/
def Aligned (mem : Memory) (d : Datagram) : Prop :=
  nameLength false 0 (d.bytes.drop 12) = some (queryLength mem + 1)

/-- The first NUL is within a label, but the bytes that are taken for the question, written twice
and with the tail of the answer, read as the question and a record all the same. -/
def Coincides (confTtl : UInt32) (mem : Memory) (d : Datagram) (answstr : List UInt8)
    (outrRlen : UInt16) : Prop :=
  ∃ q s answer, firstQuestion d.bytes = some q ∧
    takeQuestion (taken mem ++ (taken mem ++ answerTail confTtl answstr outrRlen)) = some (q, s) ∧
    takeRecord s = some (answer, [])

/-- **Which queries get a sound reply.** -/
def Answerable (confData : List DnsEntry) (confTtl : UInt32) (silent : Bool) (mem : Memory)
    (d : Datagram) : Prop :=
  Ignored confData silent (receive mem d) ∨
    answb (receive mem d) ≤ d.bytes.length ∧
      match lookUp confData (receive mem d) with
      | .error _ _ => Aligned (receive mem d) d ∧ be16 (d.bytes.drop 6) = 0
      | .found answstr outrRlen =>
        Aligned (receive mem d) d ∨ Coincides confTtl (receive mem d) d answstr outrRlen

/-! ### What is sent -/

section
variable {confData : List DnsEntry} {confTtl : UInt32} {silent : Bool} {mem : Memory}
  {d : Datagram}

theorem answb_pos (mem : Memory) : 17 ≤ answb mem := by
  rw [answb]
  omega

theorem reply_ignored (h : Ignored confData silent (receive mem d)) :
    reply confData confTtl silent mem d = none := by
  have hnone : (processPacket confData confTtl silent (receive mem d)).1 = 0 := by
    rw [processPacket]
    split
    · rfl
    rename_i hquer
    split
    · rfl
    rename_i hresponse
    obtain ⟨hsilent, hcount⟩ := (h.resolve_left hquer).resolve_left hresponse
    cases hout : lookUp confData (receive mem d) with
    | error errMsg flags => simp [hsilent]
    | found answstr rlen =>
      rw [hout] at hcount
      cases hcount
  rw [reply]
  cases hp : processPacket confData confTtl silent (receive mem d) with
  | mk r buf =>
    rw [hp] at hnone
    cases hnone
    rfl

theorem not_ignored (h : ¬ Ignored confData silent (receive mem d)) :
    load16 (receive mem d) 4 ≠ 0 ∧ ¬ load16 (receive mem d) 2 &&& 0x8000 ≠ 0 ∧
      ((lookUp confData (receive mem d)).count = 0 → silent = false) := by
  refine ⟨fun he => h (Or.inl he), fun he => h (Or.inr (Or.inl he)), fun hcount => ?_⟩
  rw [← Bool.not_eq_true]
  exact fun hs => h (Or.inr (Or.inr ⟨hs, hcount⟩))

/-- An error reply is the query with another header. -/
theorem reply_error {errMsg : String} {flags : UInt16}
    (h : ¬ Ignored confData silent (receive mem d))
    (hout : lookUp confData (receive mem d) = .error errMsg flags) :
    reply confData confTtl silent mem d =
      some (load (finish (receive mem d) flags) 0 (answb (receive mem d))) := by
  obtain ⟨hquer, hresponse, hsilent⟩ := not_ignored h
  have hfalse : silent = false := hsilent (by rw [hout]; rfl)
  have hp : processPacket confData confTtl silent (receive mem d) =
      (answb (receive mem d), finish (receive mem d) flags) := by
    rw [processPacket, if_neg hquer, if_neg hresponse, hout, hfalse]
    rfl
  have hpos := answb_pos (receive mem d)
  rw [reply, hp]
  split
  · rename_i heq
    have := congrArg Prod.fst heq
    dsimp only at this
    omega
  · rename_i heq
    cases heq
    rfl

/-- The buffer with the answer, before the header is finished. -/
def answered (confTtl : UInt32) (mem : Memory) (answstr : List UInt8) (outrRlen : UInt16) :
    Memory :=
  let end' := answb mem + (answb mem - 12)
  let buf := store mem (answb mem) (load mem 12 (answb mem - 12))
  let buf := store buf end' (beBytes 4 confTtl.toNat)
  let buf := store16 buf (end' + 4) outrRlen
  let buf := store buf (end' + 6) (answstr.take outrRlen.toNat)
  store16 buf 6 1

theorem reply_found {answstr : List UInt8} {outrRlen : UInt16}
    (h : ¬ Ignored confData silent (receive mem d))
    (hout : lookUp confData (receive mem d) = .found answstr outrRlen) :
    reply confData confTtl silent mem d =
      some (load (finish (answered confTtl (receive mem d) answstr outrRlen) 0x8400) 0
        (answb (receive mem d) + (answb (receive mem d) - 12) + 6 + outrRlen.toNat)) := by
  obtain ⟨hquer, hresponse, -⟩ := not_ignored h
  have hp : processPacket confData confTtl silent (receive mem d) =
      (answb (receive mem d) + (answb (receive mem d) - 12) + 6 + outrRlen.toNat,
        finish (answered confTtl (receive mem d) answstr outrRlen) 0x8400) := by
    rw [processPacket, if_neg hquer, if_neg hresponse, hout]
    rfl
  have hpos := answb_pos (receive mem d)
  rw [reply, hp]
  split
  · rename_i heq
    have := congrArg Prod.fst heq
    dsimp only at this
    omega
  · rename_i heq
    cases heq
    rfl

/-! ### The answer -/

theorem be16_bytes (v : UInt16) : be16 [(v >>> 8).toUInt8, v.toUInt8] = v.toNat := by
  have h := v.toNat_lt
  simp only [be16, UInt16.toNat_toUInt8, UInt16.toNat_shiftRight]
  simp [Nat.shiftRight_eq_div_pow]
  omega

theorem tableLookup_address {query answstr : List UInt8} (table : List DnsEntry)
    (h : tableLookup reqA query table = some answstr) : answstr.length = 4 := by
  induction table with
  | nil => cases h
  | cons d next ih =>
    rw [tableLookup, if_pos rfl] at h
    split at h
    · cases h
      exact length_leBytes _ _
    · exact ih h

/-- An answer fits in the packet, and its record in the answer; and the class is that of the
Internet. -/
theorem lookUp_found {mem : Memory} {answstr : List UInt8} {outrRlen : UInt16}
    (h : lookUp confData mem = .found answstr outrRlen) :
    load16 mem (answb mem - 2) = 1 ∧
      answb mem + (answb mem - 12) + 6 + outrRlen.toNat ≤ maxPackLen ∧
      (answstr.take outrRlen.toNat).length = outrRlen.toNat := by
  rw [lookUp] at h
  dsimp only at h
  split at h
  · cases h
  split at h
  · cases h
  rename_i hclass
  split at h
  · cases h
  rename_i htype
  split at h
  · cases h
  rename_i answ hanswer
  generalize hrlen : (if load16 mem (answb mem - 4) = reqPtr then UInt16.ofNat answ.length else 4) =
    rlen at h
  split at h
  · cases h
  rename_i hsize
  cases h
  refine ⟨Decidable.not_not.mp hclass, by omega, ?_⟩
  rw [List.length_take, ← hrlen]
  refine Nat.min_eq_left ?_
  split
  · rw [UInt16.toNat_ofNat']
    exact Nat.mod_le _ _
  · rename_i hptr
    have ha : load16 mem (answb mem - 4) = reqA := by
      by_contra hne
      exact htype ⟨hne, hptr⟩
    rw [ha] at hanswer
    rw [tableLookup_address confData hanswer]
    decide

theorem load_answered {mem : Memory} {answstr : List UInt8} {outrRlen : UInt16}
    (hlen : (answstr.take outrRlen.toNat).length = outrRlen.toNat) :
    load (answered confTtl mem answstr outrRlen) 12
        (answb mem + (answb mem - 12) + 6 + outrRlen.toNat - 12) =
      taken mem ++ (taken mem ++ answerTail confTtl answstr outrRlen) := by
  have hpos := answb_pos mem
  have httl : (beBytes 4 confTtl.toNat).length = 4 := by
    rw [beBytes, List.length_reverse, length_leBytes]
  have hsize : answb mem + (answb mem - 12) + 6 + outrRlen.toNat - 12 =
      (answb mem - 12) + ((answb mem - 12) + (4 + (2 + outrRlen.toNat))) := by omega
  have hfirst : 12 + (answb mem - 12) = answb mem := by omega
  have hparts : ∀ mem', load mem' 12 (answb mem + (answb mem - 12) + 6 + outrRlen.toNat - 12) =
      load mem' 12 (answb mem - 12) ++ (load mem' (answb mem) (answb mem - 12) ++
        (load mem' (answb mem + (answb mem - 12)) 4 ++
          (load mem' (answb mem + (answb mem - 12) + 4) 2 ++
            load mem' (answb mem + (answb mem - 12) + 6) outrRlen.toNat))) := by
    intro mem'
    rw [hsize, load_add, load_add, load_add, load_add, hfirst]
  have hquery : load (store mem (answb mem) (load mem 12 (answb mem - 12))) (answb mem)
      (answb mem - 12) = load mem 12 (answb mem - 12) := by
    have := load_store mem (answb mem) (load mem 12 (answb mem - 12))
    rwa [length_load] at this
  rw [hparts, answered]
  simp only [store16]
  -- each part is written once, and no other part is written over it
  refine congr (congrArg _ ?_) (congr (congrArg _ ?_) (congr (congrArg _ ?_)
    (congr (congrArg _ ?_) ?_)))
  · rw [load_store_of_disjoint (by simp), load_store_of_disjoint (by omega),
      load_store_of_disjoint (by omega), load_store_of_disjoint (by omega),
      load_store_of_disjoint (by omega)]
    rfl
  · rw [load_store_of_disjoint (by simp; omega), load_store_of_disjoint (by omega),
      load_store_of_disjoint (by omega), load_store_of_disjoint (by omega), hquery]
    rfl
  · rw [load_store_of_disjoint (by simp; omega), load_store_of_disjoint (by omega),
      load_store_of_disjoint (by omega)]
    exact (congrArg (load _ _) httl.symm).trans (load_store _ _ _)
  · rw [load_store_of_disjoint (by simp; omega), load_store_of_disjoint (by omega)]
    exact load_store _ _ _
  · rw [load_store_of_disjoint (by simp; omega)]
    exact (congrArg (load _ _) hlen.symm).trans (load_store _ _ _)

/-! ### The buffer before -/

theorem lookUp_congr {mem mem' : Memory} (hlen : queryLength mem = queryLength mem')
    (h : ∀ i < answb mem, mem i = mem' i) : lookUp confData mem = lookUp confData mem' := by
  have hpos := answb_pos mem
  have hanswb : answb mem = answb mem' := by rw [answb, answb, hlen]
  have hquery : load mem 12 (queryLength mem) = load mem' 12 (queryLength mem') := by
    rw [← hlen]
    exact load_congr fun i _ hi => h i (by rw [answb]; omega)
  have hflags : load16 mem 2 = load16 mem' 2 := load16_congr (h _ (by omega)) (h _ (by omega))
  have htype : load16 mem (answb mem - 4) = load16 mem' (answb mem' - 4) := by
    rw [← hanswb]
    exact load16_congr (h _ (by omega)) (h _ (by omega))
  have hclass : load16 mem (answb mem - 2) = load16 mem' (answb mem' - 2) := by
    rw [← hanswb]
    exact load16_congr (h _ (by omega)) (h _ (by omega))
  rw [lookUp, lookUp, hquery, hflags, htype, hclass, hanswb]

theorem finish_congr {mem mem' : Memory} {flags : UInt16} {i : ℕ} (h2 : mem 2 = mem' 2)
    (h3 : mem 3 = mem' 3) (h : mem i = mem' i) : finish mem flags i = finish mem' flags i := by
  have hflags : load16 mem 2 = load16 mem' 2 := load16_congr h2 h3
  rw [finish, finish, hflags]
  exact store_congr (store_congr (store_congr (store_congr h)))

theorem answered_congr {mem mem' : Memory} {answstr : List UInt8} {outrRlen : UInt16} {i : ℕ}
    (hanswb : answb mem = answb mem') (htaken : taken mem = taken mem') (h : mem i = mem' i) :
    answered confTtl mem answstr outrRlen i = answered confTtl mem' answstr outrRlen i := by
  rw [taken, taken] at htaken
  rw [answered, answered, htaken, hanswb]
  exact store_congr (store_congr (store_congr (store_congr (store_congr h))))

/-- **A question within the datagram** gets the same reply whatever was in the buffer. -/
theorem reply_congr (h : answb (receive mem d) ≤ d.bytes.length) (mem' : Memory) :
    reply confData confTtl silent mem' d = reply confData confTtl silent mem d := by
  have hpos := answb_pos (receive mem d)
  have hsame : ∀ i ≤ d.bytes.length, receive mem d i = receive mem' d i :=
    fun i hi => receive_congr mem mem' hi
  have hanswb := answb_congr mem mem' d
  have hout : lookUp confData (receive mem d) = lookUp confData (receive mem' d) :=
    lookUp_congr (queryLength_congr mem mem' d) fun i hi => hsame i (by omega)
  have hquer : load16 (receive mem d) 4 = load16 (receive mem' d) 4 :=
    load16_congr (hsame _ (by omega)) (hsame _ (by omega))
  have hflags : load16 (receive mem d) 2 = load16 (receive mem' d) 2 :=
    load16_congr (hsame _ (by omega)) (hsame _ (by omega))
  by_cases hignored : Ignored confData silent (receive mem d)
  · have hignored' : Ignored confData silent (receive mem' d) := by
      rw [Ignored, ← hquer, ← hflags, ← hout]
      exact hignored
    rw [reply_ignored hignored, reply_ignored hignored']
  have hignored' : ¬ Ignored confData silent (receive mem' d) := by
    rw [Ignored, ← hquer, ← hflags, ← hout]
    exact hignored
  cases hlook : lookUp confData (receive mem d) with
  | error errMsg flags =>
    rw [reply_error hignored hlook, reply_error hignored' (hout ▸ hlook), ← hanswb]
    refine congrArg some (load_congr fun i _ hi => (finish_congr ?_ ?_ ?_).symm)
    · exact hsame _ (by omega)
    · exact hsame _ (by omega)
    · exact hsame _ (by omega)
  | found answstr outrRlen =>
    have hlook' := hout ▸ hlook
    have htaken : taken (receive mem d) = taken (receive mem' d) := by
      rw [taken, taken, ← hanswb]
      exact load_congr fun i _ hi => hsame i (by omega)
    have hrlen := (lookUp_found hlook).2.2
    have hbody : load (answered confTtl (receive mem d) answstr outrRlen) 12 _ = _ :=
      load_answered hrlen
    have hbody' : load (answered confTtl (receive mem' d) answstr outrRlen) 12 _ = _ :=
      load_answered hrlen
    rw [reply_found hignored hlook, reply_found hignored' hlook', ← hanswb]
    rw [← hanswb, ← htaken, ← hbody] at hbody'
    have hsplit : answb (receive mem d) + (answb (receive mem d) - 12) + 6 + outrRlen.toNat =
        12 + (answb (receive mem d) + (answb (receive mem d) - 12) + 6 + outrRlen.toNat - 12) := by
      omega
    rw [hsplit, load_add, load_add, Nat.zero_add]
    refine congrArg some (congr (congrArg _ ?_) ?_)
    · refine load_congr fun i _ hi => (finish_congr ?_ ?_ ?_).symm
      · exact answered_congr hanswb htaken (hsame _ (by omega))
      · exact answered_congr hanswb htaken (hsame _ (by omega))
      · exact answered_congr hanswb htaken (hsame _ (by omega))
    · have hhigh : ∀ buf, load (finish buf 0x8400) 12 (answb (receive mem d) +
          (answb (receive mem d) - 12) + 6 + outrRlen.toNat - 12) = load buf 12 (answb (receive mem d)
            + (answb (receive mem d) - 12) + 6 + outrRlen.toNat - 12) :=
        fun buf => load_congr fun i hi _ => finish_high hi
      rw [hhigh, hhigh, hbody']

/-- Without the class in the datagram the answer depends on what was in the buffer. -/
theorem reply_differs {answstr : List UInt8} {outrRlen : UInt16}
    (h : d.bytes.length < answb (receive mem d))
    (hignored : ¬ Ignored confData silent (receive mem d))
    (hout : lookUp confData (receive mem d) = .found answstr outrRlen) :
    ∃ mem', reply confData confTtl silent mem' d ≠ reply confData confTtl silent mem d := by
  have hpos := answb_pos (receive mem d)
  obtain ⟨hclass, -, -⟩ := lookUp_found hout
  have hclassAt : answb (receive mem d) - 2 + 1 = answb (receive mem d) - 1 := by omega
  have hbyte : receive mem d (answb (receive mem d) - 1) = 1 := by
    have := toUInt8_load16 (receive mem d) (answb (receive mem d) - 2)
    rw [hclass, hclassAt] at this
    exact this.symm
  -- the last byte of the class is not the NUL behind the datagram
  have hbeyond : d.bytes.length < answb (receive mem d) - 1 := by
    refine Nat.lt_of_le_of_ne (by omega) fun heq => ?_
    rw [← heq, receive_nul] at hbyte
    cases hbyte
  refine ⟨fun i => if i = answb (receive mem d) - 1 then 2 else mem i, ?_⟩
  generalize hmem : (fun i => if i = answb (receive mem d) - 1 then 2 else mem i : Memory) = mem'
  have hanswb := answb_congr mem mem' d
  have htwo : receive mem' d (answb (receive mem d) - 1) = 2 := by
    rw [receive_high hbeyond, ← hmem]
    exact if_pos rfl
  have hclass' : load16 (receive mem' d) (answb (receive mem' d) - 2) ≠ 1 := by
    intro heq
    have := toUInt8_load16 (receive mem' d) (answb (receive mem' d) - 2)
    rw [heq, ← hanswb, hclassAt, htwo] at this
    cases this
  rw [reply_found hignored hout]
  intro hsame
  by_cases hignored' : Ignored confData silent (receive mem' d)
  · rw [reply_ignored hignored'] at hsame
    cases hsame
  cases hlook : lookUp confData (receive mem' d) with
  | error errMsg flags =>
    rw [reply_error hignored' hlook] at hsame
    have hlen := congrArg List.length (Option.some.inj hsame)
    rw [length_load, length_load, ← hanswb] at hlen
    omega
  | found answstr' outrRlen' => exact hclass' (lookUp_found hlook).1

/-! ### The question -/

theorem load_id (mem : Memory) (d : Datagram) : load (receive mem d) 0 2 = d.bytes.take 2 := by
  have h := d.header
  rw [load_receive (by omega), List.drop_zero]

theorem ancount_receive (mem : Memory) (d : Datagram) :
    ancount (receive mem d) = be16 (d.bytes.drop 6) := by
  have h := d.header
  have hall : load (receive mem d) 0 d.bytes.length = d.bytes := by
    rw [load_receive (by omega), List.drop_zero, List.take_length]
  conv_rhs => rw [← hall]
  rw [be16_drop_load (by omega), ancount]

theorem ancount_answered (mem : Memory) (answstr : List UInt8) (outrRlen : UInt16) :
    ancount (answered confTtl mem answstr outrRlen) = 1 := by
  have hone : ((1 : UInt16) >>> 8).toUInt8 = 0 := by decide
  simp [ancount, answered, store16, store, hone]

theorem load_id_answered (mem : Memory) (answstr : List UInt8) (outrRlen : UInt16) :
    load (answered confTtl mem answstr outrRlen) 0 2 = load mem 0 2 := by
  have hpos := answb_pos mem
  refine load_congr fun i _ hi => ?_
  simp only [answered, store16]
  rw [store_before (by omega), store_before (by omega), store_before (by omega),
    store_before (by omega), store_before (by omega)]

theorem length_taken (mem : Memory) : (taken mem).length = queryLength mem + 5 := by
  rw [taken, length_load, answb]
  omega

/-- What is taken for the question is the question. -/
theorem firstQuestion_of_aligned (h : answb (receive mem d) ≤ d.bytes.length)
    (ha : Aligned (receive mem d) d) : firstQuestion d.bytes = some (taken (receive mem d)) ∧
      ∀ t, takeQuestion (taken (receive mem d) ++ t) = some (taken (receive mem d), t) := by
  have hpos := answb_pos (receive mem d)
  have hlen := length_taken (receive mem d)
  have htaken : taken (receive mem d) = (d.bytes.drop 12).take (queryLength (receive mem d) + 5) := by
    rw [taken, load_receive (by omega), answb]
    congr 1
    omega
  have hname : nameLength false 0 (taken (receive mem d)) =
      some ((taken (receive mem d)).length - 4) := by
    rw [hlen, htaken]
    exact nameLength_take (by omega) ha
  have hall : ∀ t, takeQuestion (taken (receive mem d) ++ t) = some (taken (receive mem d), t) :=
    fun t => takeQuestion_of_length rfl (nameLength_append t hname) (by omega)
  refine ⟨?_, hall⟩
  have hsplit : d.bytes.drop 12 = taken (receive mem d) ++
      (d.bytes.drop 12).drop (queryLength (receive mem d) + 5) := by
    rw [htaken, List.take_append_drop]
  rw [firstQuestion, hsplit, hall]
  rfl

/-- If all that is taken is the question of the datagram, the first NUL ends its name. -/
theorem aligned_of_firstQuestion (h : firstQuestion d.bytes = some (taken (receive mem d))) :
    answb (receive mem d) ≤ d.bytes.length ∧ Aligned (receive mem d) d := by
  have hpos := answb_pos (receive mem d)
  have hheader := d.header
  obtain ⟨⟨q, r⟩, hq, heq⟩ := Option.map_eq_some_iff.mp h
  dsimp only at heq
  rw [heq] at hq
  obtain ⟨hsplit, hname, -⟩ := takeQuestion_some hq
  have hlen := length_taken (receive mem d)
  have htotal := congrArg List.length hsplit
  rw [List.length_drop, List.length_append, hlen] at htotal
  rw [hlen] at hname
  refine ⟨?_, hname⟩
  rw [answb]
  omega

/-! ### The main result -/

theorem echoes_error_iff {flags : UInt16} :
    Echoes d (load (finish (receive mem d) flags) 0 (answb (receive mem d))) 0 ↔
      answb (receive mem d) ≤ d.bytes.length ∧ Aligned (receive mem d) d ∧
        be16 (d.bytes.drop 6) = 0 := by
  have hpos := answb_pos (receive mem d)
  rw [echoes_finish (by omega) (load_id mem d), ancount_receive]
  constructor
  · rintro ⟨hcount, q, s, answers, hq, htake, hmany⟩
    rw [takeMany] at hmany
    cases hmany
    obtain ⟨hsplit, -, -⟩ := takeQuestion_some htake
    rw [List.append_nil] at hsplit
    obtain ⟨hin, ha⟩ := aligned_of_firstQuestion (hq.trans (congrArg some hsplit.symm))
    exact ⟨hin, ha, hcount⟩
  · rintro ⟨hin, ha, hcount⟩
    obtain ⟨hq, hall⟩ := firstQuestion_of_aligned hin ha
    have htake := hall []
    rw [List.append_nil] at htake
    exact ⟨hcount, _, _, [], hq, htake, rfl⟩

theorem echoes_found_iff {answstr : List UInt8} {outrRlen : UInt16}
    (hin : answb (receive mem d) ≤ d.bytes.length)
    (hout : lookUp confData (receive mem d) = .found answstr outrRlen) :
    Echoes d (load (finish (answered confTtl (receive mem d) answstr outrRlen) 0x8400) 0
        (answb (receive mem d) + (answb (receive mem d) - 12) + 6 + outrRlen.toNat)) 1 ↔
      Aligned (receive mem d) d ∨ Coincides confTtl (receive mem d) d answstr outrRlen := by
  have hpos := answb_pos (receive mem d)
  have hrlen := (lookUp_found hout).2.2
  rw [echoes_finish (by omega) ((load_id_answered _ _ _).trans (load_id mem d)), ancount_answered,
    load_answered hrlen]
  constructor
  · rintro ⟨-, q, s, answers, hq, htake, hmany⟩
    obtain ⟨answer, hanswer, -⟩ := takeMany_one_some hmany
    exact Or.inr ⟨q, s, answer, hq, htake, hanswer⟩
  · rintro (ha | ⟨q, s, answer, hq, htake, hanswer⟩)
    · obtain ⟨hq, hall⟩ := firstQuestion_of_aligned hin ha
      have hname := (takeQuestion_some (hall [])).2.1
      have hfour : 4 ≤ (taken (receive mem d)).length := by
        rw [length_taken]
        omega
      have httl : (beBytes 4 confTtl.toNat).length = 4 := by
        rw [beBytes, List.length_reverse, length_leBytes]
      have hdata : be16 [(outrRlen >>> 8).toUInt8, outrRlen.toUInt8] =
          (answstr.take outrRlen.toNat).length := by
        rw [hrlen]
        exact be16_bytes outrRlen
      rw [List.append_nil] at hname
      exact ⟨rfl, _, _, _, hq, hall _,
        takeMany_one (takeRecord_answer hname hfour httl rfl hdata)⟩
    · exact ⟨rfl, q, s, [answer], hq, htake, takeMany_one hanswer⟩

end

/-- **A reply is sound** exactly for an answerable query. -/
theorem sound_iff (confData : List DnsEntry) (confTtl : UInt32) (silent : Bool) (mem : Memory)
    (d : Datagram) :
    Sound confData confTtl silent mem d ↔ Answerable confData confTtl silent mem d := by
  by_cases hignored : Ignored confData silent (receive mem d)
  · refine iff_of_true (fun rep hrep => ?_) (Or.inl hignored)
    rw [reply_ignored hignored] at hrep
    cases hrep
  have hfits := d.fits
  cases hout : lookUp confData (receive mem d) with
  | error errMsg flags =>
    have hrep : reply confData confTtl silent mem d = _ := reply_error hignored hout
    rw [Answerable, hout, or_iff_right hignored]
    constructor
    · intro h
      obtain ⟨-, hechoes, -⟩ := h _ hrep
      rw [hout] at hechoes
      exact echoes_error_iff.mp hechoes
    · intro h rep hrep'
      obtain rfl := Option.some.inj (hrep.symm.trans hrep')
      refine ⟨by rw [length_load]; omega, ?_, fun mem' => (reply_congr h.1 mem').trans hrep⟩
      rw [hout]
      exact echoes_error_iff.mpr h
  | found answstr outrRlen =>
    have hrep : reply confData confTtl silent mem d = _ := reply_found hignored hout
    rw [Answerable, hout, or_iff_right hignored]
    constructor
    · intro h
      obtain ⟨-, hechoes, hsame⟩ := h _ hrep
      rw [hout] at hechoes
      have hin : answb (receive mem d) ≤ d.bytes.length := by
        by_contra hlt
        obtain ⟨mem', hne⟩ := reply_differs (Nat.lt_of_not_le hlt) hignored hout
        exact hne ((hsame mem').trans hrep.symm)
      exact ⟨hin, (echoes_found_iff hin hout).mp hechoes⟩
    · rintro ⟨hin, h⟩ rep hrep'
      obtain rfl := Option.some.inj (hrep.symm.trans hrep')
      have hsize := (lookUp_found hout).2.1
      refine ⟨by rw [length_load]; exact hsize, ?_, fun mem' => (reply_congr hin mem').trans hrep⟩
      rw [hout]
      exact (echoes_found_iff hin hout).mpr h

/-- **The whole loop**: if each query is answerable whatever the buffer holds, each gets the reply
that it would get from a server just started. -/
theorem serve_eq_map {confData : List DnsEntry} {confTtl : UInt32} {silent : Bool} {mem : Memory}
    {ds : List Datagram}
    (h : ∀ d ∈ ds, ∀ mem, Answerable confData confTtl silent mem d) :
    serve confData confTtl silent mem ds =
      ds.map fun d => reply confData confTtl silent (fun _ => 0) d := by
  have hsame : ∀ d ∈ ds, ∀ mem mem' rep, reply confData confTtl silent mem d = some rep →
      reply confData confTtl silent mem' d = some rep := fun d hd mem mem' rep hrep =>
    (((sound_iff _ _ _ _ _).mpr (h d hd mem)) rep hrep).2.2 mem'
  induction ds generalizing mem with
  | nil => rfl
  | cons d ds ih =>
    have hfirst : reply confData confTtl silent mem d =
        reply confData confTtl silent (fun _ => 0) d := by
      refine Option.ext fun rep => ⟨fun hrep => ?_, fun hrep => ?_⟩
      · exact hsame d List.mem_cons_self _ _ _ hrep
      · exact hsame d List.mem_cons_self _ _ _ hrep
    rw [serve, List.map_cons, hfirst, ih (fun d hd => h d (List.mem_cons_of_mem _ hd))
      fun d hd => hsame d (List.mem_cons_of_mem _ hd)]

/-- A header that announces a question, and no question behind it. -/
def headerOnly : Datagram := ⟨[7, 7, 0, 0, 0, 1, 0, 0, 0, 0, 0, 0], by decide, by decide⟩

/-- The reply to a header alone sends out four bytes of an earlier packet. -/
theorem earlier_packet_leaks : ¬ ∀ confData confTtl silent mem d,
    Sound confData confTtl silent mem d := by
  intro h
  have hone : reply [] 120 false (fun _ => 1) headerOnly =
      some [7, 7, 0x80, 4, 0, 1, 0, 0, 0, 0, 0, 0, 0, 1, 1, 1, 1] := by decide +kernel
  have htwo : reply [] 120 false (fun _ => 2) headerOnly =
      some [7, 7, 0x80, 4, 0, 1, 0, 0, 0, 0, 0, 0, 0, 2, 2, 2, 2] := by decide +kernel
  obtain ⟨-, -, hsame⟩ := h [] 120 false (fun _ => 1) headerOnly _ hone
  have := htwo.symm.trans (hsame fun _ => 2)
  revert this
  decide

end Rustybox.Dnsd
