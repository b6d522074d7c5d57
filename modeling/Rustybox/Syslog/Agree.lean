import Rustybox.Lib.Machine
import Rustybox.Syslog.Logread

/-!
# syslogd and logread agree

What has been logged is a stream of bytes, and the buffer is a window on its end (`Holds`).
logread without `-f` prints what lies behind the first NUL of the window; with `-f` it prints the
bytes that have come since it looked last.
-/

namespace Rustybox.Syslog

open Circular

/-! ### Behind the first NUL -/

/-- What lies behind the first NUL. -/
def behindNul (w : List UInt8) : List UInt8 := (w.dropWhile (· ≠ 0)).tail

theorem behindNul_append {a : List UInt8} (h : 0 ∉ a) (b : List UInt8) :
    behindNul (a ++ 0 :: b) = b := by
  rw [behindNul, List.dropWhile_append_of_pos, List.dropWhile_cons_of_neg (by decide),
    List.tail_cons]
  intro c hc
  exact decide_eq_true fun h0 => h (h0 ▸ hc)

theorem behindNul_of_notMem {w : List UInt8} (h : 0 ∉ w) : behindNul w = [] := by
  have hdrop : w.dropWhile (· ≠ 0) = [] := by
    rw [List.dropWhile_eq_nil_iff]
    intro c hc
    exact decide_eq_true fun h0 => h (h0 ▸ hc)
  rw [behindNul, hdrop, List.tail_nil]

theorem exists_first_nul {w : List UInt8} (h : 0 ∈ w) : ∃ a b, w = a ++ 0 :: b ∧ 0 ∉ a := by
  induction w with
  | nil => cases h
  | cons c w ih =>
    by_cases hc : c = 0
    · exact ⟨[], w, by rw [hc]; rfl, List.not_mem_nil⟩
    · obtain ⟨a, b, hw, ha⟩ := ih ((List.mem_cons.mp h).resolve_left (Ne.symm hc))
      refine ⟨c :: a, b, by rw [hw]; rfl, ?_⟩
      rw [List.mem_cons, not_or]
      exact ⟨Ne.symm hc, ha⟩

theorem strlen_append {a : List UInt8} (h : 0 ∉ a) (b : List UInt8) :
    strlen (a ++ 0 :: b) = some a.length := by
  unfold strlen
  induction a with
  | nil => rfl
  | cons c a ih =>
    rw [List.mem_cons, not_or] at h
    rw [List.cons_append, List.findIdx?_cons, ih h.2,
      if_neg (by simpa using Ne.symm h.1)]
    rfl

theorem strnlen_of_mem {a b s : List UInt8} {n : ℕ} (hs : s.take n = a ++ 0 :: b) (h : 0 ∉ a) :
    strnlen s n = a.length := by
  rw [strnlen, hs, List.takeWhile_append_of_pos, List.takeWhile_cons_of_neg (by decide),
    List.append_nil]
  intro c hc
  exact decide_eq_true fun h0 => h (h0 ▸ hc)

theorem strnlen_of_notMem {s : List UInt8} {n : ℕ} (h : 0 ∉ s.take n) (hn : n ≤ s.length) :
    strnlen s n = n := by
  rw [strnlen, List.takeWhile_eq_self_iff.mpr, List.length_take, Nat.min_eq_left hn]
  intro c hc
  exact decide_eq_true fun h0 => h (h0 ▸ hc)

/-! ### A pass -/

section

variable {size : ℕ} {s : List UInt8} {sh : Shbuf}

theorem Holds.reads (h : Holds size s sh) (hsize : 0 < size) (r : Logread) {d : ℕ}
    (hcur : r.cur < size) (hd : d < size) (hend : (r.cur + d) % size = sh.tail) :
    readTail sh r = ⟨r.follow, sh.tail, r.printed ++
      putStrings ((slide (List.replicate size 0) s).drop (size - d))⟩ := by
  obtain ⟨cells, hdata, hlen, hwindow⟩ := h.data
  have htail : sh.tail < size := by
    rw [h.tail_eq]
    exact Nat.mod_lt _ hsize
  rw [← hlen] at htail hcur hd hend
  have hread := readFrom_eq htail hcur hd hend
  rw [hlen] at htail hcur hd hend
  rw [hlen, hwindow] at hread
  rw [← hread]
  have hcopy : (if r.cur ≤ sh.tail then (sh.data.drop r.cur).take (sh.tail - r.cur)
      else (sh.data.drop r.cur).take (sh.size - r.cur) ++ sh.data.take sh.tail) =
      readFrom r.cur sh.tail cells := by
    rw [readFrom, hdata, h.size_eq]
    split
    · rw [List.drop_append_of_le_length (by omega), List.take_append_of_le_length
        (by rw [List.length_drop]; omega), List.drop_take]
    · rw [List.drop_append_of_le_length (by omega), List.take_append_of_le_length
        (by rw [List.length_drop]; omega), List.take_of_length_le
        (by rw [List.length_drop]; omega), List.take_append_of_le_length (by omega)]
  rw [readTail, hcopy]

/-- Reading starts behind the byte `i` of the window. -/
theorem Holds.read_behind (h : Holds size s sh) {i : ℕ} (hi : i < size) :
    readTail sh ⟨0, (sh.tail + i + 1) % size, []⟩ =
      ⟨0, sh.tail, putStrings ((slide (List.replicate size 0) s).drop (i + 1))⟩ := by
  have hsize : 0 < size := Nat.lt_of_le_of_lt (Nat.zero_le _) hi
  have hend : ((sh.tail + i + 1) % size + (size - (i + 1))) % size = sh.tail := by
    rw [Nat.mod_add_mod, Nat.add_assoc sh.tail, Nat.add_assoc sh.tail,
      Nat.add_sub_cancel' (by omega), Nat.add_mod_right, h.tail_eq, Nat.mod_mod]
  rw [h.reads hsize _ (Nat.mod_lt _ hsize) (by omega) hend, Nat.sub_sub_self (by omega)]
  rfl

theorem pass_dump_eq (sh : Shbuf) :
    pass sh (logread 0 sh) = (strlen (sh.data.drop sh.tail)).bind fun n =>
      if sh.tail + n ≥ sh.size then
        if strnlen sh.data sh.tail = sh.tail then some ⟨0, strnlen sh.data sh.tail, []⟩
        else some (readTail sh ⟨0, advance sh (strnlen sh.data sh.tail), []⟩)
      else some (readTail sh ⟨0, advance sh (sh.tail + n), []⟩) := by
  have hfollow : (logread 0 sh).follow % 2 = 0 := rfl
  rw [pass, if_pos hfollow]
  simp only [logread, Nat.zero_div]
  rfl

/-- **A pass without `-f` prints what lies behind the first NUL of the window.** -/
theorem Holds.pass_dump (h : Holds size s sh) (hsize : 0 < size) :
    pass sh (logread 0 sh) =
      some ⟨0, sh.tail, putStrings (behindNul (slide (List.replicate size 0) s))⟩ := by
  obtain ⟨cells, hdata, hlen, hwindow⟩ := h.data
  have htail : sh.tail < size := by
    rw [h.tail_eq]
    exact Nat.mod_lt _ hsize
  have hdrop : sh.data.drop sh.tail = cells.drop sh.tail ++ [0] := by
    rw [hdata, List.drop_append_of_le_length (by omega)]
  have htake : sh.data.take sh.tail = cells.take sh.tail := by
    rw [hdata, List.take_append_of_le_length (by omega)]
  have hA : (cells.drop sh.tail).length = size - sh.tail := by
    rw [List.length_drop, hlen]
  have hbehind : ∀ {a b : List UInt8}, slide (List.replicate size 0) s = a ++ 0 :: b → 0 ∉ a →
      readTail sh ⟨0, (sh.tail + a.length + 1) % size, []⟩ =
        ⟨0, sh.tail, putStrings (behindNul (slide (List.replicate size 0) s))⟩ := by
    intro a b hw ha
    have hlt : a.length < size := by
      have := congrArg List.length hw
      rw [length_slide, List.length_replicate, List.length_append, List.length_cons] at this
      omega
    rw [h.read_behind hlt, hw, behindNul_append ha, List.drop_append,
      List.drop_of_length_le (Nat.le_succ _), List.nil_append, Nat.add_sub_cancel_left]
    rfl
  rw [pass_dump_eq, hdrop]
  by_cases h0A : 0 ∈ cells.drop sh.tail
  · -- the fragment at the tail ends before the end of the buffer
    obtain ⟨a, a', hsplit, ha⟩ := exists_first_nul h0A
    have hbound : sh.tail + a.length + 1 ≤ size := by
      rw [hsplit, List.length_append, List.length_cons] at hA
      omega
    have hw : slide (List.replicate size 0) s = a ++ 0 :: (a' ++ cells.take sh.tail) := by
      rw [← hwindow, unroll, hsplit, List.append_assoc, List.cons_append]
    have hadvance : advance sh (sh.tail + a.length) = (sh.tail + a.length + 1) % size := by
      rw [advance, h.size_eq]
      split
      · have hend : sh.tail + a.length + 1 = size := by omega
        rw [hend, Nat.mod_self]
      · rw [Nat.mod_eq_of_lt (by omega)]
    rw [hsplit, List.append_assoc, List.cons_append, strlen_append ha, Option.bind_some,
      if_neg (by rw [h.size_eq]; omega), hadvance, hbehind hw ha]
  · -- it goes on at the start of the buffer
    rw [strlen_append h0A, hA, Option.bind_some, if_pos (by rw [h.size_eq]; omega)]
    by_cases h0B : 0 ∈ cells.take sh.tail
    · obtain ⟨b, b', hsplit, hb⟩ := exists_first_nul h0B
      have hbound : b.length + 1 ≤ sh.tail := by
        have := congrArg List.length hsplit
        rw [List.length_take, List.length_append, List.length_cons] at this
        omega
      have hw : slide (List.replicate size 0) s = (cells.drop sh.tail ++ b) ++ 0 :: b' := by
        rw [← hwindow, unroll, hsplit, List.append_assoc]
      have hnot : 0 ∉ cells.drop sh.tail ++ b := by
        rw [List.mem_append, not_or]
        exact ⟨h0A, hb⟩
      have hadvance : advance sh b.length =
          (sh.tail + (cells.drop sh.tail ++ b).length + 1) % size := by
        have hsum : sh.tail + (cells.drop sh.tail ++ b).length + 1 = b.length + 1 + size := by
          rw [List.length_append, hA]
          omega
        rw [advance, h.size_eq, if_neg (by omega), hsum, Nat.add_mod_right,
          Nat.mod_eq_of_lt (by omega)]
      rw [strnlen_of_mem (htake.trans hsplit) hb, if_neg (by omega), hadvance, hbehind hw hnot]
    · have hnot : 0 ∉ slide (List.replicate size 0) s := by
        rw [← hwindow, unroll, List.mem_append, not_or]
        exact ⟨h0A, h0B⟩
      have hcount : strnlen sh.data sh.tail = sh.tail := by
        refine strnlen_of_notMem (by rwa [htake]) ?_
        rw [hdata, List.length_append]
        omega
      rw [hcount, if_pos rfl, behindNul_of_notMem hnot, putStrings_nil]

end

/-! ### Whole messages -/

theorem encode_nil : encode [] = [] := rfl

theorem encode_append (msgs msgs' : List (List UInt8)) :
    encode (msgs ++ msgs') = encode msgs ++ encode msgs' := by
  rw [encode, List.map_append, List.flatten_append]
  rfl

/-- An unused part of the buffer is as if empty messages had been logged. -/
theorem encode_replicate (n : ℕ) : encode (List.replicate n []) = List.replicate n 0 := by
  induction n with
  | zero => rfl
  | succ n ih =>
    rw [List.replicate_succ, encode_cons, ih]
    rfl

theorem encode_ends {msgs : List (List UInt8)} (h : msgs ≠ []) : ∃ x, encode msgs = x ++ [0] := by
  obtain ⟨init, m, rfl⟩ := (List.eq_nil_or_concat msgs).resolve_left h
  refine ⟨encode init ++ m, ?_⟩
  rw [List.concat_eq_append, encode_append, encode_cons, encode_nil, List.append_assoc]

/-- A NUL behind `m` is the one that ends `m`, or it comes later. -/
theorem cut_at_nul {m e y t : List UInt8} (hm : 0 ∉ m) (h : m ++ 0 :: e = y ++ 0 :: t) :
    (y = m ∧ e = t) ∨ ∃ y', y = m ++ 0 :: y' ∧ e = y' ++ 0 :: t := by
  induction m generalizing y with
  | nil =>
    cases y with
    | nil =>
      rw [List.nil_append, List.nil_append, List.cons.injEq] at h
      exact Or.inl ⟨rfl, h.2⟩
    | cons c y =>
      rw [List.nil_append, List.cons_append, List.cons.injEq] at h
      exact Or.inr ⟨y, by rw [h.1]; rfl, h.2⟩
  | cons c m ih =>
    rw [List.mem_cons, not_or] at hm
    cases y with
    | nil =>
      rw [List.cons_append, List.nil_append, List.cons.injEq] at h
      exact absurd h.1.symm hm.1
    | cons c' y =>
      rw [List.cons_append, List.cons_append, List.cons.injEq] at h
      rcases ih hm.2 h.2 with ⟨rfl, he⟩ | ⟨y', rfl, he⟩
      · exact Or.inl ⟨by rw [h.1], he⟩
      · exact Or.inr ⟨y', by rw [h.1]; rfl, he⟩

/-- **Behind a NUL a message starts.**  The messages from there on are as many as fit. -/
theorem behind_nul {msgs : List (List UInt8)} (h : ∀ m ∈ msgs, 0 ∉ m) {y t : List UInt8}
    (hcut : encode msgs = y ++ 0 :: t) :
    ∃ k, t = encode (msgs.drop k) ∧ ∀ j, (encode (msgs.drop j)).length ≤ t.length → k ≤ j := by
  induction msgs generalizing y with
  | nil =>
    rw [encode_nil] at hcut
    exact absurd hcut (by simp)
  | cons m msgs ih =>
    have hlen : t.length < (encode (m :: msgs)).length := by
      rw [hcut, List.length_append, List.length_cons]
      omega
    have hmin : ∀ k, (∀ j, (encode (msgs.drop j)).length ≤ t.length → k ≤ j) →
        ∀ j, (encode ((m :: msgs).drop j)).length ≤ t.length → k + 1 ≤ j := by
      intro k hk j hj
      cases j with
      | zero =>
        rw [List.drop_zero] at hj
        omega
      | succ j => exact Nat.succ_le_succ (hk j hj)
    rw [encode_cons] at hcut
    rcases cut_at_nul (h m List.mem_cons_self) hcut with ⟨-, he⟩ | ⟨y', -, he⟩
    · exact ⟨1, he.symm, hmin 0 fun _ _ => Nat.zero_le _⟩
    · obtain ⟨k, ht, hk⟩ := ih (fun m' hm' => h m' (List.mem_cons_of_mem _ hm')) he
      exact ⟨k + 1, ht, hmin k hk⟩

theorem length_le_behindNul {w v t : List UInt8} (h : w = v ++ 0 :: t) :
    t.length ≤ (behindNul w).length := by
  obtain ⟨a, b, hw, ha⟩ := exists_first_nul (w := w) (by rw [h]; simp)
  rw [hw, behindNul_append ha]
  rw [hw] at h
  rcases cut_at_nul ha h with ⟨-, he⟩ | ⟨y', -, he⟩
  · rw [he]
  · rw [he, List.length_append, List.length_cons]
    omega

/-- **A pass without `-f` prints the last messages**, all that leave a byte of the buffer. -/
theorem dump_suffix {size : ℕ} (hsize : 0 < size) {msgs : List (List UInt8)}
    (h : ∀ m ∈ msgs, 0 ∉ m) :
    ∃ k, putStrings (behindNul (slide (List.replicate size 0) (encode msgs))) =
      (msgs.drop k).flatten ∧ ∀ j, (encode (msgs.drop j)).length < size → k ≤ j := by
  -- the window is a part of what has been logged behind the empty messages
  let all := List.replicate size ([] : List UInt8) ++ msgs
  have hall : ∀ m ∈ all, 0 ∉ m := by
    intro m hm
    rcases List.mem_append.mp hm with hm | hm
    · rw [List.eq_of_mem_replicate hm]
      exact List.not_mem_nil
    · exact h m hm
  have hw : slide (List.replicate size 0) (encode msgs) =
      (encode all).drop (encode msgs).length := by
    rw [encode_append, encode_replicate]
    rfl
  have hwlen : (slide (List.replicate size (0 : UInt8)) (encode msgs)).length = size := by
    rw [length_slide, List.length_replicate]
  -- where a byte of the buffer is left, there is a NUL before the messages
  have hnul : ∀ j, (encode (msgs.drop j)).length < size → ∃ v,
      slide (List.replicate size 0) (encode msgs) = v ++ 0 :: encode (msgs.drop j) := by
    intro j hj
    have hne : List.replicate size ([] : List UInt8) ++ msgs.take j ≠ [] := by
      intro hnil
      have := congrArg List.length hnil
      rw [List.length_append, List.length_replicate, List.length_nil] at this
      omega
    obtain ⟨x, hx⟩ := encode_ends hne
    have hsplit : encode all = x ++ 0 :: encode (msgs.drop j) := by
      rw [List.append_cons, ← hx, ← encode_append, List.append_assoc, List.take_append_drop]
    rw [hw, hsplit] at hwlen
    rw [List.length_drop, List.length_append, List.length_cons] at hwlen
    refine ⟨x.drop (encode msgs).length, ?_⟩
    rw [hw, hsplit, List.drop_append_of_le_length (by omega)]
  by_cases h0 : 0 ∈ slide (List.replicate size 0) (encode msgs)
  · obtain ⟨a, b, hsplit, ha⟩ := exists_first_nul h0
    have hcut : encode all = ((encode all).take (encode msgs).length ++ a) ++ 0 :: b := by
      rw [List.append_assoc, ← hsplit, hw, List.take_append_drop]
    obtain ⟨k, hb, hk⟩ := behind_nul hall hcut
    refine ⟨k - size, ?_, ?_⟩
    · have hdrop : all.drop k = List.replicate (size - k) [] ++ msgs.drop (k - size) := by
        rw [List.drop_append, List.drop_replicate, List.length_replicate]
      rw [hsplit, behindNul_append ha, hb,
        putStrings_encode fun m hm => hall m (List.mem_of_mem_drop hm), hdrop,
        List.flatten_append, List.flatten_replicate_nil, List.nil_append]
    · intro j hj
      obtain ⟨v, hv⟩ := hnul j hj
      have hle := length_le_behindNul hv
      rw [hsplit, behindNul_append ha] at hle
      have hdrop : all.drop (size + j) = msgs.drop j := by
        rw [← List.drop_drop, List.drop_append_of_le_length
          (Nat.le_of_eq List.length_replicate.symm), List.drop_of_length_le
          (Nat.le_of_eq List.length_replicate), List.nil_append]
      have := hk (size + j) (by rwa [hdrop])
      omega
  · refine ⟨msgs.length, ?_, ?_⟩
    · rw [behindNul_of_notMem h0, putStrings_nil, List.drop_length, List.flatten_nil]
    · intro j hj
      obtain ⟨v, hv⟩ := hnul j hj
      exact absurd (by rw [hv]; simp) h0

/-! ### Following the log -/

/-- syslogd logs a message, or logread looks at the buffer. -/
inductive Event
  | log (msg : List UInt8)
  | poll

def step (st : Shbuf × Logread) : Event → Option (Shbuf × Logread)
  | .log msg => (logToShmem st.1 msg).map (·, st.2)
  | .poll => (pass st.1 st.2).map (st.1, ·)

/-- All messages that are logged. -/
def messages (es : List Event) : List (List UInt8) :=
  es.filterMap fun
    | .log msg => some msg
    | .poll => none

/-- The messages that are logged behind the last poll. -/
def unread (es : List Event) : List (List UInt8) :=
  es.foldl (fun msgs e => match e with
    | .log msg => msgs ++ [msg]
    | .poll => []) []

/-- Messages have no NUL, and not too many come between two polls. -/
def Polled (size : ℕ) (es : List Event) : Event → Prop
  | .log msg => 0 ∉ msg
  | .poll => (encode (unread es)).length < size

/-- What holds while logread follows the log: `done` is what it has printed. -/
def Follows (size : ℕ) (s : List UInt8) (start : Shbuf) (es : List Event) : Prop :=
  ∃ sh r done, es.foldlM step (start, logread 1 start) = some (sh, r) ∧
    Holds size (s ++ encode (messages es)) sh ∧ r.follow = 1 ∧
    messages es = done ++ unread es ∧ (∀ m ∈ messages es, 0 ∉ m) ∧
    r.printed = done.flatten ∧ r.cur = (s ++ encode done).length % size

section

variable {size : ℕ} {s : List UInt8} {start : Shbuf} {es : List Event}

theorem Follows.log (hsize : 0 < size) (h : Follows size s start es) {msg : List UInt8}
    (hmsg : 0 ∉ msg) : Follows size s start (es ++ [.log msg]) := by
  obtain ⟨sh, r, done, hrun, hsh, hfollow, hdone, hnul, hprinted, hcur⟩ := h
  obtain ⟨sh', hlog, hsh'⟩ := logToShmem_spec hsize hsh msg
  have hmsgs : messages (es ++ [.log msg]) = messages es ++ [msg] := by
    rw [messages, List.filterMap_append]
    rfl
  have hunread : unread (es ++ [.log msg]) = unread es ++ [msg] := by
    rw [unread, List.foldl_append]
    rfl
  refine ⟨sh', r, done, ?_, ?_, hfollow, ?_, ?_, hprinted, hcur⟩
  · rw [List.foldlM_append, hrun]
    show step (sh, r) (.log msg) >>= pure = _
    rw [step, hlog]
    rfl
  · rw [hmsgs, encode_append, ← List.append_assoc, encode_cons, encode_nil]
    exact hsh'
  · rw [hmsgs, hunread, hdone, List.append_assoc]
  · intro m hm
    rw [hmsgs] at hm
    rcases List.mem_append.mp hm with hm | hm
    · exact hnul m hm
    · rwa [List.mem_singleton.mp hm]

/-- A poll prints the messages since the last one. -/
theorem Follows.poll (hsize : 0 < size) (h : Follows size s start es)
    (hlt : (encode (unread es)).length < size) :
    Follows size s start (es ++ [.poll]) ∧ ∃ sh r,
      (es ++ [Event.poll]).foldlM step (start, logread 1 start) = some (sh, r) ∧
      r.printed = (messages es).flatten := by
  obtain ⟨sh, r, done, hrun, hsh, hfollow, hdone, hnul, hprinted, hcur⟩ := h
  have hbytes : s ++ encode (messages es) = (s ++ encode done) ++ encode (unread es) := by
    rw [hdone, encode_append, List.append_assoc]
  have htail : (r.cur + (encode (unread es)).length) % size = sh.tail := by
    rw [hcur, Nat.mod_add_mod, ← List.length_append, ← hbytes, hsh.tail_eq]
  have hpass : pass sh r = some ⟨1, sh.tail, (messages es).flatten⟩ := by
    have hodd : ¬ r.follow % 2 = 0 := by
      rw [hfollow]
      decide
    rw [pass, if_neg hodd]
    split
    · next heq =>
      -- nothing new, for less than the whole buffer has come
      have hlen : (encode (unread es)).length = 0 := by
        have hlt' : r.cur < size := by
          rw [hcur]
          exact Nat.mod_lt _ hsize
        by_cases hwrap : r.cur + (encode (unread es)).length < size
        · rw [Nat.mod_eq_of_lt hwrap] at htail
          omega
        · rw [Nat.mod_eq_sub_mod (by omega), Nat.mod_eq_of_lt (by omega)] at htail
          omega
      have hnone : unread es = [] := by
        cases hu : unread es with
        | nil => rfl
        | cons m msgs =>
          rw [hu, encode_cons, List.length_append, List.length_cons] at hlen
          omega
      rw [hdone, hnone, List.append_nil, ← hprinted, ← heq, ← hfollow]
    · have hdrop : (slide (List.replicate size 0) (s ++ encode (messages es))).drop
          (size - (encode (unread es)).length) = encode (unread es) := by
        have := drop_slide (w := List.replicate size (0 : UInt8)) (s ++ encode done)
          (d := encode (unread es)) (by rw [List.length_replicate]; omega)
        rwa [List.length_replicate, ← hbytes] at this
      have hcur' : r.cur < size := by
        rw [hcur]
        exact Nat.mod_lt _ hsize
      rw [hsh.reads hsize r hcur' hlt htail, hdrop, hprinted, hfollow, putStrings_encode
        fun m hm => hnul m (by rw [hdone]; exact List.mem_append_right _ hm), hdone,
        List.flatten_append]
  have hmsgs : messages (es ++ [.poll]) = messages es := by
    rw [messages, List.filterMap_append]
    exact List.append_nil _
  have hunread : unread (es ++ [.poll]) = [] := by
    rw [unread, List.foldl_append]
    rfl
  have hrun' : (es ++ [Event.poll]).foldlM step (start, logread 1 start) =
      some (sh, ⟨1, sh.tail, (messages es).flatten⟩) := by
    rw [List.foldlM_append, hrun]
    show step (sh, r) .poll >>= pure = _
    rw [step, hpass]
    rfl
  refine ⟨⟨sh, ⟨1, sh.tail, (messages es).flatten⟩, messages es, hrun', ?_, rfl, ?_, ?_, rfl,
    hsh.tail_eq⟩, sh, _, hrun', rfl⟩
  · rwa [hmsgs]
  · rw [hmsgs, hunread, List.append_nil]
  · rwa [hmsgs]

/-- **logread keeps up with the log** as long as it polls often enough. -/
theorem follows (hsize : 0 < size) (h : Holds size s start) (es : List Event)
    (hes : ∀ init e, init ++ [e] <+: es → Polled size init e) : Follows size s start es := by
  refine Machine.prefix_induction (Q := Follows size s start) (G := Polled size) ?_ ?_ es hes
  · refine ⟨start, logread 1 start, [], rfl, ?_, rfl, rfl, ?_, rfl, ?_⟩
    · exact (List.append_nil s).symm ▸ h
    · intro m hm
      cases hm
    · rw [encode_nil, List.append_nil]
      exact h.tail_eq
  · intro es e hes he
    cases e with
    | log msg => exact hes.log hsize he
    | poll => exact (hes.poll hsize he).1

end

/-- **syslogd and logread agree.** -/
theorem logread_agrees (n : ℕ) (msgs : List (List UInt8)) (h : ∀ m ∈ msgs, 0 ∉ m) :
    ∃ sh, logAll (ipcsyslogInit (n + 10)) msgs = some sh ∧ sh.size = n + 1 ∧
      sh.tail < sh.size ∧ sh.data[sh.size]? = some 0 ∧
      (∃ k r, pass sh (logread 0 sh) = some r ∧ r.follow = 0 ∧
        r.printed = (msgs.drop k).flatten ∧
        ∀ j, (encode (msgs.drop j)).length < sh.size → k ≤ j) ∧
      ∀ es : List Event,
        (∀ init e, init ++ [e] <+: es ++ [.poll] → Polled sh.size init e) →
        ∃ sh' r, (es ++ [Event.poll]).foldlM step (sh, logread 1 sh) = some (sh', r) ∧
          r.printed = (messages es).flatten := by
  obtain ⟨sh, hrun, hsh⟩ := logAll_spec (Nat.succ_pos n) (holds_init n) msgs
  rw [List.nil_append] at hsh
  obtain ⟨cells, hdata, hlen, -⟩ := hsh.data
  obtain ⟨k, hprinted, hk⟩ := dump_suffix (Nat.succ_pos n) h
  refine ⟨sh, hrun, hsh.size_eq, ?_, ?_, ⟨k, _, hsh.pass_dump (Nat.succ_pos n), rfl,
    hprinted, ?_⟩, ?_⟩
  · rw [hsh.tail_eq, hsh.size_eq]
    exact Nat.mod_lt _ (Nat.succ_pos n)
  · rw [hdata, hsh.size_eq, ← hlen, List.getElem?_append_right (Nat.le_refl _), Nat.sub_self]
    rfl
  · rwa [hsh.size_eq]
  · intro es hes
    rw [hsh.size_eq] at hes
    have hinit := follows (Nat.succ_pos n) hsh es fun init e hpre =>
      hes init e (hpre.trans (List.prefix_append _ _))
    exact (hinit.poll (Nat.succ_pos n) (hes es .poll (List.prefix_refl _))).2

/-- Two messages that go round the end of five bytes, and a third one that is followed. -/
theorem logread_agrees_three_messages :
    ∃ sh, logAll (ipcsyslogInit 14) [[1, 2], [3]] = some sh ∧
      (∃ k r, pass sh (logread 0 sh) = some r ∧ r.printed = ([[1, 2], [3]].drop k).flatten) ∧
      ∃ sh' r, [Event.log [4, 5], Event.poll].foldlM step (sh, logread 1 sh) = some (sh', r) ∧
        r.printed = [4, 5] := by
  obtain ⟨sh, hrun, hsize, -, -, ⟨k, r, hpass, -, hprinted, -⟩, hfollow⟩ :=
    logread_agrees 4 [[1, 2], [3]] (by decide)
  refine ⟨sh, hrun, ⟨k, r, hpass, hprinted⟩, hfollow [.log [4, 5]] ?_⟩
  rw [hsize]
  rintro init e ⟨post, hpost⟩
  rcases init with _ | ⟨e', _ | ⟨e'', init⟩⟩
  · simp only [List.cons_append, List.nil_append, List.cons.injEq] at hpost
    obtain ⟨rfl, -⟩ := hpost
    show 0 ∉ [4, 5]
    decide
  · simp only [List.cons_append, List.nil_append, List.cons.injEq] at hpost
    obtain ⟨rfl, rfl, -⟩ := hpost
    show (encode [[4, 5]]).length < 5
    decide
  · have := congrArg List.length hpost
    simp only [List.length_append, List.length_cons, List.length_nil] at this
    omega

end Rustybox.Syslog
