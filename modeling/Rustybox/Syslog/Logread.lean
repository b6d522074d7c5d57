import Rustybox.Lib.Circular
import Mathlib.Data.List.TakeWhile

/-!
# The log of syslogd in shared memory

`ipcsyslog_init` lays the buffer out and `log_to_shmem` writes messages round it.  The
semaphores keep the reader out of both; a step of the model is one call.

A call that would write outside the buffer is a fault (`none`), and so is one that does not
come to its end.

A pass of the loop of `logread_main`: it is made under the lock, so that the buffer does not
change within it.  Reading behind the end of the buffer is a fault (`none`).
-/

namespace Rustybox.Syslog

/-- `shbuf_ds`: what lies in shared memory. -/
structure Shbuf where
  size : ℕ
  tail : ℕ
  data : List UInt8

/-- `ipcsyslog_init` with a segment of `shmSize` bytes: eight of them are `size` and `tail`, and
the last one of `data` is never used. -/
def ipcsyslogInit (shmSize : ℕ) : Shbuf where
  size := shmSize - 8 - 1
  tail := 0
  data := List.replicate (shmSize - 8) 0

/-- `memcpy` to `data + off`. -/
def memcpy (sh : Shbuf) (off : ℕ) (src : List UInt8) : Option Shbuf :=
  if off + src.length ≤ sh.size then some { sh with data := Circular.write sh.data off src }
  else none

/-- The loop of `log_to_shmem`; `msg` are the bytes still to store. -/
def storeLoop : ℕ → Shbuf → List UInt8 → Option Shbuf
  | 0, _, _ => none
  | n + 1, sh, msg =>
    let oldTail := sh.tail
    let newTail := oldTail + msg.length
    if newTail < sh.size then do
      -- store message, set new tail
      let sh ← memcpy sh oldTail msg
      some { sh with tail := newTail }
    else do
      -- copy what fits to the end of buffer, and repeat
      let k := sh.size - oldTail
      let sh ← memcpy sh oldTail (msg.take k)
      storeLoop n { sh with tail := 0 } (msg.drop k)

/-- `log_to_shmem`.  Every turn of the loop but the last stores a byte, so that there is fuel
for all of them. -/
def logToShmem (sh : Shbuf) (msg : List UInt8) : Option Shbuf :=
  storeLoop (msg.length + 2) sh (msg ++ [0])

/-- Calls of `log_to_shmem` one after the other. -/
def logAll : Shbuf → List (List UInt8) → Option Shbuf
  | sh, [] => some sh
  | sh, msg :: msgs => do
    let sh ← logToShmem sh msg
    logAll sh msgs

/-! ### The buffer is a window on what was logged -/

/-- What a message takes in the buffer. -/
def encode (msgs : List (List UInt8)) : List UInt8 := (msgs.map (· ++ [0])).flatten

/-- The buffer after the bytes `s` have been written to it. -/
structure Holds (size : ℕ) (s : List UInt8) (sh : Shbuf) : Prop where
  size_eq : sh.size = size
  tail_eq : sh.tail = s.length % size
  data : ∃ cells, sh.data = cells ++ [0] ∧ cells.length = size ∧
    Circular.unroll sh.tail cells = Circular.slide (List.replicate size 0) s

section

variable {size : ℕ} {s : List UInt8} {sh : Shbuf}

theorem holds_init (n : ℕ) : Holds (n + 1) [] (ipcsyslogInit (n + 10)) := by
  refine ⟨rfl, (Nat.zero_mod _).symm, List.replicate (n + 1) 0, ?_, List.length_replicate, ?_⟩
  · exact List.replicate_succ'
  · have htail : (ipcsyslogInit (n + 10)).tail = 0 := rfl
    rw [htail, Circular.unroll_zero, Circular.slide, List.append_nil, List.length_nil,
      List.drop_zero]

theorem Holds.memcpy (h : Holds size s sh) {src : List UInt8}
    (hsrc : sh.tail + src.length ≤ size) :
    ∃ cells, memcpy sh sh.tail src = some { sh with data := cells ++ [0] } ∧
      cells.length = size ∧ Circular.unroll (sh.tail + src.length) cells =
        Circular.slide (List.replicate size 0) (s ++ src) := by
  obtain ⟨cells, hdata, hlen, hwindow⟩ := h.data
  rw [← hlen] at hsrc
  refine ⟨Circular.write cells sh.tail src, ?_, ?_, ?_⟩
  · rw [Syslog.memcpy, if_pos (by rw [h.size_eq, ← hlen]; exact hsrc), hdata,
      Circular.write_append hsrc]
  · rw [Circular.length_write hsrc, hlen]
  · rw [Circular.unroll_write hsrc, hwindow, ← Circular.slide_append]

/-- **The loop stores all bytes, from whatever position it starts.** -/
theorem storeLoop_spec (hsize : 0 < size) (n : ℕ) {msg : List UInt8} (hn : msg.length < n)
    (h : Holds size s sh) : ∃ sh', storeLoop n sh msg = some sh' ∧ Holds size (s ++ msg) sh' := by
  induction n generalizing s sh msg with
  | zero => exact absurd hn (Nat.not_lt_zero _)
  | succ n ih =>
    have htail : sh.tail < size := by
      rw [h.tail_eq]
      exact Nat.mod_lt _ hsize
    rw [storeLoop]
    by_cases hfit : sh.tail + msg.length < sh.size
    · have hle : sh.tail + msg.length ≤ size := by
        rw [h.size_eq] at hfit
        exact Nat.le_of_lt hfit
      obtain ⟨cells, hcopy, hlen, hwindow⟩ := h.memcpy hle
      rw [h.size_eq] at hfit
      refine ⟨{ sh with tail := sh.tail + msg.length, data := cells ++ [0] }, ?_, h.size_eq, ?_,
        cells, rfl, hlen, hwindow⟩
      · rw [if_pos (by rw [h.size_eq]; exact hfit), hcopy]
        rfl
      · rw [List.length_append, Nat.add_mod, ← h.tail_eq, Nat.add_mod_mod, Nat.mod_eq_of_lt hfit]
    · -- the part up to the end of the buffer
      rw [h.size_eq] at hfit
      have htake : (msg.take (size - sh.tail)).length = size - sh.tail := by
        rw [List.length_take]
        omega
      have hroom : sh.tail + (msg.take (size - sh.tail)).length ≤ size := by omega
      obtain ⟨cells, hcopy, hlen, hwindow⟩ := h.memcpy hroom
      rw [htake, Nat.add_sub_cancel' (Nat.le_of_lt htail)] at hwindow
      have hnext : Holds size (s ++ msg.take (size - sh.tail))
          { sh with tail := 0, data := cells ++ [0] } := by
        refine ⟨h.size_eq, ?_, cells, rfl, hlen, ?_⟩
        · have hsum : (s.length + (size - sh.tail)) % size = 0 := by
            rw [Nat.add_mod, ← h.tail_eq, Nat.add_mod_mod, Nat.add_sub_cancel' (Nat.le_of_lt htail),
              Nat.mod_self]
          rw [List.length_append, htake, hsum]
        · rw [← hwindow, ← hlen, Circular.unroll_length]
      have hrest : (msg.drop (size - sh.tail)).length < n := by
        rw [List.length_drop]
        omega
      obtain ⟨sh', hrun, hsh'⟩ := ih hrest hnext
      refine ⟨sh', ?_, ?_⟩
      · rw [if_neg (by rw [h.size_eq]; exact hfit), h.size_eq]
        dsimp only
        rw [hcopy]
        exact hrun
      · rwa [List.append_assoc, List.take_append_drop] at hsh'

theorem logToShmem_spec (hsize : 0 < size) (h : Holds size s sh) (msg : List UInt8) :
    ∃ sh', logToShmem sh msg = some sh' ∧ Holds size (s ++ (msg ++ [0])) sh' :=
  storeLoop_spec hsize _ (by rw [List.length_append, List.length_singleton]; omega) h

/-- **The writer never leaves the buffer.** -/
theorem logAll_spec (hsize : 0 < size) (h : Holds size s sh) (msgs : List (List UInt8)) :
    ∃ sh', logAll sh msgs = some sh' ∧ Holds size (s ++ encode msgs) sh' := by
  induction msgs generalizing s sh with
  | nil => exact ⟨sh, rfl, by rwa [encode, List.map_nil, List.flatten_nil, List.append_nil]⟩
  | cons msg msgs ih =>
    obtain ⟨sh', hrun, hsh'⟩ := logToShmem_spec hsize h msg
    obtain ⟨sh'', hrun', hsh''⟩ := ih hsh'
    refine ⟨sh'', ?_, ?_⟩
    · rw [logAll, hrun]
      exact hrun'
    · rwa [List.append_assoc] at hsh''

end

/-! ## logread -/

/-- `strlen`: the bytes before the first NUL, which has to be there. -/
def strlen (s : List UInt8) : Option ℕ := s.findIdx? (· = 0)

def strnlen (s : List UInt8) (n : ℕ) : ℕ := ((s.take n).takeWhile (· ≠ 0)).length

/-- What `logread_main` keeps from one pass to the next, and what it has printed. -/
structure Logread where
  follow : ℕ
  cur : ℕ
  printed : List UInt8

/-- The loop that prints the strings in `copy`.  The NUL behind the last byte of `copy` ends
the last one. -/
def putStrings (copy : List UInt8) : List UInt8 :=
  match copy with
  | [] => []
  | c :: cs =>
    let s := (c :: cs).takeWhile (· ≠ 0)
    s ++ putStrings ((c :: cs).drop (s.length + 1))
termination_by copy.length
decreasing_by
  simp only [List.length_drop, List.length_cons]
  omega

/-- Read from `cur` to `tail`, and print. -/
def readTail (sh : Shbuf) (r : Logread) : Logread :=
  let copy :=
    if r.cur ≤ sh.tail then (sh.data.drop r.cur).take (sh.tail - r.cur)
    else
      -- message wraps:
      -- [SECOND PART.........FIRST PART]
      --  ^data      ^tail    ^cur      ^size
      (sh.data.drop r.cur).take (sh.size - r.cur) ++ sh.data.take sh.tail
  { r with cur := sh.tail, printed := r.printed ++ putStrings copy }

/-- Advance to the first byte of the message behind the NUL at `cur`. -/
def advance (sh : Shbuf) (cur : ℕ) : ℕ := if cur + 1 ≥ sh.size then 0 else cur + 1

/-- One pass.  With `-F` the first one dumps the buffer and turns it into `-f`. -/
def pass (sh : Shbuf) (r : Logread) : Option Logread :=
  if r.follow % 2 = 0 then do
    let r := { r with follow := r.follow / 2 }
    let n ← strlen (sh.data.drop r.cur)
    let cur := r.cur + n
    if cur ≥ sh.size then
      let cur := strnlen sh.data sh.tail
      if cur = sh.tail then some { r with cur := cur } -- no complete messages
      else some (readTail sh { r with cur := advance sh cur })
    else some (readTail sh { r with cur := advance sh cur })
  else if r.cur = sh.tail then some r
  else some (readTail sh r)

/-- `logread_main` up to its loop: `follow` is 0 for one pass, 1 with `-f` and 2 with `-F`. -/
def logread (follow : ℕ) (sh : Shbuf) : Logread := { follow, cur := sh.tail, printed := [] }

/-! ### What is printed -/

theorem putStrings_nil : putStrings [] = [] := by rw [putStrings]

theorem putStrings_append {msg : List UInt8} (h : 0 ∉ msg) (rest : List UInt8) :
    putStrings (msg ++ 0 :: rest) = msg ++ putStrings rest := by
  have htake : (msg ++ 0 :: rest).takeWhile (· ≠ 0) = msg := by
    rw [List.takeWhile_append_of_pos, List.takeWhile_cons_of_neg (by decide), List.append_nil]
    intro c hc
    exact decide_eq_true fun h0 => h (h0 ▸ hc)
  have hdrop : (msg ++ 0 :: rest).drop (msg.length + 1) = rest := by
    rw [List.drop_append, List.drop_of_length_le (Nat.le_succ _), List.nil_append,
      Nat.add_sub_cancel_left]
    rfl
  cases hm : msg ++ 0 :: rest with
  | nil => exact absurd hm (by simp)
  | cons c cs =>
    rw [putStrings, ← hm, htake, hdrop]

theorem encode_cons (m : List UInt8) (msgs : List (List UInt8)) :
    encode (m :: msgs) = m ++ 0 :: encode msgs := by
  rw [encode, List.map_cons, List.flatten_cons, List.append_assoc]
  rfl

/-- **Whole messages are printed byte for byte.** -/
theorem putStrings_encode {msgs : List (List UInt8)} (h : ∀ m ∈ msgs, 0 ∉ m) :
    putStrings (encode msgs) = msgs.flatten := by
  induction msgs with
  | nil => exact putStrings_nil
  | cons m msgs ih =>
    rw [encode_cons, putStrings_append (h m List.mem_cons_self),
      ih fun m' hm' => h m' (List.mem_cons_of_mem _ hm'), List.flatten_cons]

end Rustybox.Syslog
