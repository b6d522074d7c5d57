import Mathlib.Algebra.Ring.Nat
import Mathlib.Data.Int.Basic
import Rustybox.Lib.Linked

/-!
# The buffer of ed

The globals of ed, with the `LINE` nodes as a heap, and the functions that edit them.  A function
has no result (`none`) where it follows an address without a node, as a wild pointer.  Addresses
are numbered as `xmalloc` gives them out; 0 is the null pointer, and 1 is `&lines`.

What is printed is left out.  What the outside world decides is an argument: the lines the user
types, and what becomes of opening, reading, writing and closing files.
-/

namespace Rustybox.Ed

open Linked

abbrev Text := List UInt8

/-- The globals.  `saved` is history, which no function reads: the text last read completely when
ed was started, or last written completely. -/
structure Globals where
  curNum : ℤ
  lastNum : ℤ
  curLine : ℕ
  /-- What lies at `bufBase`. -/
  bufMem : ℕ → UInt8
  bufSize : ℕ
  fileName : Option Text
  lines : Heap Text
  dirty : Bool
  marks : ℕ → ℤ
  /-- `bb_common_bufsiz1`: the previous search string. -/
  searchString : Text
  /-- The next address of `xmalloc`. -/
  fresh : ℕ
  saved : Text

/-- `&lines`. -/
def head : ℕ := 1

/-- What `read_line_input` returns: end of file, ctrl-C, or a line. -/
inductive Reply where
  | eof
  | interrupt
  | text (buf : Text)

/-- A file that is read: the data `read` delivers in all, how many bytes the `i`-th `read`
delivers at most (one more than `sizes i`), and whether the end of file comes after them or an
error. -/
structure File where
  opened : Bool
  data : Text
  sizes : ℕ → ℕ
  ok : Bool

/-- A file that is written: whether `creat`, the `i`-th `full_write` and `close` succeed. -/
structure Target where
  created : Bool
  written : ℕ → Bool
  closed : Bool

/-! ### Finding lines -/

def badNums (s : Globals) (num1 num2 : ℤ) : Bool := num1 < 1 || num2 > s.lastNum || num1 > num2

def walkNext (h : Heap Text) : ℕ → ℕ → Option ℕ
  | 0, lp => some lp
  | n + 1, lp => do walkNext h n (← next? h lp)

def walkPrev (h : Heap Text) : ℕ → ℕ → Option ℕ
  | 0, lp => some lp
  | n + 1, lp => do walkPrev h n (← prev? h lp)

/-- `findLine`: the pointer, unless the line does not exist. -/
def findLine (s : Globals) (num : ℤ) : Option (Globals × Option ℕ) := do
  if num < 1 ∨ num > s.lastNum then
    return (s, none)
  let first ← next? s.lines head
  let s := if s.curNum ≤ 0 then { s with curNum := 1, curLine := first } else s
  if num = s.curNum then
    return (s, some s.curLine)
  -- the numbers are positive here, so that halves are rounded down
  let last ← prev? s.lines head
  let (lp, lnum) :=
    if num < s.curNum / 2 then (first, 1)
    else if num > (s.curNum + s.lastNum) / 2 then (last, s.lastNum)
    else (s.curLine, s.curNum)
  let lp ← walkNext s.lines (num - lnum).toNat lp
  let lp ← walkPrev s.lines (lnum - num).toNat lp
  return (s, some lp)

/-- `memchr`: where the character is first found. -/
def memchr (data : Text) (c : UInt8) : Option ℕ := data.idxOf? c

/-- `findString` with `n` more places to try from `cp` on. -/
def findStringFrom (data str : Text) : ℕ → ℕ → Option ℕ
  | 0, _ => none
  | n + 1, cp =>
    if cp + str.length ≤ data.length then
      match memchr ((data.drop cp).take (data.length - str.length - cp + 1)) (str.getD 0 0) with
      | none => none
      | some k =>
        if (data.drop (cp + k)).take str.length = str then some (cp + k)
        else findStringFrom data str n (cp + k + 1)
    else none

def findString (data str : Text) (offset : ℕ) : Option ℕ :=
  findStringFrom data str (data.length + 1) offset

/-- The loop of `searchLines`: `n` lines are left. -/
def searchLoop (h : Heap Text) (str : Text) : ℕ → ℤ → ℕ → Option ℤ
  | 0, _, _ => some 0
  | n + 1, num1, lp => do
    let data ← data? h lp
    if (findString data str 0).isSome then
      return num1
    searchLoop h str n (num1 + 1) (← next? h lp)

/-- `searchLines`: the line that matches, or 0. -/
def searchLines (s : Globals) (str : Text) (num1 num2 : ℤ) : Option (Globals × ℤ) := do
  if badNums s num1 num2 then
    return (s, 0)
  if str = [] ∧ s.searchString = [] then
    -- no previous search string
    return (s, 0)
  let str := if str = [] then s.searchString else str
  let s := { s with searchString := str }
  let (s, lp) ← findLine s num1
  match lp with
  | none => return (s, 0)
  | some lp => return (s, ← searchLoop s.lines str (num2 - num1 + 1).toNat num1 lp)

def setCurNum (s : Globals) (num : ℤ) : Option (Globals × Bool) := do
  let (s, lp) ← findLine s num
  match lp with
  | none => return (s, false)
  | some lp => return ({ s with curNum := num, curLine := lp }, true)

/-! ### Inserting and deleting -/

/-- The node before which the line goes in: `&lines` for a line at the end. -/
def insertPlace (s : Globals) (num : ℤ) : Option (Globals × Option ℕ) :=
  if num > s.lastNum then some (s, some head) else findLine s num

def insertLine (s : Globals) (num : ℤ) (data : Text) : Option (Globals × Bool) := do
  if num < 1 ∨ num > s.lastNum + 1 then
    -- inserting at bad line number
    return (s, false)
  let newLp := s.fresh
  let s := { s with fresh := s.fresh + 1 }
  let (s, lp) ← insertPlace s num
  match lp with
  | none => return (s, false)
  | some lp =>
    let lines ← insertBefore s.lines newLp data lp
    setCurNum { s with lines, lastNum := s.lastNum + 1, dirty := true } num

/-- `addLines`: where no reply is left, the input is at its end. -/
def addLines (s : Globals) (num : ℤ) : List Reply → Option Globals
  | .text buf :: typed => do
    if buf = [46, 10] then
      return s
    let (s, ok) ← insertLine s num buf
    if ok then addLines s (num + 1) typed else return s
  | _ => some s

def deleteLoop (h : Heap Text) : ℕ → ℕ → Option (Heap Text)
  | 0, _ => some h
  | count + 1, lp => do
    let nlp ← next? h lp
    deleteLoop (← remove h lp) count nlp

/-- Make a line the current one that is not deleted. -/
def leaveRange (s : Globals) (num1 num2 : ℤ) : Option Globals :=
  if s.curNum ≥ num1 ∧ s.curNum ≤ num2 then
    if num2 < s.lastNum then (setCurNum s (num2 + 1)).map Prod.fst
    else if num1 > 1 then (setCurNum s (num1 - 1)).map Prod.fst
    else some { s with curNum := 0 }
  else some s

def deleteLines (s : Globals) (num1 num2 : ℤ) : Option Globals := do
  if badNums s num1 num2 then
    return s
  let (s, lp) ← findLine s num1
  match lp with
  | none => return s
  | some lp =>
    let s ← leaveRange s num1 num2
    let count := num2 - num1 + 1
    let s := if s.curNum > num2 then { s with curNum := s.curNum - count } else s
    let lines ← deleteLoop s.lines count.toNat lp
    return { s with lines, lastNum := s.lastNum - count, dirty := true }

/-! ### Files -/

/-- The `used` bytes at `bufBase + ptr`. -/
def slice (mem : ℕ → UInt8) (ptr used : ℕ) : Text := (List.range used).map fun i => mem (ptr + i)

/-- The memory after `data` has been put at `ptr`. -/
def store (mem : ℕ → UInt8) (ptr : ℕ) (data : Text) : ℕ → UInt8 := fun i =>
  if ptr ≤ i ∧ i < ptr + data.length then data.getD (i - ptr) 0 else mem i

/-- Make room for the next `read`: what is left goes to the start of the buffer, and a full buffer
grows.  The second component is where to read to. -/
def makeRoom (s : Globals) (ptr used : ℕ) : Globals × ℕ :=
  let (s, ptr) :=
    if ptr ≠ 0 then ({ s with bufMem := store s.bufMem 0 (slice s.bufMem ptr used) }, used)
    else (s, ptr)
  if used ≥ s.bufSize then ({ s with bufSize := s.bufSize * 3 / 2 }, used) else (s, ptr)

/-- The loop of `readLines`, in which `rest` is still to be delivered by the `i`-th `read` and
those after it.  The result is what `readLines` returns. -/
def readLoop (f : File) : ℕ → Globals → ℤ → (ptr used i : ℕ) → (rest : Text) →
    Option (Globals × ℤ)
  | 0, _, _, _, _, _, _ => none
  | n + 1, s, num, ptr, used, i, rest =>
    match memchr (slice s.bufMem ptr used) 10 with
    | some k => do
      let (s, ok) ← insertLine s num (slice s.bufMem ptr (k + 1))
      if ok then readLoop f n s (num + 1) (ptr + (k + 1)) (used - (k + 1)) i rest
      else return (s, 0)
    | none =>
      let (s, ptr) := makeRoom s ptr used
      if rest = [] then
        if f.ok then
          if used ≠ 0 then do
            let (s, ok) ← insertLine s num (slice s.bufMem 0 used)
            return (s, if ok then 1 else -1)
          else some (s, 1)
        else some (s, 0)
      else
        let data := rest.take (min (s.bufSize - used) (f.sizes i + 1))
        let s := { s with bufMem := store s.bufMem ptr data }
        -- the next line is looked for from the start of the buffer on
        readLoop f n s num 0 (used + data.length) (i + 1) (rest.drop data.length)

def readLines (s : Globals) (f : File) (num : ℤ) : Option (Globals × ℤ) :=
  if num < 1 ∨ num > s.lastNum + 1 then some (s, 0)
  else if ¬f.opened then some (s, 0)
  else readLoop f (2 * f.data.length + 1) s num 0 0 0 f.data

/-- The loop of `writeLines`: what has been written, and whether all writes succeeded. -/
def writeLoop (h : Heap Text) (t : Target) : ℕ → ℕ → ℕ → Text → Option (Text × Bool)
  | 0, _, _, out => some (out, true)
  | n + 1, i, lp, out => do
    let data ← data? h lp
    if ¬t.written i then
      return (out, false)
    writeLoop h t n (i + 1) (← next? h lp) (out ++ data)

def writeLines (s : Globals) (t : Target) (num1 num2 : ℤ) : Option (Globals × Bool) := do
  if badNums s num1 num2 ∨ ¬t.created then
    return (s, false)
  let (s, lp) ← findLine s num1
  match lp with
  | none => return (s, false)
  | some lp =>
    let (out, ok) ← writeLoop s.lines t (num2 - num1 + 1).toNat 0 lp []
    if ¬ok ∨ ¬t.closed then
      return (s, false)
    return (if num1 = 1 ∧ num2 = s.lastNum then { s with saved := out } else s, true)

/-! ### Printing -/

def printLoop : ℕ → Globals → ℤ → ℕ → Option Globals
  | 0, s, _, _ => some s
  | n + 1, s, num1, lp => do
    let _ ← data? s.lines lp
    let (s, _) ← setCurNum s num1
    printLoop n s (num1 + 1) (← next? s.lines lp)

/-- `printLines`: the last line printed becomes the current line. -/
def printLines (s : Globals) (num1 num2 : ℤ) : Option Globals := do
  if badNums s num1 num2 then
    return s
  let (s, lp) ← findLine s num1
  match lp with
  | none => return s
  | some lp => printLoop (num2 - num1 + 1).toNat s num1 lp

/-! ### Substituting -/

/-- What a substitute command says. -/
structure Substitution where
  oldStr : Text
  newStr : Text
  globalFlag : Bool
  printFlag : Bool

def isblank (c : UInt8) : Bool := c = 32 || c = 9

/-- The text before and after the first `delim`. -/
def cutAt (delim : UInt8) (cp : Text) : Option (Text × Text) :=
  (memchr cp delim).map fun k => (cp.take k, cp.drop (k + 1))

/-- The command without its first letter. -/
def parseSubstitution : Text → Option Substitution
  | [] => none
  | delim :: cp =>
    if isblank delim then none
    else
      match cutAt delim cp with
      | none => none
      | some (oldStr, cp) =>
        let (newStr, flags) := (cutAt delim cp).getD (cp, [])
        if flags.all fun c => c = 103 || c = 112 then
          some ⟨oldStr, newStr, flags.contains 103, flags.contains 112⟩
        else none

/-- The line with the old string at `offset` replaced. -/
def spliceAt (data newStr : Text) (offset oldLen : ℕ) : Text :=
  data.take offset ++ newStr ++ data.drop (offset + oldLen)

/-- Put the new text into the line: in place where it is not longer, else in a new node. -/
def changeLine (s : Globals) (lp : ℕ) (data : Text) (grows : Bool) : Option (Globals × ℕ) :=
  if grows then do
    let nlp := s.fresh
    let lines ← replace s.lines nlp data lp
    return ({ s with
      lines, fresh := s.fresh + 1, curLine := if s.curLine = lp then nlp else s.curLine }, nlp)
  else do
    let node ← s.lines lp
    return ({ s with lines := Function.update s.lines lp (some { node with data }) }, lp)

/-- The rounds of the loop of `subCommand` for one line, from `offset` on: the node that has the
line then, the offset, and whether the line is to be printed. -/
def subLine (sub : Substitution) : ℕ → Globals → ℕ → ℕ → Bool →
    Option (Globals × ℕ × ℕ × Bool)
  | 0, s, lp, offset, needPrint => some (s, lp, offset, needPrint)
  | n + 1, s, lp, offset, needPrint => do
    let data ← data? s.lines lp
    match findString data sub.oldStr offset with
    | none => return (s, lp, 0, needPrint)
    | some offset =>
      let (s, lp) ← changeLine { s with dirty := true } lp
        (spliceAt data sub.newStr offset sub.oldStr.length)
        (sub.newStr.length > sub.oldStr.length)
      let offset := offset + sub.newStr.length
      if sub.globalFlag then subLine sub n s lp offset sub.printFlag
      else return (s, lp, offset, sub.printFlag)

/-- Print the line if it is to be printed. -/
def printIf (needPrint : Bool) (s : Globals) (num : ℤ) : Option Globals :=
  if needPrint then printLines s num num else some s

/-- The loop of `subCommand`: `n` lines are left. -/
def subLoop (sub : Substitution) : ℕ → Globals → ℤ → ℕ → ℕ → Option Globals
  | 0, s, _, _, _ => some s
  | n + 1, s, num1, lp, offset => do
    let data ← data? s.lines lp
    let (s, lp, offset, needPrint) ← subLine sub (data.length + 1) s lp offset false
    let s ← printIf needPrint s num1
    subLoop sub n s (num1 + 1) (← next? s.lines lp) offset

def subCommand (s : Globals) (cmd : Text) (num1 num2 : ℤ) : Option Globals := do
  if badNums s num1 num2 then
    return s
  match parseSubstitution cmd with
  | none => return s
  | some sub =>
    if sub.oldStr = [] ∧ s.searchString = [] then
      -- no previous search string
      return s
    let oldStr := if sub.oldStr = [] then s.searchString else sub.oldStr
    let s := { s with searchString := oldStr }
    let (s, lp) ← findLine s num1
    match lp with
    | none => return s
    | some lp => subLoop { sub with oldStr } (num2 - num1 + 1).toNat s num1 lp 0

end Rustybox.Ed
