import Mathlib.Algebra.Ring.Int.Defs
import Rustybox.Ed.Editor

/-!
# The commands of ed

`doCommands` reads a line, takes the addresses off its front, and does what the letter behind them
says.  Addresses are read in the same way whatever the buffer is: a `View` says what the numbers
in them stand for.

The same commands on a list of lines: what is typed or read goes in as one block, what is deleted
is cut out, and a substitution changes each line for itself.
-/

namespace Rustybox.Ed

/-! ### Addresses -/

/-- What addresses speak of.  A search has no result where the search itself crashes, and 0 where it
finds nothing. -/
structure View (σ : Type) where
  curNum : σ → ℤ
  lastNum : σ → ℤ
  mark : σ → ℕ → ℤ
  search : σ → Text → Option (σ × ℤ)

def isspace (c : UInt8) : Bool := c = 32 || (9 ≤ c && c ≤ 13)

def skipWhitespace (cp : Text) : Text := cp.dropWhile isspace

def isdigit (c : UInt8) : Bool := 48 ≤ c && c ≤ 57

/-- The value of an `int` that may have overflowed. -/
def wrap (n : ℤ) : ℤ := (n + 2 ^ 31) % 2 ^ 32 - 2 ^ 31

/-- A decimal number, and what follows it. -/
def getDigits : ℤ → Text → ℤ × Text
  | num, [] => (num, [])
  | num, c :: cp =>
    if isdigit c then getDigits (wrap (num * 10 + (c.toNat - 48))) cp else (num, c :: cp)

/-- What stands for a number in an address. -/
inductive Address where
  | dot
  | dollar
  | mark (i : ℕ)
  | search (str : Text)
  | number (num : ℤ)

/-- What the scan finds: no address, an error, or an address and what follows it. -/
inductive Atom where
  | absent
  | bad
  | address (address : Address) (cp : Text)

/-- The `match` at the head of the loop of `getNum`. -/
def getAtom : Text → Atom
  | 46 :: cp => .address .dot cp -- .
  | 36 :: cp => .address .dollar cp -- $
  | 39 :: c :: cp => -- 'c
    if 97 ≤ c ∧ c ≤ 122 then .address (.mark (c.toNat - 97)) cp else .bad
  | [39] => .bad
  | 47 :: cp => -- /str/
    let (str, cp) := (cutAt 47 cp).getD (cp, [])
    .address (.search str) cp
  | c :: cp =>
    if isdigit c then
      let (num, cp) := getDigits 0 (c :: cp)
      .address (.number num) cp
    else .absent
  | [] => .absent

section

variable {σ : Type}

/-- The number an address stands for.  There is none where a search fails. -/
def View.value (v : View σ) (s : σ) : Address → Option (σ × Option ℤ)
  | .dot => some (s, some (v.curNum s))
  | .dollar => some (s, some (v.lastNum s))
  | .mark i => some (s, some (v.mark s i))
  | .search str => do
    let (s, num) ← v.search s str
    return (s, if num = 0 then none else some num)
  | .number num => some (s, some num)

/-- The loop of `getNum`, of which every round but the last reads something: whether there is a
number, the number, and what stopped the scan, unless there is an error. -/
def getNumLoop (v : View σ) : ℕ → σ → (haveNum minus : Bool) → (value : ℤ) → Text →
    Option (σ × Option (Bool × ℤ × Text))
  | 0, s, haveNum, _, value, cp => some (s, some (haveNum, value, cp))
  | n + 1, s, haveNum, minus, value, cp =>
    match getAtom (skipWhitespace cp) with
    | .bad => some (s, none)
    | .absent => some (s, some (haveNum, value, skipWhitespace cp))
    | .address address cp => do
      let (s, num) ← v.value s address
      match num with
      | none => return (s, none)
      | some num =>
        let value := wrap (value + if minus then -num else num)
        match skipWhitespace cp with
        | 45 :: cp => getNumLoop v n s true true value cp -- -
        | 43 :: cp => getNumLoop v n s true false value cp -- +
        | cp => return (s, some (true, value, cp))

def getNum (v : View σ) (s : σ) (cp : Text) : Option (σ × Option (Bool × ℤ × Text)) :=
  getNumLoop v (cp.length + 1) s false false 0 cp

/-- A command with its addresses: `have1` where there are any, and the letter and what follows
it. -/
structure Parsed where
  have1 : Bool
  num1 : ℤ
  num2 : ℤ
  cp : Text

/-- The addresses of a command line, which is blank at its end no more. -/
def parseAddresses (v : View σ) (s : σ) (buf : Text) : Option (σ × Option Parsed) := do
  let (s, r) ← getNum v s (skipWhitespace buf)
  match r with
  | none => return (s, none)
  | some (have1, num1, cp) =>
    match skipWhitespace cp with
    | 44 :: cp => -- ,
      let (s, r) ← getNum v s cp
      match r with
      | none => return (s, none)
      | some (have2, num2, cp) =>
        return (s, some ⟨true, if have1 then num1 else 1, if have2 then num2 else v.lastNum s, cp⟩)
    | cp =>
      let num := if have1 then num1 else v.curNum s
      return (s, some ⟨have1, num, num, cp⟩)

/-- The line without its blank end. -/
def trimEnd (buf : Text) : Text := (buf.reverse.dropWhile isspace).reverse

/-! ### Commands -/

/-- A command line, and all that the outside world says while it is carried out: the lines that are
typed, the file that is read, the one that is written, and the answer to "Really quit?". -/
structure Command where
  buf : Text
  typed : List Reply
  file : File
  target : Target
  confirm : Reply

def Globals.view : View Globals where
  curNum := Globals.curNum
  lastNum := Globals.lastNum
  mark := Globals.marks
  search s str := searchLines s str s.curNum s.lastNum

/-- Whether ed goes on after "Really quit? ". -/
def goesOn : Reply → Bool
  | .eof => false
  | .interrupt => true
  | .text buf =>
    match skipWhitespace buf with
    | [] => true
    | c :: _ => ¬(c ||| 0x20) = 121

/-- The `match` on the letter of the command: the globals, and whether ed goes on. -/
def execute (s : Globals) (p : Parsed) (c : Command) : Option (Globals × Bool) :=
  let on : Option Globals → Option (Globals × Bool) := Option.map fun s => (s, true)
  match p.cp with
  | 97 :: _ => on (addLines s (p.num1 + 1) c.typed) -- a
  | 99 :: _ => on do -- c
    let s ← deleteLines s p.num1 p.num2
    addLines s p.num1 c.typed
  | 100 :: _ => on (deleteLines s p.num1 p.num2) -- d
  | 102 :: cp => -- f
    if cp ≠ [] ∧ cp.head? ≠ some 32 then on (some s) -- bad file command
    else if skipWhitespace cp = [] then on (some s)
    else on (some { s with fileName := some (skipWhitespace cp) })
  | 105 :: _ => -- i
    let num1 := if ¬p.have1 ∧ s.lastNum = 0 then 1 else p.num1
    on (addLines s num1 c.typed)
  | 107 :: cp => -- k
    match skipWhitespace cp with
    | [ch] =>
      if 97 ≤ ch ∧ ch ≤ 122 then
        on (some { s with marks := Function.update s.marks (ch.toNat - 97) p.num2 })
      else on (some s)
    | _ => on (some s) -- bad mark name
  | 108 :: _ => on (printLines s p.num1 p.num2) -- l
  | 112 :: _ => on (printLines s p.num1 p.num2) -- p
  | 113 :: cp => -- q
    if p.have1 ∨ skipWhitespace cp ≠ [] then on (some s) -- bad quit command
    else if ¬s.dirty then some (s, false)
    else some (s, goesOn c.confirm)
  | 114 :: cp => -- r
    if cp ≠ [] ∧ cp.head? ≠ some 32 then on (some s) -- bad read command
    else if skipWhitespace cp = [] then on (some s) -- no file name
    else on do
      let num1 := if ¬p.have1 then s.lastNum else p.num1
      let (s, ok) ← readLines s c.file (num1 + 1)
      return if ok = 0 ∧ s.fileName = none then
        { s with fileName := some (skipWhitespace cp) } else s
  | 115 :: cp => on (subCommand s cp p.num1 p.num2) -- s
  | 119 :: cp => -- w
    if cp ≠ [] ∧ cp.head? ≠ some 32 then on (some s) -- bad write command
    else if skipWhitespace cp = [] ∧ s.fileName = none then on (some s) -- no file name specified
    else on do
      let num1 := if ¬p.have1 then 1 else p.num1
      let num2 := if ¬p.have1 then s.lastNum else p.num2
      let s := if ¬p.have1 then { s with dirty := false } else s
      let (s, _) ← writeLines s c.target num1 num2
      return s
  | 122 :: cp => -- z
    on (match cp.head? with
    | some 45 => printLines s (s.curNum - 21) s.curNum
    | some 46 => printLines s (s.curNum - 11) (s.curNum + 10)
    | _ => printLines s s.curNum (s.curNum + 21))
  | 46 :: _ => -- .
    if p.have1 then on (some s) -- no arguments allowed
    else on (printLines s s.curNum s.curNum)
  | 45 :: _ => on do -- -
    let (s, ok) ← setCurNum s (s.curNum - 1)
    if ok then printLines s s.curNum s.curNum else return s
  | 61 :: _ => on (some s) -- =
  | [] =>
    if p.have1 then on (printLines s p.num2 p.num2)
    else on do
      let (s, ok) ← setCurNum s (s.curNum + 1)
      if ok then printLines s s.curNum s.curNum else return s
  | _ => on (some s) -- unimplemented command

/-- Where there are lines, one of them is the current one. -/
def ensureCurrent (s : Globals) : Option Globals :=
  if s.curNum = 0 ∧ s.lastNum > 0 then
    (Linked.next? s.lines head).map fun first => { s with curNum := 1, curLine := first }
  else some s

/-- The body of the loop of `doCommands`, after a command line has been read. -/
def doCommand (s : Globals) (c : Command) : Option (Globals × Bool) := do
  let s ← ensureCurrent s
  let (s, p) ← parseAddresses Globals.view s (trimEnd c.buf)
  match p with
  | none => return (s, true)
  | some p => execute s p c

/-- The globals when `ed_main` starts.  `garbage` is what `xmalloc` leaves in the buffer. -/
def start (garbage : ℕ → UInt8) : Globals where
  curNum := 0
  lastNum := 0
  curLine := 0
  bufMem := garbage
  bufSize := 1024
  fileName := none
  lines := Function.update (fun _ => none) head (some ⟨head, head, []⟩)
  dirty := false
  marks := fun _ => 0
  searchString := []
  fresh := 2
  saved := []

/-- The first line becomes the current one. -/
def toFirst (s : Globals) : Option Globals :=
  if s.lastNum ≠ 0 then (setCurNum s 1).map Prod.fst else some s

/-- `ed_main` up to the loop: there are no globals where ed exits at once. -/
def edMain (garbage : ℕ → UInt8) : Option (Text × File) → Option (Option Globals)
  | none => some (some (start garbage))
  | some (name, file) => do
    let (s, ok) ← readLines { start garbage with fileName := some name } file 1
    if ok = 0 then
      return none
    let s ← toFirst s
    return some { s with dirty := false, saved := file.data }


end

/-! ## ed on a plain list -/

structure Plain where
  lines : List Text
  curNum : ℤ
  marks : ℕ → ℤ
  searchString : Text

namespace Plain

def lastNum (a : Plain) : ℤ := a.lines.length

def bad (a : Plain) (num1 num2 : ℤ) : Bool := num1 < 1 || num2 > a.lastNum || num1 > num2

/-! ### Addresses -/

/-- The first line that has the string; the first of the lines is line `num`. -/
def searchFrom (str : Text) : ℤ → List Text → ℤ
  | _, [] => 0
  | num, data :: lines =>
    if (findString data str 0).isSome then num else searchFrom str (num + 1) lines

def search (a : Plain) (str : Text) : Plain × ℤ :=
  if a.bad a.curNum a.lastNum then (a, 0)
  else if str = [] ∧ a.searchString = [] then (a, 0)
  else
    let str := if str = [] then a.searchString else str
    ({ a with searchString := str },
      searchFrom str a.curNum (a.lines.drop (a.curNum - 1).toNat))

def view : View Plain where
  curNum := curNum
  lastNum := lastNum
  mark := marks
  search a str := some (a.search str)

/-! ### Edits -/

/-- The lines go in so that the first becomes line `num`. -/
def insert (a : Plain) (num : ℤ) (new : List Text) : Plain :=
  if num < 1 ∨ num > a.lastNum + 1 ∨ new = [] then a
  else { a with
    lines := a.lines.take (num - 1).toNat ++ new ++ a.lines.drop (num - 1).toNat
    curNum := num - 1 + new.length }

/-- The current line after the lines `num1` to `num2` have been deleted. -/
def curNumWithout (a : Plain) (num1 num2 : ℤ) : ℤ :=
  if a.curNum < num1 then a.curNum
  else if a.curNum ≤ num2 then if num2 < a.lastNum then num1 else num1 - 1
  else a.curNum - (num2 - num1 + 1)

def delete (a : Plain) (num1 num2 : ℤ) : Plain :=
  if a.bad num1 num2 then a
  else { a with
    lines := a.lines.take (num1 - 1).toNat ++ a.lines.drop num2.toNat
    curNum := a.curNumWithout num1 num2 }

/-- The lines before the one with a single dot or the end of the input. -/
def typedLines : List Reply → List Text
  | .text buf :: typed => if buf = [46, 10] then [] else buf :: typedLines typed
  | _ => []

/-- The lines of a file, and what follows the last newline. -/
def splitLines : Text → List Text × Text
  | [] => ([], [])
  | c :: data =>
    if c = 10 then ([10] :: (splitLines data).1, (splitLines data).2)
    else
      match splitLines data with
      | ([], rest) => ([], c :: rest)
      | (line :: lines, rest) => ((c :: line) :: lines, rest)

theorem splitLines_cons (c : UInt8) (data : Text) :
    splitLines (c :: data) =
      if c = 10 then ([10] :: (splitLines data).1, (splitLines data).2)
      else
        match splitLines data with
        | ([], rest) => ([], c :: rest)
        | (line :: lines, rest) => ((c :: line) :: lines, rest) := rfl

/-- The lines that are read from a file.  Of an error the line that it cuts off is not read. -/
def fileLines (f : File) : List Text :=
  if f.ok ∧ (splitLines f.data).2 ≠ [] then (splitLines f.data).1 ++ [(splitLines f.data).2]
  else (splitLines f.data).1

def read (a : Plain) (f : File) (num : ℤ) : Plain :=
  if f.opened then a.insert num (fileLines f) else a

/-- A line with the first occurrence replaced from `offset` on, or all of them. -/
def replaceFrom (sub : Substitution) : ℕ → Text → ℕ → Text
  | 0, data, _ => data
  | n + 1, data, offset =>
    match findString data sub.oldStr offset with
    | none => data
    | some offset =>
      let data := spliceAt data sub.newStr offset sub.oldStr.length
      if sub.globalFlag then replaceFrom sub n data (offset + sub.newStr.length) else data

def replaceLine (sub : Substitution) (data : Text) : Text :=
  replaceFrom sub (data.length + 1) data 0

/-- The current line after a substitution in lines from `num` on: where they are printed, it is
the last one that was changed. -/
def curNumAfter (sub : Substitution) : ℤ → ℤ → List Text → ℤ
  | cur, _, [] => cur
  | cur, num, data :: lines =>
    curNumAfter sub
      (if sub.printFlag ∧ (findString data sub.oldStr 0).isSome then num else cur) (num + 1) lines

def range (a : Plain) (num1 num2 : ℤ) : List Text :=
  (a.lines.take num2.toNat).drop (num1 - 1).toNat

/-- The substitution with the previous search string where it gives none. -/
def fillIn (a : Plain) (sub : Substitution) : Substitution :=
  { sub with oldStr := if sub.oldStr = [] then a.searchString else sub.oldStr }

def substitute (a : Plain) (cmd : Text) (num1 num2 : ℤ) : Plain :=
  if a.bad num1 num2 then a
  else
    match parseSubstitution cmd with
    | none => a
    | some sub =>
      if (a.fillIn sub).oldStr = [] then a
      else { a with
        lines := a.lines.take (num1 - 1).toNat ++
          (a.range num1 num2).map (replaceLine (a.fillIn sub)) ++ a.lines.drop num2.toNat
        curNum := curNumAfter (a.fillIn sub) a.curNum num1 (a.range num1 num2)
        searchString := (a.fillIn sub).oldStr }

/-- Another line becomes the current one, where there is such a line. -/
def move (a : Plain) (num : ℤ) : Plain :=
  if num < 1 ∨ num > a.lastNum then a else { a with curNum := num }

def print (a : Plain) (num1 num2 : ℤ) : Plain :=
  if a.bad num1 num2 then a else { a with curNum := num2 }

/-! ### Commands -/

/-- Whether a command that names a file is complete. -/
def namesFile (cp : Text) : Bool := (cp = [] || cp.head? = some 32) && skipWhitespace cp ≠ []

def execute (a : Plain) (p : Parsed) (c : Command) : Plain :=
  match p.cp with
  | 97 :: _ => a.insert (p.num1 + 1) (typedLines c.typed) -- a
  | 99 :: _ => (a.delete p.num1 p.num2).insert p.num1 (typedLines c.typed) -- c
  | 100 :: _ => a.delete p.num1 p.num2 -- d
  | 105 :: _ => -- i
    a.insert (if ¬p.have1 ∧ a.lines = [] then 1 else p.num1) (typedLines c.typed)
  | 107 :: cp => -- k
    match skipWhitespace cp with
    | [ch] =>
      if 97 ≤ ch ∧ ch ≤ 122 then
        { a with marks := Function.update a.marks (ch.toNat - 97) p.num2 } else a
    | _ => a
  | 108 :: _ => a.print p.num1 p.num2 -- l
  | 112 :: _ => a.print p.num1 p.num2 -- p
  | 114 :: cp => -- r
    if namesFile cp then a.read c.file ((if ¬p.have1 then a.lastNum else p.num1) + 1) else a
  | 115 :: cp => a.substitute cp p.num1 p.num2 -- s
  | 122 :: cp => -- z
    match cp.head? with
    | some 45 => a.print (a.curNum - 21) a.curNum
    | some 46 => a.print (a.curNum - 11) (a.curNum + 10)
    | _ => a.print a.curNum (a.curNum + 21)
  | 45 :: _ => a.move (a.curNum - 1) -- -
  | [] => if p.have1 then a.print p.num2 p.num2 else a.move (a.curNum + 1)
  | _ => a

/-- A command on a plain list. -/
def command (a : Plain) (c : Command) : Plain :=
  match parseAddresses view a (trimEnd c.buf) with
  | none => a
  | some (a, none) => a
  | some (a, some p) => a.execute p c

def empty : Plain := ⟨[], 0, fun _ => 0, []⟩

end Plain

end Rustybox.Ed
