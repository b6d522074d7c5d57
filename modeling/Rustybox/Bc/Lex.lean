import Rustybox.Bc.Num

/-!
# Reading numbers of bc

The input comes in lines: when the buffer is used up, `peek_inbuf` reads the next line of the
file into it.  A number goes on over a backslash at the end of a line.

`Token.other` stands for the tokens that start with some other character.  `xc_read_line` reads
from something that is no terminal.

`zxc_num_parse` turns the text of a number into a number: decimal numbers and those of a single
digit are copied, the others are built up by multiplication with the base.
-/

namespace Rustybox.Bc

inductive Token where
  | number (text : List Char)
  | nline
  | whitespace
  | last
  | eof
  | other (c : Char)
  deriving DecidableEq

/-- What the lexer reads and changes of `BcParse`: the rest of the buffer (without the zero byte
at its end), what has not been read of the file (`none` for a null pointer), whether the file
has a name, and the line number. -/
structure Lexer where
  inbuf : List Char
  inputFp : Option (List Char) := none
  named : Bool := false
  line : ℕ := 0

/-! ### Lines -/

/-- `bad_input_byte`, of a signed char. -/
def badInputByte (c : Char) : Bool :=
  (c.toNat < 32 && c ≠ '\t' && c ≠ '\r' && c ≠ '\n') || 0x7e < c.toNat

/-- The bytes up to a newline, but for zero bytes; and what comes behind them. -/
def getLine : List Char → List Char × List Char
  | [] => ([], [])
  | c :: cs =>
    if c = '\x00' then getLine cs
    else if c = '\n' then (['\n'], cs)
    else (c :: (getLine cs).1, (getLine cs).2)

/-- The loop of `xc_read_line`: a line with bad characters is skipped, or the file is given
up. -/
def readLineLoop (named : Bool) : ℕ → List Char → Except Err (List Char × List Char)
  | 0, _ => .error .unfinished
  | n + 1, file =>
    if (getLine file).1.any badInputByte then
      if named then .error .notText else readLineLoop named n (getLine file).2
    else .ok (getLine file)

/-- `xc_read_line`. -/
def readLine (named : Bool) (file : List Char) : Except Err (List Char × List Char) :=
  readLineLoop named (file.length + 1) file

/-- `peek_inbuf`; `none` is the zero byte. -/
def peekInbuf (s : Lexer) : Except Err (Option Char × Lexer) :=
  match s.inbuf, s.inputFp with
  | [], some file => do
    let (line, rest) ← readLine s.named file
    pure (line.head?, { s with inbuf := line, inputFp := if line = [] then none else some rest })
  | inbuf, _ => .ok (inbuf.head?, s)

def eatInbuf (s : Lexer) : Except Err (Option Char × Lexer) := do
  let (c, s) ← peekInbuf s
  pure (c, { s with inbuf := s.inbuf.drop 1 })

/-! ### Numbers -/

def isDigit (c : Char) : Bool := 48 ≤ c.toNat && c.toNat ≤ 57

/-- `last_valid_ch`; it is `F` in dc. -/
def lastValidCh : Char := 'Z'

/-- The letters that are digits. -/
def isUpper (c : Char) : Bool := 65 ≤ c.toNat && c.toNat ≤ lastValidCh.toNat

/-- The loop over line breaks: the next character that is not part of one. -/
def skipBreaks : ℕ → Option Char → Lexer → Except Err (Option Char × Lexer)
  | 0, _, _ => .error .unfinished
  | n + 1, c, s =>
    if c = some '\\' ∧ s.inbuf[1]? = some '\n' then do
      let (c, s) ← peekInbuf { s with inbuf := s.inbuf.drop 2, line := s.line + 1 }
      skipBreaks n c s
    else .ok (c, s)

/-- The loop of `zxc_lex_number`; `pt` says that there has been a point. -/
def lexNumberLoop (fuel : ℕ) : ℕ → Bool → List Char → Lexer → Except Err (List Char × Lexer)
  | 0, _, _, _ => .error .unfinished
  | n + 1, pt, buf, s => do
    let (c, s) ← skipBreaks fuel s.inbuf.head? s
    match c with
    | none => pure (buf, s)
    | some c =>
      if isDigit c || isUpper c then
        lexNumberLoop fuel n pt (buf ++ [c]) { s with inbuf := s.inbuf.drop 1 }
      else if c ≠ '.' ∨ pt then pure (buf, s)
      else lexNumberLoop fuel n true (buf ++ [c]) { s with inbuf := s.inbuf.drop 1 }

/-- `zxc_lex_number`: a point at the end is removed. -/
def lexNumber (fuel : ℕ) (last : Char) (s : Lexer) : Except Err (Token × Lexer) := do
  let (buf, s) ← lexNumberLoop fuel fuel (last = '.') [last] s
  pure (.number (if buf.getLast? = some '.' then buf.dropLast else buf), s)

/-! ### Tokens -/

def isBlank (c : Char) : Bool := c = ' ' || (9 ≤ c.toNat && c.toNat ≤ 13 && c ≠ '\n')

/-- `zbc_lex_token`. -/
def lexToken (fuel : ℕ) (s : Lexer) : Except Err (Token × Lexer) := do
  let (c, s) ← eatInbuf s
  match c with
  | none => .error (.badCharacter '\x00')
  | some c =>
    if c = '\n' then pure (.nline, { s with line := s.line + 1 })
    else if isBlank c then pure (.whitespace, { s with inbuf := s.inbuf.dropWhile isBlank })
    else if c = '.' then
      if s.inbuf.head?.any isDigit then lexNumber fuel c s else pure (.last, s)
    else if isDigit c || isUpper c then lexNumber fuel c s
    else if c = '\\' then
      if s.inbuf.head? = some '\n' then pure (.whitespace, { s with inbuf := s.inbuf.drop 1 })
      else .error (.badCharacter c)
    else pure (.other c, s)

/-- The loop of `zxc_lex_next`: white space is left out. -/
def lexNextLoop (fuel : ℕ) : ℕ → Lexer → Except Err (Token × Lexer)
  | 0, _ => .error .unfinished
  | n + 1, s => do
    let (c, s) ← peekInbuf s
    if c = none then pure (.eof, s)
    else
      let (tok, s) ← lexToken fuel s
      if tok = .whitespace then lexNextLoop fuel n s else pure (tok, s)

/-- `zxc_lex_next`. -/
def lexNext (fuel : ℕ) (s : Lexer) : Except Err (Token × Lexer) := lexNextLoop fuel fuel s

/-! ## Reading numbers -/

/-- `xc_num_strValid`; `radix` says that there has been a point. -/
def strValid : Bool → List Char → Bool
  | _, [] => true
  | radix, c :: cs =>
    if c = '.' then !radix && strValid true cs
    else if (c.toNat < 48 || 57 < c.toNat) && (c.toNat < 65 || 90 < c.toNat) then false
    else strValid radix cs

/-- The digits behind the point. -/
def fractionLen (val : List Char) : ℕ := (val.dropWhile (· ≠ '.')).length - 1

/-- A digit among others; letters count as nine. -/
def decimalDigit (c : Char) : ℤ := if 9 < (c.toNat : ℤ) - 48 then 9 else (c.toNat : ℤ) - 48

/-- A digit on its own; letters count from ten on. -/
def singleDigit (c : Char) : List ℤ :=
  if 9 < (c.toNat : ℤ) - 48 then
    [((c.toNat : ℤ) - 48 - 7) % 10, ((c.toNat : ℤ) - 48 - 7) / 10]
  else [(c.toNat : ℤ) - 48]

/-- `bc_num_parseDecimal`.  The digits are copied from the last one on, without the point. -/
def parseDecimal (val : List Char) : BcNum :=
  match val.reverse with
  | [] => zero
  | c :: cs =>
    if val.any (fun c => c ≠ '0' && c ≠ '.') then
      if cs = [] then { num := singleDigit c, rdx := fractionLen val }
      else { num := (c :: cs.filter (· ≠ '.')).map decimalDigit, rdx := fractionLen val }
    else setToZero (fractionLen val)

/-- The value of a digit; one that is too large counts as the largest. -/
def baseDigit (base : ℕ) (c : Char) : ℕ :=
  min (base - 1) (if c.toNat ≤ 57 then c.toNat - 48 else c.toNat - 65 + 10)

/-- The loop of `bc_num_parseBase` over the digits before the point: the number, and what comes
behind the point. -/
def parseInt (fuel base : ℕ) : BcNum → List Char → Except Err (BcNum × Option (List Char))
  | n, [] => .ok (n, none)
  | n, c :: val =>
    if c = '.' then .ok (n, some val)
    else do
      let mult ← mul fuel n (ulong2num base) 0
      parseInt fuel base (add mult (ulong2num (baseDigit base c))) val

/-- The loop over the digits behind the point: their value, and the power of the base. -/
def parseFraction (fuel base : ℕ) : BcNum → BcNum → List Char → Except Err (BcNum × BcNum)
  | result, mult, [] => .ok (result, mult)
  | result, mult, c :: val => do
    let result ← mul fuel result (ulong2num base) 0
    let result := add result (ulong2num (baseDigit base c))
    let mult ← mul fuel mult (ulong2num base) 0
    parseFraction fuel base result mult val

/-- `bc_num_parseBase`. -/
def parseBase (fuel base : ℕ) (val : List Char) : Except Err BcNum := do
  match ← parseInt fuel base zero val with
  | (n, none) => pure n
  | (n, some val) =>
    let (result, mult) ← parseFraction fuel base zero one val
    let result ← div fuel result mult val.length
    let n := add n result
    if n.len ≠ 0 then pure (if n.rdx < val.length then extend n (val.length - n.rdx) else n)
    else pure zero

/-- `zxc_num_parse`. -/
def numParse (fuel : ℕ) (val : List Char) (base : ℕ) : Except Err BcNum :=
  if strValid false val then
    let val := val.dropWhile (· = '0')
    if val.all (fun c => c = '.' || c = '0') then .ok zero
    else if base = 10 ∨ val.length = 1 then .ok (parseDecimal val)
    else parseBase fuel base val
  else .error .badNumberString

end Rustybox.Bc
