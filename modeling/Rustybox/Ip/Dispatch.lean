import Mathlib.Data.List.Basic

/-!
# Which calls of `ip` are handled

`modern/ip.rs` handles a few forms of `ip` itself and leaves the rest to the
transpiled `ip_main`: `run` returns the exit code of a call it handles, and `none`
for a call it leaves alone.  The commands behind it talk to the kernel, so their
exit codes are a parameter; what is modelled is the reading of the arguments.

The loops follow the source, token by token.  Where the source sets a variable the
loop has an argument, so `consumeDevLoop` and `linkSetLoop` can be read beside it.
-/

namespace Rustybox.Ip

/-- The commands that a handled call ends in, by their exit codes. -/
structure Sys where
  cmdAddrShow : Option String → Int
  cmdLinkShow : Option String → Int
  cmdLinkSetUpdown : String → Bool → Int
  cmdRouteShow : Int

/-- The options that are dropped wherever they stand. -/
def globalOptions : List String :=
  ["-o", "-oneline", "-4", "-6", "-f", "-family", "inet", "inet6"]

def showWords : List String := ["show", "list", "s"]

def addrWords : List String := ["addr", "address", "a"]

def linkWords : List String := ["link", "l"]

def routeWords : List String := ["route", "r"]

/-- The arguments without the name of the program and without global options. -/
def strip (argv : List String) : List String := (argv.drop 1).filter (· ∉ globalOptions)

/-- The loop of `consume_dev`.  `dev` as the last word has no name after it, and
takes back the device there was. -/
def consumeDevLoop : List String → Option String → Option (Option String)
  | [], dev => some dev
  | tok :: args, dev =>
    if tok = "dev" then
      match args with
      | [] => some none
      | name :: args => consumeDevLoop args (some name)
    else if tok ∈ showWords then consumeDevLoop args dev
    else if dev = none then consumeDevLoop args (some tok)
    else none

def consumeDev (args : List String) : Option (Option String) := consumeDevLoop args none

/-- The loop of `link set`: the device and the direction it ends with. -/
def linkSetLoop : List String → Option String → Option Bool → Option (Option String × Option Bool)
  | [], dev, updown => some (dev, updown)
  | tok :: args, dev, updown =>
    if tok = "dev" then
      match args with
      | [] => some (none, updown)
      | name :: args => linkSetLoop args (some name) updown
    else if tok = "up" then linkSetLoop args dev (some true)
    else if tok = "down" then linkSetLoop args dev (some false)
    else if dev = none then linkSetLoop args (some tok) updown
    else none

def linkSet (sys : Sys) (args : List String) : Option Int :=
  match linkSetLoop args none none with
  | some (some dev, some up) => some (sys.cmdLinkSetUpdown dev up)
  | _ => none

/-- `route`, which looks at one word. -/
def route (sys : Sys) : List String → Option Int
  | [] => some sys.cmdRouteShow
  | tok :: _ => if tok ∈ showWords then some sys.cmdRouteShow else none

def link (sys : Sys) : List String → Option Int
  | [] => (consumeDev []).map sys.cmdLinkShow
  | tok :: args =>
    if tok = "set" then linkSet sys args
    else (consumeDev (tok :: args)).map sys.cmdLinkShow

def run (sys : Sys) (argv : List String) : Option Int :=
  match strip argv with
  | [] => none
  | sub :: args =>
    if sub ∈ addrWords then (consumeDev args).map sys.cmdAddrShow
    else if sub ∈ linkWords then link sys args
    else if sub ∈ routeWords then route sys args
    else none

/-! ### Verbs -/

/-- The loop of `index_in_substrings`: `matched` is the first entry that begins with
the key, a second one makes the key ambiguous, and an entry equal to it ends the search. -/
def indexInSubstringsLoop (key : List Char) : List (List Char) → ℕ → Option ℕ → Option ℕ
  | [], _, matched => matched
  | entry :: strings, idx, matched =>
    if key.isPrefixOf entry then
      if entry.length = key.length then some idx
      else if matched = none then indexInSubstringsLoop key strings (idx + 1) (some idx)
      else none
    else indexInSubstringsLoop key strings (idx + 1) matched

def indexInSubstrings (strings : List String) (key : String) : Option ℕ :=
  if key = "" then none else indexInSubstringsLoop key.toList (strings.map String.toList) 0 none

/-- The table of `do_ipaddr` in the transpiled `ip`. -/
def ipaddrCommands : List String :=
  ["add", "change", "chg", "replace", "delete", "list", "show", "lst", "flush"]

/-- The table of `do_iplink` in the transpiled `ip`. -/
def iplinkKeywords : List String := ["add", "delete", "set", "show", "lst", "list"]

/-- A word that the transpiled `ip` takes for a verb of `addr` or of `link`. -/
def Verb (w : String) : Prop :=
  (indexInSubstrings ipaddrCommands w).isSome ∨ (indexInSubstrings iplinkKeywords w).isSome

instance : DecidablePred Verb := fun w =>
  inferInstanceAs (Decidable ((indexInSubstrings ipaddrCommands w).isSome = true ∨
    (indexInSubstrings iplinkKeywords w).isSome = true))

end Rustybox.Ip
