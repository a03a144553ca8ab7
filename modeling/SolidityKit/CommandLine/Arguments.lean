/-
The arguments of a command line.

An option has a long name and perhaps a short one.  A long name may be cut short as long as only one
option starts like that, and a value stands after an equals sign or in the next argument.  Short names
of options without a value may be run together.  None of the tools takes anything but options.

`Arguments.read` either gives what was asked for, in order, or says that help was asked for or that
the arguments make no sense.  Options are taken from left to right, so help wins over what makes no
sense after it, except that a name which could mean several options is found out before.
-/
import SolidityKit.Number.FloatText
import SolidityKit.Text.CodePoint

namespace SolidityKit.CommandLine

/-- What an option is for. -/
inductive Role where
  /-- It asks for help. -/
  | help
  /-- It is given or not. -/
  | flag
  /-- It has a text. -/
  | text
  /-- It has one of certain texts. -/
  | choice (allowed : List Points)
  /-- It has a number. -/
  | number
deriving DecidableEq, Repr

/-- Whether an option with this role has a value. -/
def Role.hasValue : Role → Bool
  | help | flag => false
  | text | choice _ | number => true

/-- The number that a text stands for; a text with a surrogate that stands alone is none. -/
def numberOf? (value : Points) : Option Binary64 := (CodePoint.toText? value).bind Binary64.read?

/-- Whether a text can be the value of an option with this role. -/
def Role.admits (value : Points) : Role → Bool
  | choice allowed => allowed.contains value
  | number => (numberOf? value).isSome
  | help | flag | text => true

/-- An option. -/
structure Switch where
  /-- The name, which follows two dashes. -/
  name : String
  /-- What the option is for. -/
  role : Role
  /-- The letter that follows one dash. -/
  letter : Option Char := none
deriving DecidableEq, Repr

namespace Switch

/-- The long spelling. -/
def long (s : Switch) : Points := "--" ++ s.name

/-- The short spelling, if there is one. -/
def short? (s : Switch) : Option Points := s.letter.map fun c => [.char '-', .char c]

/-- All spellings. -/
def spellings (s : Switch) : List Points := s.short?.toList ++ [s.long]

/-- Whether the option has a letter. -/
def hasLetter (s : Switch) (c : CodePoint) : Bool := s.letter.any fun l => .char l = c

/-- The option that every tool has. -/
def help : Switch := { name := "help", role := .help, letter := some 'h' }

end Switch

/-- An argument, taken by itself. -/
inductive Argument where
  /-- Something that can be a value. -/
  | word (s : Points)
  /-- A known option, whether it is spelled with one dash, and what is attached to it. -/
  | option (s : Switch) (isShort : Bool) (attached : Option Points)
  /-- Something that is neither an option nor a value. -/
  | stray

/-- What a command line asks for. -/
inductive Request where
  /-- Help. -/
  | help
  /-- Nothing that makes sense. -/
  | misuse
  /-- Options and their values, in order. -/
  | options (given : List (String × Points))
deriving DecidableEq, Repr

namespace Arguments

/-- Whether the code point is a decimal digit. -/
def isDigit (c : CodePoint) : Bool := c.isChar fun c => (digitValue? c).isSome

/-- Whether a text is a negative number without an exponent; a line feed at its end does not count. -/
def isNegativeNumber (arg : Points) : Bool :=
  match if arg.getLast? = some (.char '\n') then arg.dropLast else arg with
  | .char '-' :: body =>
    let (whole, rest) := body.span isDigit
    match rest with
    | [] => !whole.isEmpty
    | .char '.' :: fraction => !fraction.isEmpty && fraction.all isDigit
    | _ => false
  | _ => false

/-- The option with a spelling. -/
def named? (switches : List Switch) (spelling : Points) : Option Switch :=
  switches.find? fun s => s.spellings.contains spelling

/-- The part before the first equals sign, and the part after it if there is one. -/
def splitValue (arg : Points) : Points × Option Points :=
  match Text.cut? (.char '=') arg with
  | some (name, value) => (name, some value)
  | none => (arg, none)

/-- All options that an argument with an unknown spelling could mean, with what would be attached to them. -/
def candidates (switches : List Switch) (arg : Points) : List Argument :=
  match arg with
  | .char '-' :: .char '-' :: _ =>
    let (start, value) := splitValue arg
    (switches.filter fun s => start.isPrefixOf s.long).map fun s => .option s false value
  | .char '-' :: c :: rest => (switches.filter fun s => s.hasLetter c).map fun s => .option s true (some rest)
  | _ => []

/-- Takes an argument by itself; `none` if it could mean several options. -/
def classify (switches : List Switch) (arg : Points) : Option Argument :=
  match arg with
  | .char '-' :: c :: _ =>
    match named? switches arg with
    | some s => some (.option s (c ≠ .char '-') none)
    | none =>
      let (name, value) := splitValue arg
      match value.isSome, named? switches name with
      | true, some s => some (.option s (c ≠ .char '-') value)
      | _, _ =>
        match candidates switches arg with
        | [a] => some a
        | [] => some (if isNegativeNumber arg || arg.contains (.char ' ') then .word arg else .stray)
        | _ => none
  | _ => some (.word arg)

/-- Takes all arguments by themselves; two dashes alone are no value, and after them there are no options. -/
def classifyAll (switches : List Switch) : List Points → Option (List Argument)
  | [] => some []
  | arg :: rest =>
    if arg = "--" then some (.stray :: rest.map .word)
    else do return (← classify switches arg) :: (← classifyAll switches rest)

/-- The options without a value that are run together after one dash. -/
def runTogether (switches : List Switch) : Points → Option (List Switch)
  | [] => some []
  | c :: rest => do
    let s ← switches.find? fun s => s.hasLetter c
    guard !s.role.hasValue
    return s :: (← runTogether switches rest)

/-- The options without a value that an argument stands for. -/
def flags? (switches : List Switch) (s : Switch) (isShort : Bool) :
    (attached : Option Points) → Option (List Switch)
  | none => some [s]
  | some more => if isShort && !more.isEmpty then (runTogether switches more).map (s :: ·) else none

/-- Adds options without a value, unless they ask for help; `next` takes the arguments after them. -/
def takeFlags (given : List (String × Points)) (next : List (String × Points) → Request) :
    Option (List Switch) → Request
  | none => .misuse
  | some flags =>
    if flags.any fun s => s.role = .help then .help else next (given ++ flags.map fun s => (s.name, []))

/-- Adds an option with a value, if it admits the value; `next` takes the arguments after it. -/
def takeValue (given : List (String × Points)) (next : List (String × Points) → Request) (s : Switch)
    (value : Points) : Request :=
  if s.role.admits value then next (given ++ [(s.name, value)]) else .misuse

/-- Takes options in order; what is no option and no value of one makes no sense, but only at the end. -/
def consume (switches : List Switch) :
    List Argument → (strays : Bool) → (given : List (String × Points)) → Request
  | [], strays, given => if strays then .misuse else .options given
  | .word _ :: rest, _, given | .stray :: rest, _, given => consume switches rest true given
  | .option s isShort none :: .word value :: rest, strays, given =>
    if s.role.hasValue then takeValue given (consume switches rest strays) s value
    else takeFlags given (consume switches (.word value :: rest) strays) (flags? switches s isShort none)
  | .option s isShort attached :: rest, strays, given =>
    match s.role.hasValue, attached with
    | true, some value => takeValue given (consume switches rest strays) s value
    | true, none => .misuse
    | false, _ => takeFlags given (consume switches rest strays) (flags? switches s isShort attached)

/-- What the arguments ask for. -/
def read (switches : List Switch) (args : List Points) : Request :=
  match classifyAll (.help :: switches) args with
  | some parts => consume (.help :: switches) parts false []
  | none => .misuse

end Arguments

/-- The options that were given, in order, with their values. -/
abbrev Given := List (String × Points)

namespace Given

/-- Whether an option was given. -/
def has (name : String) (g : Given) : Bool := g.any (·.1 = name)

/-- All values of an option, in order. -/
def all (name : String) (g : Given) : List Points := (g.filter (·.1 = name)).map (·.2)

/-- The value of an option; the last one counts. -/
def last? (name : String) (g : Given) : Option Points := (all name g).getLast?

/-- The value of an option, unless it is empty. -/
def nonempty? (name : String) (g : Given) : Option Points := (last? name g).filter (· ≠ [])

end Given

end SolidityKit.CommandLine
