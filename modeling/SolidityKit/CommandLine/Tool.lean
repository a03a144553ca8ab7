/-
Command-line tools.

A tool gets ready, reads its arguments and does its work.  It ends with a code: 0 if all went well, 1
if part of the work failed, 2 if it could not start.  What it tells goes to two streams, results to the
first, notices and complaints to the second.  The second one takes any text and escapes surrogates that
stand alone; the first one does not, so that telling a result may fail.
-/
import SolidityKit.CommandLine.Arguments
import SolidityKit.Workspace.VariableFile
import SolidityKit.Settings.File

namespace SolidityKit.CommandLine

/-- A command-line tool. -/
structure Tool where
  /-- The name, which is put in front of complaints. -/
  name : String
  /-- What the tool does, for its help. -/
  purpose : String
  /-- The options besides help. -/
  switches : List Switch
  /-- Whether the tool takes variables from the project's variable file. -/
  loadsVariables : Bool := false
  /-- Whether the tool asks a node. -/
  asksNode : Bool := false
  /-- The work, with the options that were given and the project root; it gives the code that the
  tool ends with. -/
  work : Given → Path → Action Nat

/-- How a tool ended. -/
inductive Ending where
  /-- It did its work and ended with a code; notices below a level are not wanted. -/
  | done (code : Nat) (least : Level)
  /-- It was asked for help. -/
  | helped
  /-- It could not make sense of its arguments. -/
  | misused
deriving DecidableEq, Repr

/-- The code that a tool ends with. -/
def Ending.code : Ending → Nat
  | done code _ => code
  | helped => 0
  | misused => 2

/-- The option for more notices. -/
def verbose : Switch := { name := "verbose", role := .flag, letter := some 'v' }

/-- The least level of the notices that are wanted. -/
def leastLevel (g : Given) : Level := if Given.has verbose.name g then .debug else .info

/-- How much a level matters, as a number. -/
def levelRank : Level → Nat
  | .debug => 0
  | .info => 1
  | .warning => 2
  | .error => 3

/-- What goes to the first stream, line by line. -/
def resultLines (told : List Line) : List Points :=
  told.filterMap fun
    | .result words => some words
    | _ => none

/-- What goes to the second stream, line by line, without notices below a level. -/
def noticeLines (least : Level) (told : List Line) : List Points :=
  told.filterMap fun
    | .notice level words =>
        if levelRank least ≤ levelRank level then some (level.name ++ " " ++ words) else none
    | .complaint words => some words
    | .result _ => none

namespace Tool

/-- Complains in the name of the tool. -/
def complain (name : String) (words : Points) : Action Unit := Action.tell (.complaint (s!"[{name}] " ++ words))

/-- A path that was given, without links and home directories. -/
def givenPath? (option : String) (g : Given) : Action (Option Path) := do
  match Given.nonempty? option g with
  | none => return none
  | some given => return some (← Action.resolve (← Action.expandHome (Path.ofPoints given)))

/-- The settings, or a complaint if they are refused. -/
def settings? (reader : Settings.Reader) (name : String) (path : Option Points) : Action (Option Settings) :=
  tryCatchThe Failure (some <$> Settings.load reader path) fun
    | .settings f =>
      if f.isRefusal then do
        complain name ("config error: " ++ f.message)
        return none
      else throw (.settings f)
    | f => throw f

/-- Runs a tool with arguments. -/
def run (t : Tool) (args : List Points) : Action Ending := do
  let root ← VariableFile.prepare t.loadsVariables
  match Arguments.read t.switches args with
  | .help => return .helped
  | .misuse => return .misused
  | .options given => return .done (← t.work given root) (leastLevel given)

end Tool

end SolidityKit.CommandLine
