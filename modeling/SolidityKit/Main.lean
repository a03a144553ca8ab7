/-
The program.

The first argument names a tool and the others are for the tool.  The files that the tool may need are
read, the tool runs on them as a value, and the files that it changed are written.  It sees the project
around the current directory, and whatever its arguments and the project's variables name; links that
lead elsewhere lead nowhere.  Arguments, variables and names of files are texts here; a file whose name is
none is neither seen nor written.

A node is not asked over a network: its answers are taken from standard input, one in a line, and once
they are used up a request counts as undelivered.
-/
import SolidityKit.CommandLine.Help
import SolidityKit.Files.Changes
import SolidityKit.Yaml.Document

namespace SolidityKit.Program

/-- The variables that the tools look at. -/
def variableNames : List String :=
  ["HOME", "FLAT_REPO_ROOT", "FLAT_OUTPUT_DIR", "FLAT_LISTING_ORDER", "FLAT_FORGE_OUT", "RPC", "NETWORK_ID"]

/-- The spelling of a place, if its names are texts. -/
def spelling? (place : Files.Place) : Option String :=
  (place.mapM CodePoint.toText?).map fun names => "/" ++ "/".intercalate (names.map String.ofList)

/-- The variables that are set. -/
def readVariables : IO (List (String × String)) :=
  variableNames.filterMapM fun name => do
    return (← IO.getEnv name).map fun value => (name, value)

/-- The current directory, as a spelling. -/
def currentDirectory : IO String := do return (← IO.currentDir).toString

/-- What is there at a path; whatever is neither a file, a directory nor a link is left out. -/
partial def readNode (path : String) : IO (Option Node) := do
  let here := (← IO.currentDir) / path
  match (← here.symlinkMetadata).type with
  | .file => return some (.file (← IO.FS.readBinFile here))
  | .symlink => return (← (IO.FS.realPath here).toBaseIO).toOption.map fun target => .link target.toString
  | .dir =>
    let entries ← (← here.readDir).toList.filterMapM fun entry => do
      return (← readNode entry.path.toString).map fun n => ((entry.fileName : Points), n)
    return some (.dir entries)
  | .other => return none

/-- The first of some directories that holds a project marker. -/
def firstMarked? : List Path → IO (Option Path)
  | [] => return none
  | dir :: more => do
    let here := (← IO.currentDir) / dir.spelling.shown
    if ← Project.markers.anyM fun (marker : String) => (here / marker).pathExists then return some dir
    firstMarked? more

/-- The tree with what is there at a path, if anything is. -/
def withPath (tree : Node) (path : String) : IO Node := do
  let here := (← IO.currentDir) / path
  unless ← here.pathExists do return tree
  let real := (← IO.FS.realPath here).toString
  return (← readNode real).elim tree fun n => tree.plant (Path.ofString real).names n

/-- The part of an argument that may name a path. -/
def namedPath (argument : String) : String :=
  let after := argument.toList.dropWhile (· ≠ '=')
  if argument.startsWith "-" && !after.isEmpty then String.ofList (after.drop 1) else argument

/-- The files that a tool may need. -/
def readTree (cwd : String) (arguments : List String) (environment : List (String × String)) : IO Node := do
  let start := Path.ofString cwd
  let project := ((← firstMarked? (start :: start.parents)).getD start).spelling.shown
  let named := arguments.map namedPath ++ (environment.filter fun kv => kv.1.startsWith "FLAT_").map Prod.snd
  (project :: named.filter (· ≠ "")).foldlM withPath (.dir [])

/-- The lines of standard input. -/
partial def readLines (stdin : IO.FS.Stream) : IO (List String) := do
  let line ← stdin.getLine
  if line.isEmpty then return []
  return line :: (← readLines stdin)

/-- What a node answers: a body in each line of standard input, unless that is a terminal. -/
def readReplies : IO (List Rpc.Reply) := do
  let stdin ← IO.getStdin
  if ← stdin.isTty then return []
  return (← readLines stdin).map fun line => .response 200 line.toList

/-- What a tool finds. -/
def readWorkspace (t : CommandLine.Tool) (arguments : List String) : IO Workspace := do
  let cwd ← currentDirectory
  let environment ← readVariables
  let tree ← readTree cwd arguments environment
  let replies ← if t.asksNode then readReplies else pure []
  let environment := environment.map fun kv => (kv.1, (kv.2 : Points))
  return { tree, cwd := (Path.ofString cwd).names, environment, network := { replies } }

/-- Writes the files that changed. -/
def writeChanges (before after : Node) : IO Unit :=
  (Node.changedFiles [] before after).forM fun (place, content) => do
    if let (some directory, some path) := (spelling? place.dropLast, spelling? place) then
      IO.FS.createDirAll directory
      IO.FS.writeBinFile path content

/-- Prints how a tool ended, and gives its code. -/
def report (t : CommandLine.Tool) (told : List Line) : Except Failure CommandLine.Ending → IO UInt32
  | .ok ending => do
    match ending with
    | .done _ least =>
      (CommandLine.resultLines told).forM fun line => IO.println line.shown
      (CommandLine.noticeLines least told).forM fun line => IO.eprintln line.shown
    | .helped => t.helpLines.forM fun line => IO.println line.shown
    | .misused => t.misuseLines.forM fun line => IO.eprintln line.shown
    return UInt32.ofNat ending.code
  | .error failure => do
    (CommandLine.noticeLines .info told).forM fun line => IO.eprintln line.shown
    IO.eprintln failure.message.shown
    return 1

/-- Runs a tool in the current directory. -/
def runTool (t : CommandLine.Tool) (arguments : List String) : IO UInt32 := do
  let before ← readWorkspace t arguments
  let (outcome, after) := (t.run (arguments.map Points.ofString)).run before
  writeChanges before.tree after.tree
  report t after.told.reverse outcome

end SolidityKit.Program

/-- Runs the tool that the first argument names. -/
def main (arguments : List String) : IO UInt32 := do
  match arguments with
  | name :: rest =>
    if let some t := SolidityKit.CommandLine.tool? SolidityKit.Yaml.read name
      then return ← SolidityKit.Program.runTool t rest
  | [] => pure ()
  (SolidityKit.CommandLine.tools SolidityKit.Yaml.read).forM fun t => IO.eprintln ("usage: " ++ t.usage.shown)
  return 2
