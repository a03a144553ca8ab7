/-
What a tool says about itself.

The usage is one line with every option in brackets; help adds what the tool does and one line for
each option.  The tools themselves are listed here, so that one can be found by its name.
-/
import SolidityKit.CommandLine.FlattenTool
import SolidityKit.CommandLine.TrimTool
import SolidityKit.CommandLine.BackfillTool
import SolidityKit.CommandLine.CoverageTool

namespace SolidityKit.CommandLine

/-- What stands for the value of an option, if it has one. -/
def Switch.placeholder? (s : Switch) : Option Points :=
  match s.role with
  | .help | .flag => none
  | .text => some "TEXT"
  | .choice allowed => some (List.intercalate "|" allowed)
  | .number => some "NUMBER"

/-- All spellings of an option, and what stands for its value. -/
def Switch.synopsis (s : Switch) : Points :=
  let spellings : Points := List.intercalate ", " s.spellings
  s.placeholder?.elim spellings fun value => spellings ++ " " ++ value

namespace Tool

/-- The options of a tool, help first. -/
def allSwitches (t : Tool) : List Switch := Switch.help :: t.switches

/-- One line on how to call a tool. -/
def usage (t : Tool) : Points :=
  List.intercalate " " (t.name :: t.allSwitches.map fun s => "[" ++ s.synopsis ++ "]")

/-- What a tool says when asked for help. -/
def helpLines (t : Tool) : List Points :=
  ("usage: " ++ t.usage) :: "" :: t.purpose :: "" :: t.allSwitches.map fun s => "  " ++ s.synopsis

/-- What a tool says about arguments that make no sense. -/
def misuseLines (t : Tool) : List Points :=
  ["usage: " ++ t.usage, t.name ++ ": error: the arguments make no sense"]

end Tool

/-- All tools, with a reader for settings files. -/
def tools (reader : Settings.Reader) : List Tool :=
  [flattenTool reader, trimTool reader, backfillTool reader, coverageTool]

/-- The tool of a name. -/
def tool? (reader : Settings.Reader) (name : String) : Option Tool :=
  (tools reader).find? fun t => t.name == name

end SolidityKit.CommandLine
