/-
Settings files.

The settings of a project are in one file, over which the file of one developer is laid if it is
there.  A file that is asked for by its path stands alone.  Variables of the environment have the last
word.

How a document is read from the text of a file is not decided here: everything takes a reader.
-/
import SolidityKit.Workspace.Project

namespace SolidityKit.Settings

/-- A reader of configuration documents; a text without a document has no value. -/
abbrev Reader := Text → Except Yaml.Fault (Option Value)

/-- The text of a settings file; a character that the end of the file cuts short is placed where it starts. -/
def readDocument (p : Path) : Action Text :=
  tryCatch (Action.readText p) fun
    | .decoding (.cutShort _ byte length) => throw (.decoding (.cutShort 0 byte length))
    | f => throw f

/-- The entries of a settings file; a file that is missing or says nothing has none. -/
def readEntries (reader : Reader) (p : Path) : Action Entries := do
  if !(← Action.pathExists p) then return []
  let t ← readDocument p
  match ← Action.ofExcept .yaml (reader t) with
  | none | some (.scalar .null) => return []
  | some (.map es) => return es
  | some v => throw (.settings (.documentNotMap p.spelling v.kindName))

/-- The entries of the project's settings file, with those of the developer's file laid over them. -/
def projectEntries (reader : Reader) : Action Entries := do
  let base ← readEntries reader (← Project.settingsFile)
  let own ← Project.localSettingsFile
  if ← Action.pathExists own then return Entries.overlay base (← readEntries reader own) else return base

/-- The settings in a file, or else those of the project. -/
def load (reader : Reader) (path : Option Points) : Action Settings := do
  let es ←
    match path with
    | some path => readEntries reader (← Project.locatePoints path none)
    | none => projectEntries reader
  let es := overrideField es "output" "dir" (← Action.valueOf? "FLAT_OUTPUT_DIR")
  let es := overrideField es "sources" "listing_order" (← Action.valueOf? "FLAT_LISTING_ORDER")
  Action.ofExcept .settings (ofEntries es)

end SolidityKit.Settings
