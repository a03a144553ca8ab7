/-
What can go wrong while sources are flattened.
-/
import SolidityKit.Files.Tree
import SolidityKit.Text.Utf8

namespace SolidityKit.Flatten

/-- Why a text file cannot be read. -/
inductive ReadFault where
  /-- The file cannot be used. -/
  | file (f : Files.Fault)
  /-- The bytes of the file are no text. -/
  | decoding (f : Utf8.Fault)
deriving DecidableEq, Repr

/-- The words for a fault of reading. -/
def ReadFault.message : ReadFault → String
  | file f => f.message
  | decoding f => f.message

/-- Why a job failed. -/
inductive Fault where
  /-- A source cannot be read. -/
  | unreadable (path : Points) (reason : ReadFault)
  /-- The artifact cannot be written. -/
  | unwritable (path : Points) (reason : Files.Fault)
deriving DecidableEq, Repr

/-- The words for a failed job. -/
def Fault.message : Fault → Points
  | unreadable path reason => "failed to read " ++ path ++ ": " ++ reason.message
  | unwritable path reason => "failed to write " ++ path ++ ": " ++ reason.message

end SolidityKit.Flatten
