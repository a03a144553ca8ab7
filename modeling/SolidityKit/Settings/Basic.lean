/-
The settings of a project.

Settings say where sources live, how they are told apart and where artifacts go.  They are made from
a document with the sections `sources`, `output` and `broadcast` and the list `metadata_targets`;
what a document leaves out has a default.  `Settings.ofEntries` accepts a document or says why not.
-/
import SolidityKit.Value.Display
import SolidityKit.Value.Overlay
import SolidityKit.Files.Path

namespace SolidityKit

/-- Where the sources of a project live, and where its artifacts go. -/
structure Settings where
  /-- The directory of contract sources. -/
  contractsDir : Points := "contracts"
  /-- The directory of test sources. -/
  testsDir : Points := "test"
  /-- Further sources that tests need, from anywhere in the project. -/
  testExtraPaths : List Points := ["script/LibDeploy.sol"]
  /-- How the file name of a source ends. -/
  sourceSuffix : Points := ".sol"
  /-- What the file name of a mock contains. -/
  mockMarker : Points := "Mock"
  /-- The directory of artifacts. -/
  outputDir : Points := "flat"
  /-- The artifact of the contract sources. -/
  contractsArtifact : Points := "contracts.sol"
  /-- The artifact of the test sources. -/
  testsArtifact : Points := "tests.sol"
  /-- The order in which a directory is read: `sorted` or `native`. -/
  listingOrder : Points := "sorted"
  /-- The contracts whose build metadata is trimmed. -/
  metadataTargets : List Points := []
  /-- The script whose broadcast record is completed. -/
  broadcastScript : Points := "CryptoLegacyFactory.s.sol"
deriving DecidableEq, Repr

namespace Settings

/-- The names of the known listing orders. -/
def listingOrders : List Points := ["sorted", "native"]

/-- Why a document was refused. -/
inductive Fault where
  /-- A section is no map. -/
  | sectionNotMap
  /-- A field that should be a text is of another kind. -/
  | notText (field kind : String)
  /-- The further test sources are no list. -/
  | extraPathsNotList
  /-- The metadata targets are no list. -/
  | targetsNotList
  /-- The suffix of sources is empty. -/
  | emptySuffix
  /-- The marker of mocks is empty. -/
  | emptyMarker
  /-- The listing order is not a known one. -/
  | unknownOrder (order : Points)
  /-- The two artifacts have one name. -/
  | sameArtifacts
  /-- A settings file holds something other than a map. -/
  | documentNotMap (path : Points) (kind : String)
  /-- A whole number is too long to be written out. -/
  | longNumeral
deriving DecidableEq, Repr

/-- The words for a refusal. -/
def Fault.message : Fault → Points
  | sectionNotMap => "`sources`, `output` and `broadcast` must be mappings"
  | notText field kind => s!"{field}: expected a string, got {kind}"
  | extraPathsNotList => "sources.test_extra_paths: expected a list of paths"
  | targetsNotList => "metadata_targets: expected a list of contract names"
  | emptySuffix => "sources.suffix must not be empty"
  | emptyMarker => "sources.mock_marker must not be empty"
  | unknownOrder order =>
    "sources.listing_order must be one of " ++ List.intercalate ", " listingOrders
      ++ s!" (got {order.inQuotes})"
  | sameArtifacts => "output.contracts and output.tests must differ"
  | documentNotMap path kind => path ++ s!": top-level YAML must be a mapping, got {kind}"
  | longNumeral =>
    s!"Exceeds the limit ({numeralLimit} digits) for integer string conversion; "
      ++ "use sys.set_int_max_str_digits() to increase the limit"

/-- Whether the document is at fault, rather than a number in it that cannot be written out. -/
def Fault.isRefusal : Fault → Bool
  | longNumeral => false
  | _ => true

/-- A value as a text. -/
def asText (v : Value) : Except Fault Points :=
  if v.isWritable then .ok v.display else .error .longNumeral

/-- The text at a key of a section; an absent or null value means the default. -/
def textField (es : Entries) (name : String) (dflt : Points) : Except Fault Points :=
  match es.field? name with
  | none | some (.scalar .null) => .ok dflt
  | some (.scalar (.date _)) => .error (.notText name "date")
  | some (.scalar (.moment ..)) => .error (.notText name "datetime")
  | some (.scalar (.other v)) => .error (.notText name v.kind)
  | some (.scalar s) => asText (.scalar s)
  | some v => .error (.notText name v.kindName)

/-- A section of the document; a value that counts as false is an empty section. -/
def section? (es : Entries) (name : String) : Except Fault Entries :=
  match es.field? name with
  | some v => if v.isTruthy then v.entries?.elim (.error .sectionNotMap) .ok else .ok []
  | none => .ok []

/-- The further test sources of a section, as values. -/
def extraPathValues (sources : Entries) : Except Fault (List Value) :=
  match sources.field? "test_extra_paths" with
  | none => .ok (({} : Settings).testExtraPaths.map .ofPoints)
  | some (.scalar .null) => .ok []
  | some (.list vs) => .ok vs
  | some (.scalar (.text s)) => .ok [.text s]
  | some (.scalar (.torn cs)) => .ok [.scalar (.torn cs)]
  | some _ => .error .extraPathsNotList

/-- The names of metadata targets, trimmed, without blank ones. -/
def targetNames (vs : List Value) : Except Fault (List Points) := do
  let names ← vs.mapM asText
  return (names.map Text.trim).filter (· ≠ [])

/-- The metadata targets of a document; a single text is a list of one. -/
def metadataTargetsOf (es : Entries) : Except Fault (List Points) :=
  match es.field? "metadata_targets" with
  | none | some (.scalar .null) => .ok []
  | some (.list vs) => targetNames vs
  | some (.scalar (.text s)) => targetNames [.text s]
  | some (.scalar (.torn cs)) => targetNames [.scalar (.torn cs)]
  | some _ => .error .targetsNotList

/-- Checks what settings must satisfy as a whole. -/
def validate (s : Settings) : Except Fault Settings :=
  if s.sourceSuffix = [] then .error .emptySuffix
  else if s.mockMarker = [] then .error .emptyMarker
  else if s.listingOrder ∉ listingOrders then .error (.unknownOrder s.listingOrder)
  else if s.contractsArtifact = s.testsArtifact then .error .sameArtifacts
  else .ok s

/-- The settings that a document describes. -/
def ofEntries (es : Entries) : Except Fault Settings := do
  let dflt : Settings := {}
  let sources ← section? es "sources"
  let output ← section? es "output"
  let broadcast ← section? es "broadcast"
  let extra ← extraPathValues sources
  let contractsDir ← textField sources "contracts_dir" dflt.contractsDir
  let testsDir ← textField sources "tests_dir" dflt.testsDir
  let testExtraPaths ← extra.mapM asText
  let sourceSuffix ← textField sources "suffix" dflt.sourceSuffix
  let mockMarker ← textField sources "mock_marker" dflt.mockMarker
  let order ← textField sources "listing_order" dflt.listingOrder
  let outputDir ← textField output "dir" dflt.outputDir
  let contractsArtifact ← textField output "contracts" dflt.contractsArtifact
  let testsArtifact ← textField output "tests" dflt.testsArtifact
  let metadataTargets ← metadataTargetsOf es
  let broadcastScript ← textField broadcast "script" dflt.broadcastScript
  let listingOrder := Points.lower (Text.trim order)
  validate
    { contractsDir, testsDir, testExtraPaths, sourceSuffix, mockMarker, outputDir, contractsArtifact,
      testsArtifact, listingOrder, metadataTargets, broadcastScript }

/-- Where the artifact of the contract sources goes. -/
def contractsOutput (s : Settings) : Path := Path.ofPoints s.outputDir / s.contractsArtifact

/-- Where the artifact of the test sources goes. -/
def testsOutput (s : Settings) : Path := Path.ofPoints s.outputDir / s.testsArtifact

/-- Lays a text from the environment over one field of one section, unless it is blank. -/
def overrideField (es : Entries) (part name : String) (value : Option Points) : Entries :=
  match Text.trim (value.getD []) with
  | [] => es
  | cs => es.overlay [(.text part, .map [(.text name, .ofPoints cs)])]

end Settings

end SolidityKit
