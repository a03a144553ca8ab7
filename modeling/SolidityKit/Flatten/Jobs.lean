/-
Flattening jobs.

Two jobs are made from the settings of a project: one merges the contract sources other than mocks,
the other merges the test sources, the sources that tests need besides, and the mocks.  A job reads
all its sources before it writes anything, and a job that fails leaves the other one alone.
-/
import SolidityKit.Flatten.Discovery
import SolidityKit.Source.Merge

namespace SolidityKit.Flatten

open SolidityKit.Action

/-- A list of sources and the artifact that they are merged into. -/
structure Job where
  /-- The name of the job. -/
  name : Points
  /-- The sources, in order. -/
  files : List Path
  /-- The artifact. -/
  output : Path
deriving DecidableEq, Repr

/-- A merged artifact. -/
structure Artifact where
  /-- Where it goes. -/
  output : Path
  /-- Its text. -/
  text : Text
  /-- How many sources went into it. -/
  fileCount : Nat
deriving DecidableEq, Repr

/-- How many bytes the artifact takes. -/
def Artifact.byteSize (a : Artifact) : Nat := (String.ofList a.text).utf8ByteSize

/-- The name of the job that merges contract sources. -/
def contractsJob : Points := "contracts"

/-- The name of the job that merges test sources. -/
def testsJob : Points := "tests"

/-- The names of all jobs. -/
def jobNames : List Points := [contractsJob, testsJob]

/-- What came of a run: the artifacts of the jobs that succeeded, and why the others failed. -/
structure Report where
  /-- The artifacts by the names of their jobs. -/
  artifacts : List (Points × Artifact) := []
  /-- The reasons by the names of their jobs. -/
  failures : List (Points × Points) := []
deriving Repr

/-- Whether no job failed. -/
def Report.ok (r : Report) : Bool := r.failures.isEmpty

/-- The text of a source. -/
def readSource (p : Path) : Action Text :=
  tryCatchThe Failure (readText p) fun
    | .file f => throw (.job (.unreadable p.spelling (.file f)))
    | .decoding f => throw (.job (.unreadable p.spelling (.decoding f)))
    | f => throw f

/-- Merges texts into an artifact. -/
def mergeInto (output : Path) (sources : List Text) (s : MergeState) : Artifact × MergeState :=
  let (text, s) := Source.merge sources s
  ({ output, text, fileCount := sources.length }, s)

/-- Writes an artifact, in a directory that is made if it is not there. -/
def write (a : Artifact) : Action Unit :=
  tryCatchThe Failure (do makeDirs a.output.parent; writeText a.output a.text) fun
    | .file f => throw (.job (.unwritable a.output.spelling f))
    | f => throw f

/-- Tells what a job has done. -/
def tellMerged (name : Points) (a : Artifact) (s : MergeState) : Action Unit := do
  notice .info (s!"Merged {a.fileCount} contracts into " ++ a.output.spelling ++ s!" ({a.byteSize} bytes)")
  let directive := (s.directive.directive.map String.ofList).getD "(none)"
  notice .debug (name ++ s!": version directive: {directive}")
  unless s.removed.named.isEmpty do
    let counts := ", ".intercalate (s.removed.named.map fun r => s!"{r.1}={r.2}")
    notice .debug (name ++ s!": removed {counts}")
  unless s.imports.dropped = 0 do
    notice .debug (name ++ s!": dropped {s.imports.dropped} duplicate external imports")

/-- Runs a job. -/
def Job.run (j : Job) : Action Artifact := do
  let sources ← j.files.mapM readSource
  let (artifact, s) := mergeInto j.output sources {}
  write artifact
  tellMerged j.name artifact s
  return artifact

/-- The jobs that settings describe, below a base or below the project root. -/
def jobs (settings : Settings) (base : Option Path) : Action (List Job) := do
  let base ← base.elim Project.root pure
  let contracts ← Project.locatePoints settings.contractsDir base
  let tests ← Project.locatePoints settings.testsDir base
  let output ← Project.locatePoints settings.outputDir base
  let query : Query := { suffix := settings.sourceSuffix, order := settings.listingOrder }
  let production ← discover contracts { query with wanted := fun n => !contains settings.mockMarker n }
  let extra ← settings.testExtraPaths.mapM fun p => Project.locatePoints p base
  let testing ← discover tests { query with extra }
  let mocks ← discover contracts { query with wanted := contains settings.mockMarker }
  return [⟨contractsJob, production, output / settings.contractsArtifact⟩,
    ⟨testsJob, testing ++ mocks, output / settings.testsArtifact⟩]

/-- Runs one job and adds what came of it to a report. -/
def addTo (r : Report) (j : Job) : Action Report :=
  tryCatchThe Failure
    (do
      let artifact ← j.run
      return { r with artifacts := r.artifacts ++ [(j.name, artifact)] })
    fun
      | .job f => do
        notice .error (j.name ++ ": flatten failed: " ++ f.message)
        return { r with failures := r.failures ++ [(j.name, f.message)] }
      | f => throw f

/-- Names in order, each once. -/
def sortedNames (names : List Points) : List Points :=
  names.eraseDups.mergeSort fun a b => decide (a ≤ b)

/-- Runs the jobs that are asked for, or all if none is. -/
def run (settings : Settings) (base : Option Path) (only : List Points) : Action Report := do
  let wanted := if only.isEmpty then jobNames else only
  let unknown := wanted.filter fun n => n ∉ jobNames
  unless unknown.isEmpty do throw (.unknownJobs (sortedNames unknown))
  let all ← jobs settings base
  (all.filter fun j => j.name ∈ wanted).foldlM addTo {}

end SolidityKit.Flatten
