/-
Mocks and other contract sources.

The contract sources are gone through twice, once for the sources other than mocks and once for the mocks.
Both listings are one listing with other wishes (`discover_wanting`), so that nothing is lost between them
and nothing is in both: what the marker decides is to which of the two jobs a source goes.  The marker is
looked for in the bare name of a file, so that a directory that is named like a mock, or like a source,
changes nothing.

`jobs_split_mocks` says so of the jobs as a whole, in both directions: planning succeeds exactly if all
locations and both directories can be found, and then the jobs are made of one listing of each directory.
-/
import SolidityKit.Proofs.Flatten.Jobs
import SolidityKit.Proofs.Files.Selecting
import SolidityKit.Proofs.Files.Frames
import Mathlib

namespace SolidityKit.Flatten

open SolidityKit.Action

/-! ### Listing with wishes -/

/-- The marker of mocks is in the last name of the path. -/
def isMock (settings : Settings) (p : Path) : Bool := contains settings.mockMarker p.lastName

/-- Looking for wanted files is looking for all files and leaving out the unwanted ones. -/
theorem discover_wanting {dir : Path} {settings : Settings} {wanted : Files.Name → Bool} {w w' : Workspace}
    {fs : List Path} :
    (discover dir { baseQuery settings with wanted }).runIn w = (.ok fs, w') ↔
      ∃ all, (discover dir (baseQuery settings)).runIn w = (.ok all, w') ∧
        fs = all.filter fun p => wanted p.lastName := by
  have hwanting : w.tree.filesBelow w.cwd
      { suffix := settings.sourceSuffix, wanted, sorted := settings.listingOrder = "sorted" } dir =
        (w.tree.filesBelow w.cwd { suffix := settings.sourceSuffix, sorted := settings.listingOrder = "sorted" }
          dir).map (List.filter fun p => wanted p.lastName) :=
    Node.filesBelow_wanted _ _
      { suffix := settings.sourceSuffix, sorted := settings.listingOrder = "sorted" } _ _
  simp only [discover_eq_ok_iff, baseQuery, List.append_nil]
  rw [hwanting]
  cases w.tree.filesBelow w.cwd
    { suffix := settings.sourceSuffix, sorted := settings.listingOrder = "sorted" } dir with
  | error f => simp [Except.map]
  | ok all => simp [Except.map, and_assoc, eq_comm]

/-- Further sources are listed behind those that were found. -/
theorem discover_extra {dir : Path} {settings : Settings} {extra : List Path} {w w' : Workspace}
    {fs : List Path} :
    (discover dir { baseQuery settings with extra }).runIn w = (.ok fs, w') ↔
      ∃ found, (discover dir (baseQuery settings)).runIn w = (.ok found, w') ∧ fs = found ++ extra := by
  simp only [discover_eq_ok_iff, baseQuery, List.append_nil]
  constructor
  · rintro ⟨hw, horder, husable, found, hfound, rfl⟩
    exact ⟨found, ⟨hw, horder, husable, found, hfound, rfl⟩, rfl⟩
  · rintro ⟨found, ⟨hw, horder, husable, _, hfound, rfl⟩, rfl⟩
    exact ⟨hw, horder, husable, found, hfound, rfl⟩

theorem nodup_discover {dir : Path} {settings : Settings} {w w' : Workspace} {fs : List Path}
    (htidy : w.tree.Tidy) (h : (discover dir (baseQuery settings)).runIn w = (.ok fs, w')) : fs.Nodup := by
  obtain ⟨-, -, -, found, hfound, rfl⟩ := discover_eq_ok_iff.mp h
  rw [show (baseQuery settings).extra = [] from rfl, List.append_nil]
  exact Node.nodup_filesBelow htidy hfound

/-! ### Sharing out the contract sources -/

/-- How contract sources are shared out between the two jobs. -/
structure SharedOut (settings : Settings) (all others mocks : List Path) : Prop where
  /-- No source is there twice. -/
  nodup : all.Nodup
  /-- The job of contract sources has those whose names do not contain the marker, in order. -/
  others_eq : others = all.filter fun p => !isMock settings p
  /-- The job of test sources has those whose names contain it, in order. -/
  mocks_eq : mocks = all.filter (isMock settings)
  /-- Each source goes to one of them and not to the other. -/
  one : ∀ p ∈ all, (p ∈ others ↔ p ∉ mocks)

theorem sharedOut_of_filter {settings : Settings} {all : List Path} (hnodup : all.Nodup) :
    SharedOut settings all (all.filter fun p => !isMock settings p) (all.filter (isMock settings)) where
  nodup := hnodup
  others_eq := rfl
  mocks_eq := rfl
  one p hp := by simp [hp]

/--
**Each contract source goes to one of the two jobs.**

Jobs can be made exactly if the directories and the further sources can be located and both directories can be
listed.  Then the contract sources, listed once and without any wishes, are shared out by the marker of mocks;
the job of test sources has the test sources first, then the further ones as they are given, then the mocks.
-/
theorem jobs_split_mocks {settings : Settings} {base : Option Path} {w w' : Workspace} {js : List Job}
    (htidy : w.tree.Tidy) :
    (jobs settings base).runIn w = (.ok js, w') ↔
      ∃ b contracts tests output extra all found others mocks,
        (base.elim Project.root pure : Action Path).runIn w = (.ok b, w') ∧
        (Project.locatePoints settings.contractsDir b).runIn w' = (.ok contracts, w') ∧
        (Project.locatePoints settings.testsDir b).runIn w' = (.ok tests, w') ∧
        (Project.locatePoints settings.outputDir b).runIn w' = (.ok output, w') ∧
        (settings.testExtraPaths.mapM fun cs => Project.locatePoints cs b).runIn w' = (.ok extra, w') ∧
        (discover contracts (baseQuery settings)).runIn w' = (.ok all, w') ∧
        (discover tests (baseQuery settings)).runIn w' = (.ok found, w') ∧
        SharedOut settings all others mocks ∧
        js = [⟨contractsJob, others, output / settings.contractsArtifact⟩,
          ⟨testsJob, found ++ extra ++ mocks, output / settings.testsArtifact⟩] := by
  rw [jobs_eq]
  constructor
  · intro h
    obtain ⟨b, w₀, hb, hjobs⟩ := runIn_bind_eq_ok h
    obtain ⟨rfl, plan, hplan, rfl⟩ := jobs_eq_ok_iff.mp hjobs
    have htree : w'.tree = w.tree := by
      have hkeeps : Keeps Workspace.bare (base.elim Project.root pure : Action Path) := by
        cases base with
        | none => exact Project.keeps_root
        | some b' => exact Keeps.pure b'
      have hkept := hkeeps w
      rw [hb] at hkept
      exact tree_eq_of_bare hkept
    obtain ⟨all, hall, hothers⟩ := discover_wanting.mp hplan.production
    obtain ⟨all', hall', hmocks⟩ := discover_wanting.mp hplan.mocks
    obtain rfl : all = all' := by
      rw [hall] at hall'
      cases hall'
      rfl
    obtain ⟨found, hfound, htesting⟩ := discover_extra.mp hplan.testing
    have hshared : SharedOut settings all plan.production plan.mocks := by
      rw [hothers, hmocks]
      exact sharedOut_of_filter (nodup_discover (htree ▸ htidy) hall)
    refine ⟨b, plan.contracts, plan.tests, plan.output, plan.extra, all, found, plan.production, plan.mocks, hb,
      hplan.contracts, hplan.tests, hplan.output, hplan.extra, hall, hfound, hshared, ?_⟩
    rw [Plan.jobs, htesting]
  · rintro ⟨b, contracts, tests, output, extra, all, found, others, mocks, hb, hcontracts, htests,
      houtput, hextra, hall, hfound, hshared, rfl⟩
    rw [runIn_bind_ok hb]
    refine jobs_eq_ok_iff.mpr ⟨rfl, ⟨contracts, tests, output, others, extra, found ++ extra, mocks⟩,
      ⟨hcontracts, htests, houtput, ?_, hextra, ?_, ?_⟩, rfl⟩
    · exact discover_wanting.mpr ⟨all, hall, hshared.others_eq⟩
    · exact discover_extra.mpr ⟨found, hfound, rfl⟩
    · exact discover_wanting.mpr ⟨all, hall, hshared.mocks_eq⟩

/-- A project with a directory that is named like a source and like a mock, and mocks beside it and
below another one. -/
def mockedTree : Node :=
  .dir [("contracts", .dir [("Mock.sol", .dir [("A.sol", .file .empty)]), ("MockB.sol", .file .empty),
      ("lib", .dir [("IMock.t.sol", .file .empty), ("Mock.md", .file .empty)]), ("B.sol", .file .empty)]),
    ("test", .dir [("MockT.sol", .file .empty)])]

/-- Settings that leave the order of each directory as it is. -/
def asListed : Settings := { listingOrder := "native" }

/-- A path of that project, by its names. -/
def mockedPath (names : List Files.Name) : Path := ⟨.top, names⟩

/-- Its contract sources. -/
def mockedAll : List Path :=
  [mockedPath ["contracts", "Mock.sol", "A.sol"], mockedPath ["contracts", "MockB.sol"],
    mockedPath ["contracts", "lib", "IMock.t.sol"], mockedPath ["contracts", "B.sol"]]

/-- Its contract sources other than mocks. -/
def mockedOthers : List Path :=
  [mockedPath ["contracts", "Mock.sol", "A.sol"], mockedPath ["contracts", "B.sol"]]

/-- Its mocks. -/
def mockedMocks : List Path :=
  [mockedPath ["contracts", "MockB.sol"], mockedPath ["contracts", "lib", "IMock.t.sol"]]

/-- The source in the directory that is named like a mock is none, and the mock below another
directory is one. -/
theorem jobs_split_mocks_nested :
    mockedTree.Tidy ∧ (jobs asListed (some (mockedPath []))).runIn { tree := mockedTree } =
      (.ok [⟨contractsJob, mockedOthers, mockedPath ["flat"] / "contracts.sol"⟩,
        ⟨testsJob, [mockedPath ["test", "MockT.sol"]] ++ [mockedPath ["script", "LibDeploy.sol"]] ++
          mockedMocks, mockedPath ["flat"] / "tests.sol"⟩], { tree := mockedTree }) := by
  have htidy : mockedTree.Tidy := (Node.sound_of_isSound (by decide)).tidy
  have horder : asListed.listingOrder ∈ Settings.listingOrders := by decide
  have hcontracts : mockedTree.filesBelow [] { sorted := false } (mockedPath ["contracts"]) =
    .ok mockedAll := by
    decide
  have htests : mockedTree.filesBelow [] { sorted := false } (mockedPath ["test"]) =
      .ok [mockedPath ["test", "MockT.sol"]] := by decide
  have hshared : SharedOut asListed mockedAll mockedOthers mockedMocks :=
    ⟨by decide, by decide, by decide, by decide⟩
  refine ⟨htidy, (jobs_split_mocks htidy).mpr ⟨mockedPath [], mockedPath ["contracts"], mockedPath ["test"],
    mockedPath ["flat"], _, _, _, _, _, rfl, by cbv, by cbv, by cbv, by cbv, ?_, ?_, hshared, rfl⟩⟩
  · exact discover_eq_ok_iff.mpr ⟨rfl, horder, by decide, _, hcontracts, rfl⟩
  · exact discover_eq_ok_iff.mpr ⟨rfl, horder, by decide, _, htests, rfl⟩

end SolidityKit.Flatten
