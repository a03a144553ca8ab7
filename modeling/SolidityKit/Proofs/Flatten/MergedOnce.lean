/-
How often a source is merged.

The jobs put two listings and the further sources one behind the other, and nothing is looked for in what is
there already.  So a path is merged once for each listing that has it and once more for each time it is named
as a further source (`Gathered.count`), and the jobs have each path once exactly if the listings and the
further sources are apart (`eachOnce_iff_apart`).

Whether the listings are apart is mostly seen from the spelling of the two directories: all that is listed
of a directory is spelled below it, so that two directories neither of which is above the other have
nothing in common.  The further sources are taken as they are given, and settings that name a contract
source there are accepted.
-/
import SolidityKit.Proofs.Flatten.MockPartition

namespace SolidityKit.Flatten

open SolidityKit.Action

/-- The name of the job that merges a contract source. -/
def jobOf (settings : Settings) (p : Path) : Points := if isMock settings p then testsJob else contractsJob

/-- No path is among the sources twice, neither of one job nor of two. -/
def EachOnce (js : List Job) : Prop :=
  (∀ j ∈ js, j.files.Nodup) ∧ js.Pairwise fun j k => j.files.Disjoint k.files

/-- Two listings and the further sources have nothing in common. -/
structure Apart (all found extra : List Path) : Prop where
  /-- No path is in both listings. -/
  listings : found.Disjoint all
  /-- No further source is named twice. -/
  once : extra.Nodup
  /-- No further source is listed. -/
  fresh : ∀ p ∈ extra, p ∉ found ∧ p ∉ all

/-- What the jobs are put together from: the contract sources, the test sources and the further ones. -/
structure Gathered (settings : Settings) (contracts tests : Path) (all found extra : List Path)
    (js : List Job) :
    Prop where
  /-- There are both jobs. -/
  names : js.map Job.name = jobNames
  /-- A path is merged once for each listing that has it, and once for each time it is a further source. -/
  count : ∀ p, (js.flatMap Job.files).count p = all.count p + found.count p + extra.count p
  /-- The listing of contract sources has no path twice. -/
  nodupAll : all.Nodup
  /-- Nor has the listing of test sources. -/
  nodupFound : found.Nodup
  /-- Contract sources are spelled below their directory. -/
  aboveAll : ∀ p ∈ all, contracts.Above p
  /-- So are test sources. -/
  aboveFound : ∀ p ∈ found, tests.Above p
  /-- A contract source is merged by the job that its name decides on. -/
  home : ∀ p ∈ all, ∃ j ∈ js, j.name = jobOf settings p ∧ p ∈ j.files

/-! ### Counting -/

theorem eachOnce_iff_nodup (js : List Job) : EachOnce js ↔ (js.flatMap Job.files).Nodup := by
  rw [List.nodup_flatMap]
  rfl

theorem eachOnce_iff_count (js : List Job) : EachOnce js ↔ ∀ p, (js.flatMap Job.files).count p ≤ 1 := by
  rw [eachOnce_iff_nodup, List.nodup_iff_count_le_one]

namespace Gathered

variable {settings : Settings} {contracts tests : Path} {all found extra : List Path} {js : List Job}

/-- The jobs have each path once exactly if nothing that they are put together from is there twice. -/
theorem eachOnce_iff_apart (h : Gathered settings contracts tests all found extra js) :
    EachOnce js ↔ Apart all found extra := by
  have hall (p : Path) : all.count p ≤ 1 := List.nodup_iff_count_le_one.mp h.nodupAll p
  have hfound (p : Path) : found.count p ≤ 1 := List.nodup_iff_count_le_one.mp h.nodupFound p
  rw [eachOnce_iff_count]
  constructor
  · intro hone
    have hsum (p : Path) : all.count p + found.count p + extra.count p ≤ 1 := h.count p ▸ hone p
    refine ⟨fun p hpfound hpall => ?_, List.nodup_iff_count_le_one.mpr fun p => ?_, fun p hp => ⟨?_, ?_⟩⟩
    · have := List.count_pos_iff.mpr hpfound
      have := List.count_pos_iff.mpr hpall
      have := hsum p
      omega
    · have := hsum p
      omega
    · intro hpfound
      have := List.count_pos_iff.mpr hp
      have := List.count_pos_iff.mpr hpfound
      have := hsum p
      omega
    · intro hpall
      have := List.count_pos_iff.mpr hp
      have := List.count_pos_iff.mpr hpall
      have := hsum p
      omega
  · intro hapart p
    have hextra : extra.count p ≤ 1 := List.nodup_iff_count_le_one.mp hapart.once p
    rw [h.count p]
    -- where the path is decides which of the three counts are zero
    by_cases hp : p ∈ extra
    · obtain ⟨hpfound, hpall⟩ := hapart.fresh p hp
      rw [List.count_eq_zero.mpr hpfound, List.count_eq_zero.mpr hpall]
      omega
    · rw [List.count_eq_zero.mpr hp]
      by_cases hpfound : p ∈ found
      · rw [List.count_eq_zero.mpr (hapart.listings hpfound)]
        have := hfound p
        omega
      · rw [List.count_eq_zero.mpr hpfound]
        have := hall p
        omega

/-- Directories neither of which is above the other have no listed path in common. -/
theorem disjoint_of_not_above (h : Gathered settings contracts tests all found extra js)
    (hbelow : ¬ contracts.Above tests) (habove : ¬ tests.Above contracts) : found.Disjoint all := by
  intro p hpfound hpall
  obtain hct | htc := (h.aboveAll p hpall).or_above (h.aboveFound p hpfound)
  · exact hbelow hct
  · exact habove htc

/-- If each path is there once, a contract source is in no job but its own. -/
theorem name_of_mem (h : Gathered settings contracts tests all found extra js) (honce : EachOnce js) {p : Path}
    (hp : p ∈ all) {j : Job} (hj : j ∈ js) (hpj : p ∈ j.files) : j.name = jobOf settings p := by
  obtain ⟨k, hk, hname, hpk⟩ := h.home p hp
  obtain rfl | hne := eq_or_ne j k
  · exact hname
  · have hsymm : Std.Symm fun j k : Job => j.files.Disjoint k.files := ⟨fun _ _ => List.Disjoint.symm⟩
    exact absurd hpk (honce.2.forall hj hk hne hpj)

end Gathered

/-! ### What the jobs are put together from -/

/-- What an action gives in a workspace is one value. -/
theorem runIn_ok_unique {α : Type} {act : Action α} {w w' : Workspace} {a a' : α}
    (h : act.runIn w = (.ok a, w')) (h' : act.runIn w = (.ok a', w')) : a = a' := by
  rw [h] at h'
  cases h'
  rfl

theorem above_discover {dir : Path} {settings : Settings} {w w' : Workspace} {fs : List Path}
    (h : (discover dir (baseQuery settings)).runIn w = (.ok fs, w')) : ∀ p ∈ fs, dir.Above p := by
  obtain ⟨-, -, -, found, hfound, rfl⟩ := discover_eq_ok_iff.mp h
  intro p hp
  rw [show (baseQuery settings).extra = [] from rfl, List.append_nil] at hp
  exact Node.filesBelow_above hfound hp

theorem Plans.gathered {settings : Settings} {b : Path} {w : Workspace} {plan : Plan} (htidy : w.tree.Tidy)
    (h : Plans settings b w plan) :
    ∃ all found, (discover plan.contracts (baseQuery settings)).runIn w = (.ok all, w) ∧
      (discover plan.tests (baseQuery settings)).runIn w = (.ok found, w) ∧
      Gathered settings plan.contracts plan.tests all found plan.extra (plan.jobs settings) := by
  obtain ⟨all, hall, hothers⟩ := discover_wanting.mp h.production
  obtain ⟨all', hall', hmocks⟩ := discover_wanting.mp h.mocks
  obtain rfl := runIn_ok_unique hall hall'
  obtain ⟨found, hfound, htesting⟩ := discover_extra.mp h.testing
  refine ⟨all, found, hall, hfound, rfl, fun p => ?_, nodup_discover htidy hall, nodup_discover htidy hfound,
    above_discover hall, above_discover hfound, fun p hp => ?_⟩
  · have hshared : plan.production.count p + plan.mocks.count p = all.count p := by
      rw [hothers, hmocks, Nat.add_comm, ← List.count_append]
      exact (List.filter_append_perm _ all).count_eq p
    simp only [Plan.jobs, List.flatMap_cons, List.flatMap_nil, List.append_nil, htesting, List.count_append]
    omega
  · by_cases hmock : isMock settings p = true
    · refine ⟨⟨testsJob, _, _⟩, List.mem_cons_of_mem _ List.mem_cons_self, by rw [jobOf, if_pos hmock], ?_⟩
      apply List.mem_append_right
      rw [hmocks]
      exact List.mem_filter.mpr ⟨hp, hmock⟩
    · refine ⟨⟨contractsJob, _, _⟩, List.mem_cons_self, by rw [jobOf, if_neg hmock], ?_⟩
      rw [hothers]
      exact List.mem_filter.mpr ⟨hp, by simpa [isMock] using hmock⟩

/-- Finding where to start changes no file. -/
theorem tree_of_base {base : Option Path} {w w' : Workspace} {b : Path}
    (h : (base.elim Project.root pure : Action Path).runIn w = (.ok b, w')) : w'.tree = w.tree := by
  have hkeeps : Keeps Workspace.bare (base.elim Project.root pure : Action Path) := by
    cases base with
    | none => exact Project.keeps_root
    | some given => exact Keeps.pure given
  exact tree_eq_of_bare (hkeeps.of_runIn h)

/--
**How often the jobs have a path.**

The jobs are put together from one listing of each directory and from the further sources.  They have each path
once exactly if these are apart, and then a contract source is in no job but the one that its name decides on.
The listings are apart whenever neither directory is spelled above the other.
-/
theorem jobs_merge_once_iff {settings : Settings} {base : Option Path} {w w' : Workspace} {js : List Job}
    (htidy : w.tree.Tidy) (hjobs : (jobs settings base).runIn w = (.ok js, w')) :
    ∃ b contracts tests extra all found,
      (base.elim Project.root pure : Action Path).runIn w = (.ok b, w') ∧
      (Project.locatePoints settings.contractsDir b).runIn w' = (.ok contracts, w') ∧
      (Project.locatePoints settings.testsDir b).runIn w' = (.ok tests, w') ∧
      (settings.testExtraPaths.mapM fun cs => Project.locatePoints cs b).runIn w' = (.ok extra, w') ∧
      (discover contracts (baseQuery settings)).runIn w' = (.ok all, w') ∧
      (discover tests (baseQuery settings)).runIn w' = (.ok found, w') ∧
      Gathered settings contracts tests all found extra js ∧
      (EachOnce js ↔ Apart all found extra) ∧
      (EachOnce js → ∀ p ∈ all, ∀ j ∈ js, p ∈ j.files → j.name = jobOf settings p) ∧
      (¬ contracts.Above tests → ¬ tests.Above contracts → found.Disjoint all) := by
  rw [jobs_eq] at hjobs
  obtain ⟨b, w₀, hb, hjobs⟩ := runIn_bind_eq_ok hjobs
  obtain ⟨rfl, plan, hplan, rfl⟩ := jobs_eq_ok_iff.mp hjobs
  obtain ⟨all, found, hall, hfound, hgathered⟩ := hplan.gathered ((tree_of_base hb).symm ▸ htidy)
  exact ⟨b, plan.contracts, plan.tests, plan.extra, all, found, hb, hplan.contracts, hplan.tests,
    hplan.extra, hall, hfound, hgathered, hgathered.eachOnce_iff_apart,
    fun honce p hp j hj => hgathered.name_of_mem honce hp hj, hgathered.disjoint_of_not_above⟩

/-- The jobs of the project with a directory that is named like a source. -/
def mockedJobs : List Job :=
  [⟨contractsJob, mockedOthers, mockedPath ["flat"] / "contracts.sol"⟩,
    ⟨testsJob, [mockedPath ["test", "MockT.sol"], mockedPath ["script", "LibDeploy.sol"]] ++ mockedMocks,
      mockedPath ["flat"] / "tests.sol"⟩]

theorem jobs_mocked : (jobs asListed (some (mockedPath []))).runIn { tree := mockedTree } =
    (.ok mockedJobs, { tree := mockedTree }) := by
  have horder : asListed.listingOrder ∈ Settings.listingOrders := by decide
  refine jobs_eq_ok_iff.mpr ⟨rfl, ⟨mockedPath ["contracts"], mockedPath ["test"], mockedPath ["flat"],
    mockedOthers, [mockedPath ["script", "LibDeploy.sol"]],
    [mockedPath ["test", "MockT.sol"], mockedPath ["script", "LibDeploy.sol"]], mockedMocks⟩,
    ⟨by cbv, by cbv, by cbv, ?_, by cbv, ?_, ?_⟩, rfl⟩
  · exact discover_eq_ok_iff.mpr ⟨rfl, horder, by decide, mockedOthers, by decide, rfl⟩
  · exact discover_eq_ok_iff.mpr ⟨rfl, horder, by decide,
      [mockedPath ["test", "MockT.sol"]], by decide, rfl⟩
  · exact discover_eq_ok_iff.mpr ⟨rfl, horder, by decide, mockedMocks, by decide, rfl⟩

/-- Its sources are apart, since neither directory is above the other and the further source is in
none of them. -/
theorem jobs_merge_once_mocked :
    mockedTree.Tidy ∧ (jobs asListed (some (mockedPath []))).runIn { tree := mockedTree } =
      (.ok mockedJobs, { tree := mockedTree }) ∧ EachOnce mockedJobs := by
  have htidy : mockedTree.Tidy := (Node.sound_of_isSound (by decide)).tidy
  obtain ⟨b, contracts, tests, extra, all, found, hb, hcontracts, htests, hextra, -, -, hgathered,
    hiff, -, hdisjoint⟩ :=
    jobs_merge_once_iff (w := { tree := mockedTree }) htidy jobs_mocked
  cases hb
  obtain rfl := runIn_ok_unique (a := mockedPath ["contracts"]) (by cbv) hcontracts
  obtain rfl := runIn_ok_unique (a := mockedPath ["test"]) (by cbv) htests
  obtain rfl := runIn_ok_unique (a := [mockedPath ["script", "LibDeploy.sol"]]) (by cbv) hextra
  refine ⟨htidy, jobs_mocked, hiff.mpr ⟨hdisjoint (by decide) (by decide), List.nodup_singleton _,
    fun p hp => ?_⟩⟩
  rw [List.mem_singleton.mp hp]
  exact ⟨fun hfound => absurd (hgathered.aboveFound _ hfound) (by decide),
    fun hall => absurd (hgathered.aboveAll _ hall) (by decide)⟩

/-- A document that has the tests among the contracts and names one of them once more. -/
def nestedEntries : Entries :=
  [(.text "sources", .map [(.text "tests_dir", .text "contracts/test"), (.text "listing_order", .text "native"),
    (.text "test_extra_paths", .list [.text "contracts/test/T.sol"])])]

/-- The settings that it describes. -/
def nestedSettings : Settings :=
  { testsDir := "contracts/test", testExtraPaths := ["contracts/test/T.sol"], listingOrder := "native" }

/-- A project with the tests among the contracts. -/
def nestedTree : Node :=
  .dir [("contracts", .dir [("A.sol", .file .empty), ("test", .dir [("T.sol", .file .empty)])])]

/-- Its test source. -/
def nestedTest : Path := mockedPath ["contracts", "test", "T.sol"]

/-- The jobs that come of it. -/
def nestedJobs : List Job :=
  [⟨contractsJob, [mockedPath ["contracts", "A.sol"], nestedTest], mockedPath ["flat"] / "contracts.sol"⟩,
    ⟨testsJob, [nestedTest, nestedTest], mockedPath ["flat"] / "tests.sol"⟩]

/-- The document is accepted and the jobs can be made, and the test source is in one job twice and in
the other too. -/
theorem jobs_repeat_nested :
    Settings.ofEntries nestedEntries = .ok nestedSettings ∧ nestedTree.Tidy ∧
      (jobs nestedSettings (some (mockedPath []))).runIn { tree := nestedTree } =
        (.ok nestedJobs, { tree := nestedTree }) ∧
      ¬ (∀ j ∈ nestedJobs, j.files.Nodup) ∧ ¬ nestedJobs.Pairwise fun j k => j.files.Disjoint k.files := by
  have horder : nestedSettings.listingOrder ∈ Settings.listingOrders := by decide
  refine ⟨by decide, (Node.sound_of_isSound (by decide)).tidy, ?_, by decide, ?_⟩
  · refine jobs_eq_ok_iff.mpr ⟨rfl, ⟨mockedPath ["contracts"], mockedPath ["contracts", "test"],
      mockedPath ["flat"], [mockedPath ["contracts", "A.sol"], nestedTest], [nestedTest],
      [nestedTest, nestedTest], []⟩,
      ⟨by cbv, by cbv, by cbv, ?_, by cbv, ?_, ?_⟩, rfl⟩
    · exact discover_eq_ok_iff.mpr ⟨rfl, horder, by decide, _, by decide, (List.append_nil _).symm⟩
    · exact discover_eq_ok_iff.mpr ⟨rfl, horder, by decide, [nestedTest], by decide, rfl⟩
    · exact discover_eq_ok_iff.mpr ⟨rfl, horder, by decide, [], by decide, rfl⟩
  · intro hpairwise
    exact List.pairwise_pair.mp hpairwise (List.mem_cons_of_mem _ List.mem_cons_self) List.mem_cons_self

end SolidityKit.Flatten
