/-
The pinned project root.

Getting a tool ready finds the project root and pins it: a variable holds a path from the top that is resolved
to the root, and the root is the only one that is remembered (`Pinned`).  Whatever the current directory is,
and whether or not anything is remembered, the variable then leads to the same root, so that changing
directories, asking from other starts and forgetting the root keep it pinned (`Pinned.step`, `Pinned.run`), and
every place in the project is found where it was (`Pinned.answers`).
-/
import SolidityKit.Proofs.Workspace.RealPaths
import SolidityKit.Proofs.Workspace.VariableFiles

namespace SolidityKit

open Files SolidityKit.Action

/-! ### Paths that lead to the same place from everywhere -/

/-- Whatever else is in the workspace, the path is resolved to the same one. -/
def Resolves (tree : Node) (p r : Path) : Prop :=
  ∀ w : Workspace, w.tree = tree → (resolve p).runIn w = (.ok r, w)

theorem resolve_eq_ok_iff {p r : Path} {w w' : Workspace} :
    (resolve p).runIn w = (.ok r, w') ↔
      w' = w ∧ p.Usable ∧ r = w.tree.realPath w.cwd p ∧ w.tree.get w.cwd r ≠ .error .tooManyLinks := by
  rw [runIn_resolve]
  by_cases husable : p.Usable
  · rw [if_pos husable]
    constructor
    · intro h
      obtain ⟨hok, rfl⟩ := Prod.mk.injEq .. ▸ h
      split at hok
      · cases hok
      · next hloop =>
          cases hok
          exact ⟨rfl, husable, rfl, hloop⟩
    · rintro ⟨rfl, -, rfl, hloop⟩
      split
      · next h => exact absurd h hloop
      · rfl
  · rw [if_neg husable]
    constructor
    · intro h
      cases h
    · rintro ⟨-, hfree, -⟩
      exact absurd hfree husable

/-- An absolute path that has been resolved once is resolved so from everywhere. -/
theorem resolves_of_run {p r : Path} {w w' : Workspace} (habsolute : p.isAbsolute = true)
    (h : (resolve p).runIn w = (.ok r, w')) : Resolves w.tree p r := by
  obtain ⟨-, hfree, rfl, hloop⟩ := resolve_eq_ok_iff.mp h
  intro v hv
  have hreal : v.tree.realPath v.cwd p = w.tree.realPath w.cwd p := by
    rw [hv, Node.realPath_of_absolute w.tree habsolute]
  have hget : v.tree.get v.cwd (w.tree.realPath w.cwd p) = w.tree.get w.cwd (w.tree.realPath w.cwd p) := by
    rw [hv]
    exact Node.get_of_absolute w.tree rfl _ _
  exact resolve_eq_ok_iff.mpr ⟨rfl, hfree, hreal.symm, by rwa [hget]⟩

/-- The names that lead to a directory are resolved already. -/
theorem Node.DirPath.resolve_eq {place : Place} {w w' : Workspace} {r : Path} (h : w.tree.DirPath place)
    (hrun : (resolve ⟨.top, place⟩).runIn w = (.ok r, w')) : r = ⟨.top, place⟩ := by
  obtain ⟨-, -, hr, -⟩ := resolve_eq_ok_iff.mp hrun
  rw [hr, h.realPath]

theorem Node.DirPath.resolves {tree : Node} {place : Place} (h : tree.DirPath place)
    (hfree : (Path.mk .top place).Usable) : Resolves tree ⟨.top, place⟩ ⟨.top, place⟩ := by
  rintro w rfl
  obtain ⟨es, hget⟩ := h.get w.cwd
  refine resolve_eq_ok_iff.mpr ⟨rfl, hfree, (h.realPath w.cwd).symm, ?_⟩
  rw [hget]
  exact fun hloop => by cases hloop

theorem runIn_expandHome_of_absolute {p : Path} (h : p.isAbsolute = true) (w : Workspace) :
    (expandHome p).runIn w = (.ok p, w) := by
  obtain ⟨root, names⟩ := p
  cases root with
  | current => cases h
  | top => rfl
  | doubled => rfl

namespace Project

/-! ### Finding the root -/

theorem mem_of_firstMarked? {dirs : List Path} {d : Path} {w w' : Workspace}
    (h : (firstMarked? dirs).runIn w = (.ok (some d), w')) : d ∈ dirs := by
  induction dirs generalizing w with
  | nil => cases h
  | cons dir more ih =>
      obtain ⟨marked, w₁, -, hrest⟩ := runIn_bind_eq_ok h
      cases marked with
      | true =>
          cases hrest
          exact List.mem_cons_self
      | false => exact List.mem_cons_of_mem dir (ih hrest)

/-- The path is that of a directory at or above a place. -/
def AtOrAbove (place : Place) (p : Path) : Prop := ∃ above, p = ⟨.top, above⟩ ∧ above <+: place

theorem AtOrAbove.parents {place : Place} {p q : Path} (h : AtOrAbove place p) (hq : q ∈ p :: p.parents) :
    AtOrAbove place q := by
  obtain ⟨above, rfl, hway⟩ := h
  rcases List.mem_cons.mp hq with rfl | hq
  · exact ⟨above, rfl, hway⟩
  · obtain ⟨n, -, rfl⟩ := List.mem_map.mp hq
    exact ⟨above.take n, rfl, (List.take_prefix n above).trans hway⟩

/-- The value of the variable that names the root, if it is set and not empty. -/
def rootVariable (w : Workspace) : Option Points := (w.environment.lookup "FLAT_REPO_ROOT").filter (· ≠ [])

/-- The empty value is no absolute path. -/
theorem rootVariable_eq_some {w : Workspace} {v : Points} (h : w.environment.lookup "FLAT_REPO_ROOT" = some v)
    (habsolute : (Path.ofPoints v).isAbsolute = true) : rootVariable w = some v := by
  have hne : v ≠ [] := by
    rintro rfl
    cases habsolute
  unfold rootVariable
  rw [h, Option.filter_some, if_pos (decide_eq_true hne)]

/-- Without the variable, the root is the current directory or one above it. -/
theorem searchRoot_atOrAbove {w w' : Workspace} {r : Path} (hunset : rootVariable w = none)
    (hcwd : w.tree.DirPath w.cwd) (h : (searchRoot none).runIn w = (.ok r, w')) : AtOrAbove w.cwd r := by
  have hvalue : (nonemptyValueOf? "FLAT_REPO_ROOT").runIn w = (.ok none, w) := by rw [← hunset]; rfl
  have hresolved {p : Path} {v : Workspace} (hp : AtOrAbove w.cwd p) (hrun : (resolve p).runIn w = (.ok r, v)) :
      AtOrAbove w.cwd r := by
    obtain ⟨above, rfl, hway⟩ := hp
    exact ⟨above, (hcwd.above hway).resolve_eq hrun, hway⟩
  unfold searchRoot at h
  rw [runIn_bind_ok hvalue] at h
  obtain ⟨start, w₁, hstart, h⟩ := runIn_bind_eq_ok h
  obtain ⟨here, w₂, hhere, hstart⟩ := runIn_bind_eq_ok hstart
  cases hhere
  obtain rfl : start = ⟨.top, w.cwd⟩ := hcwd.resolve_eq hstart
  obtain rfl : w₁ = w := (keeps_resolve _).of_runIn hstart
  obtain ⟨isDir, w₂, hisDir, h⟩ := runIn_bind_eq_ok h
  obtain rfl : w₂ = w₁ := (keeps_isDir _).of_runIn hisDir
  -- the search goes upwards from here, wherever it begins
  have hfirst : AtOrAbove w₂.cwd (if isDir then ⟨.top, w₂.cwd⟩ else Path.parent ⟨.top, w₂.cwd⟩) := by
    split
    · exact ⟨w₂.cwd, rfl, List.prefix_rfl⟩
    · exact ⟨w₂.cwd.dropLast, rfl, List.dropLast_prefix _⟩
  obtain ⟨marked, w₃, hmarked, h⟩ := runIn_bind_eq_ok h
  obtain rfl : w₃ = w₂ := (keeps_firstMarked? _).of_runIn hmarked
  cases marked with
  | some dir => exact hresolved (hfirst.parents (mem_of_firstMarked? hmarked)) h
  | none => exact hresolved hfirst h

/-- With the variable, the root is what its value is resolved to. -/
theorem runIn_searchRoot_of_some {w : Workspace} {v : Points} (h : rootVariable w = some v)
    (start : Option Path) (habsolute : (Path.ofPoints v).isAbsolute = true) :
    (searchRoot start).runIn w = (resolve (Path.ofPoints v)).runIn w := by
  have hvalue : (nonemptyValueOf? "FLAT_REPO_ROOT").runIn w = (.ok (some v), w) := by rw [← h]; rfl
  unfold searchRoot
  rw [runIn_bind_ok hvalue]
  show (expandHome (Path.ofPoints v) >>= resolve).runIn w = _
  rw [runIn_bind_ok (runIn_expandHome_of_absolute habsolute w)]

/-! ### What is pinned -/

/-- The project root is pinned: wherever it is looked for, it is found, and no other is remembered. -/
structure Pinned (r : Path) (w : Workspace) : Prop where
  /-- The variable leads to the root from everywhere. -/
  given : ∃ v, rootVariable w = some v ∧ (Path.ofPoints v).isAbsolute = true ∧
    Resolves w.tree (Path.ofPoints v) r
  /-- No other root is remembered. -/
  known : ∀ start b, w.knownRoot = some (start, b) → b = r
  /-- The directory of artifacts is not named by a variable. -/
  output : buildVariable w = none

/-- What is pinned depends on the tree, the variables and the root that is remembered. -/
theorem Pinned.of_same {r : Path} {w w' : Workspace} (h : Pinned r w) (htree : w'.tree = w.tree)
    (henvironment : w'.environment = w.environment)
    (hknown : ∀ start b, w'.knownRoot = some (start, b) → b = r) :
    Pinned r w' where
  given := by
    unfold rootVariable
    rw [htree, henvironment]
    exact h.given
  known := hknown
  output := by
    unfold buildVariable
    rw [henvironment]
    exact h.output

/-- The pinned root is found from every start, and remembered. -/
theorem Pinned.runIn_rootFrom {r : Path} {w : Workspace} (h : Pinned r w) (start : Option Path) :
    (rootFrom start).runIn w = (.ok r, { w with knownRoot := some (start, r) }) := by
  obtain ⟨v, hv, habsolute, hresolves⟩ := h.given
  have hsearch : (rootFrom.search start).runIn w = (.ok r, { w with knownRoot := some (start, r) }) := by
    have hfound : (searchRoot start).runIn w = (.ok r, w) := by
      rw [runIn_searchRoot_of_some hv start habsolute, hresolves w rfl]
    exact runIn_bind_ok hfound
  unfold rootFrom
  rw [runIn_bind_ok (runIn_get w)]
  cases hknown : w.knownRoot with
  | none => exact hsearch
  | some entry =>
      obtain ⟨s, b⟩ := entry
      dsimp only
      split
      · next hs =>
          -- what is remembered is the same already
          obtain rfl : b = r := h.known s b hknown
          rw [← hs, ← hknown]
          rfl
      · exact hsearch

theorem Pinned.runIn_root {r : Path} {w : Workspace} (h : Pinned r w) :
    root.runIn w = (.ok r, { w with knownRoot := some (none, r) }) := h.runIn_rootFrom none

/-! ### What may happen -/

/-- Something that may happen between two questions about the project. -/
inductive Move where
  /-- The current directory is changed. -/
  | enter (place : Place)
  /-- The root is asked for, from anywhere. -/
  | find (start : Option Path)
  /-- The root that is remembered is forgotten. -/
  | forget

/-- The action of a move. -/
def Move.act : Move → Action Unit
  | enter place => modify fun w => { w with cwd := place }
  | find start => do let _ ← rootFrom start
  | forget => forgetRoot

/-- The workspace after some moves, whether or not each comes to a result. -/
def after (moves : List Move) (w : Workspace) : Workspace := moves.foldl (fun w m => (m.act.runIn w).2) w

/-- **No move changes what is pinned.** -/
theorem Pinned.step {r : Path} {w : Workspace} (h : Pinned r w) (m : Move) : Pinned r (m.act.runIn w).2 := by
  cases m with
  | enter place => exact h.of_same rfl rfl h.known
  | find start =>
      have hrun : ((Move.find start).act.runIn w).2 = { w with knownRoot := some (start, r) } :=
        congrArg Prod.snd (runIn_bind_ok (h.runIn_rootFrom start))
      rw [hrun]
      refine h.of_same rfl rfl fun s b hb => ?_
      cases hb
      rfl
  | forget => exact h.of_same rfl rfl fun s b hb => by cases hb

/-- Nor does any sequence of moves. -/
theorem Pinned.run {r : Path} {w : Workspace} (h : Pinned r w) (moves : List Move) :
    Pinned r (after moves w) := by
  induction moves generalizing w with
  | nil => exact h
  | cons m more ih => exact ih (h.step m)

/-! ### What is answered -/

/-- The path starts with a name that stands for a home directory. -/
def StartsAtHome (p : Path) : Prop := ∃ name, p.names.head? = some name ∧ name.head? = some (.char '~')

/-- Every question about the project has the answer that the root gives. -/
structure Answers (r : Path) (w : Workspace) : Prop where
  /-- The root itself. -/
  root : (root.runIn w).1 = .ok r
  /-- The directory of settings files. -/
  configs : (configs.runIn w).1 = .ok (r / "configs")
  /-- The settings file. -/
  settingsFile : (settingsFile.runIn w).1 = .ok (r / "configs" / "flatten.yaml")
  /-- The settings file of one developer. -/
  localSettingsFile : (localSettingsFile.runIn w).1 = .ok (r / "configs" / "flatten.local.yaml")
  /-- The directory of build artifacts. -/
  buildOutput : (buildOutput.runIn w).1 = .ok (r / "out")
  /-- The directory of broadcast records. -/
  broadcasts : (broadcasts.runIn w).1 = .ok (r / "broadcast")
  /-- The directory of coverage summaries. -/
  coverage : (coverage.runIn w).1 = .ok (r / "coverage")
  /-- The tracefile. -/
  tracefile : (tracefile.runIn w).1 = .ok (r / "lcov.info")
  /-- A relative path that does not start at a home directory. -/
  located : ∀ p : Path, p.isAbsolute = false → ¬ StartsAtHome p → ((locate p none).runIn w).1 = .ok (r / p)

theorem runIn_expandHome_of_not_home {p : Path} (h : ¬ StartsAtHome p) (w : Workspace) :
    (expandHome p).runIn w = (.ok p, w) := by
  obtain ⟨start, names⟩ := p
  cases names with
  | nil => cases start <;> rfl
  | cons name rest =>
      have hname : ¬ name.head? = some (.char '~') := fun hname => h ⟨name, rfl, hname⟩
      cases start with
      | current =>
          unfold expandHome
          dsimp only
          rw [if_neg hname]
          rfl
      | top => rfl
      | doubled => rfl

/-- **Where the root is pinned, every question has the answer that it gives.** -/
theorem Pinned.answers {r : Path} {w : Workspace} (h : Pinned r w) : Answers r w := by
  -- each answer is a place below the root
  have hbelow (below : Path → Path) : ((root >>= fun b => pure (below b)).runIn w).1 = .ok (below r) := by
    rw [runIn_bind_ok h.runIn_root]
    rfl
  have hconfigs : configs.runIn w = (.ok (r / "configs"), { w with knownRoot := some (none, r) }) :=
    runIn_bind_ok h.runIn_root
  have hsettings (name : String) :
      ((configs >>= fun b => pure (b / name)).runIn w).1 = .ok (r / "configs" / name) := by
    rw [runIn_bind_ok hconfigs]
    rfl
  refine ⟨by rw [h.runIn_root], hbelow _, hsettings _, hsettings _, ?_, hbelow _, hbelow _, hbelow _,
    fun p hp hhome => ?_⟩
  · rw [runIn_buildOutput_of_none h.output]
    exact hbelow _
  · unfold locate
    rw [runIn_bind_ok (runIn_expandHome_of_not_home hhome w), hp]
    exact hbelow _

/-! ### Pinning -/

section Pinning

open VariableFile

variable {w w₁ : Workspace} {r : Path}

/-- Where no root is remembered, it is searched for and remembered. -/
theorem search_of_root (hknown : w.knownRoot = none) (h : root.runIn w = (.ok r, w₁)) :
    (searchRoot none).runIn w = (.ok r, w) ∧ w₁ = { w with knownRoot := some (none, r) } := by
  have hsearch : root.runIn w = (rootFrom.search none).runIn w := by
    refine (runIn_bind_ok (runIn_get w)).trans ?_
    rw [hknown]
  rw [hsearch] at h
  obtain ⟨b, w₂, hfound, hremember⟩ := runIn_bind_eq_ok h
  obtain rfl : w₂ = w := (keeps_searchRoot none).of_runIn hfound
  cases hremember
  exact ⟨hfound, rfl⟩

/-- Getting ready finds the root, sets the variable to its spelling unless it is set, and adds what the
variable file gives. -/
theorem steps_of_prepare {fromFile : Bool} (hknown : w.knownRoot = none)
    (h : (prepare fromFile).runIn w = (.ok r, w₁)) :
    (searchRoot none).runIn w = (.ok r, w) ∧
      (w.environment.lookup "FLAT_REPO_ROOT" = none → Settable "FLAT_REPO_ROOT" r.spelling) ∧
      ∃ given, Added (("FLAT_REPO_ROOT", r.spelling) :: given) { w with knownRoot := some (none, r) } w₁ := by
  obtain ⟨b, w₂, hroot, hrest⟩ := runIn_bind_eq_ok h
  obtain ⟨hfound, rfl⟩ := search_of_root hknown hroot
  obtain ⟨_, w₃, hset, hrest⟩ := runIn_bind_eq_ok hrest
  have hloaded : b = r ∧ ∃ given, Added given w₃ w₁ := by
    cases fromFile with
    | false =>
        cases hrest
        exact ⟨rfl, [], .refl w₁⟩
    | true =>
        obtain ⟨_, w₄, hload, hpure⟩ := runIn_bind_eq_ok hrest
        obtain ⟨given, hadded⟩ := added_load (b / ".env") w₃
        rw [hload] at hadded
        cases hpure
        exact ⟨rfl, given, hadded⟩
  obtain ⟨rfl, given, hmore⟩ := hloaded
  rcases step_cases "FLAT_REPO_ROOT" b.spelling { w with knownRoot := some (none, b) } with
    ⟨v, hrun, hadded, hsettable⟩ | ⟨hrun, -⟩
  · cases hrun.symm.trans hset
    exact ⟨hfound, hsettable, given, hadded.trans hmore⟩
  · cases hrun.symm.trans hset

/-- A root that is found above the current directory is what its own spelling leads to. -/
theorem resolves_spelling_of_search (hset : w.environment.lookup "FLAT_REPO_ROOT" = none)
    (hcwd : w.tree.DirPath w.cwd)
    (hfound : (searchRoot none).runIn w = (.ok r, w)) (hsettable : Settable "FLAT_REPO_ROOT" r.spelling) :
    (Path.ofPoints r.spelling).isAbsolute = true ∧ Resolves w.tree (Path.ofPoints r.spelling) r := by
  have hroot : rootVariable w = none := by
    unfold rootVariable
    rw [hset]
    rfl
  obtain ⟨above, rfl, hway⟩ := searchRoot_atOrAbove hroot hcwd hfound
  have hdir := hcwd.above hway
  have hfree : (Path.mk .top above).Usable := hsettable.value
  rw [Path.ofPoints_spelling fun name hname => (hdir.names name hname).1]
  exact ⟨rfl, hdir.resolves hfree⟩

/-- **Getting ready pins the root.** -/
theorem pinned_of_prepare {fromFile : Bool} (hknown : w.knownRoot = none)
    (hgiven : ∀ v, w.environment.lookup "FLAT_REPO_ROOT" = some v → (Path.ofPoints v).isAbsolute = true)
    (hcwd : w.environment.lookup "FLAT_REPO_ROOT" = none → w.tree.DirPath w.cwd)
    (hrun : (prepare fromFile).runIn w = (.ok r, w₁))
    (houtput : w₁.environment.lookup "FLAT_FORGE_OUT" = none) :
    Pinned r w₁ := by
  obtain ⟨hfound, hsettable, given, hadded⟩ := steps_of_prepare hknown hrun
  have htree : w₁.tree = w.tree := by rw [hadded.same]
  -- the variable holds what it held, or else the spelling of the root
  have hvalue : ∃ v, w₁.environment.lookup "FLAT_REPO_ROOT" = some v ∧ (Path.ofPoints v).isAbsolute = true ∧
      Resolves w.tree (Path.ofPoints v) r := by
    cases hset : w.environment.lookup "FLAT_REPO_ROOT" with
    | some v =>
        have habsolute := hgiven v hset
        rw [runIn_searchRoot_of_some (rootVariable_eq_some hset habsolute) none habsolute] at hfound
        exact ⟨v, hadded.keeps hset, habsolute, resolves_of_run habsolute hfound⟩
    | none =>
        refine ⟨r.spelling, ?_, resolves_spelling_of_search hset (hcwd hset) hfound (hsettable hset)⟩
        rw [hadded.lookup, hset, Option.none_or, List.lookup_cons_self]
  obtain ⟨v, hv, habsolute, hresolves⟩ := hvalue
  refine ⟨⟨v, rootVariable_eq_some hv habsolute, habsolute, htree ▸ hresolves⟩, fun start b hb => ?_, ?_⟩
  · rw [hadded.same] at hb
    cases hb
    rfl
  · unfold buildVariable
    rw [houtput]
    rfl

/-- **Once a tool is ready, the project stays where it is.**  Suppose that no root was remembered, and that the
variable that names it was either unset, in some current directory, or an absolute path.  If getting ready
comes to a result and no variable names the directory of artifacts afterwards, then that result is the root,
and every place in the project is below it, after any changes of the current directory, searches for the root
from anywhere, and losses of what was remembered. -/
theorem prepare_pins {fromFile : Bool} (hknown : w.knownRoot = none)
    (hgiven : ∀ v, w.environment.lookup "FLAT_REPO_ROOT" = some v → (Path.ofPoints v).isAbsolute = true)
    (hcwd : w.environment.lookup "FLAT_REPO_ROOT" = none → w.tree.DirPath w.cwd)
    (hrun : (prepare fromFile).runIn w = (.ok r, w₁)) (houtput : w₁.environment.lookup "FLAT_FORGE_OUT" = none)
    (moves : List Move) : Answers r (after moves w₁) :=
  ((pinned_of_prepare hknown hgiven hcwd hrun houtput).run moves).answers

end Pinning

/-- The directory of a project. -/
def sampleRoot : Path := ⟨.top, ["p"]⟩

/-- A project with a variable file, as it is found in the directory of the project. -/
def sampleProject (environment : List (String × Points)) (knownRoot : Option (Option Path × Path)) :
    Workspace :=
  { tree := .dir [("p", .dir [("foundry.toml", .file (Utf8.encode [])),
    (".env", .file (Utf8.encode "A=1".toList))])]
    cwd := ["p"], environment, knownRoot }

theorem dirPath_sampleRoot : (sampleProject [] none).tree.DirPath sampleRoot.names :=
  ⟨by decide, ⟨_, rfl⟩⟩

theorem searchRoot_sampleProject :
    (searchRoot none).runIn (sampleProject [] none) = (.ok sampleRoot, sampleProject [] none) := by
  have hvalue : (nonemptyValueOf? "FLAT_REPO_ROOT").runIn (sampleProject [] none) =
    (.ok none, sampleProject [] none) := rfl
  have hresolve : (resolve sampleRoot).runIn (sampleProject [] none) =
    (.ok sampleRoot, sampleProject [] none) :=
    dirPath_sampleRoot.resolves (by decide) _ rfl
  have hdir : (isDir sampleRoot).runIn (sampleProject [] none) = (.ok true, sampleProject [] none) := by
    rw [runIn_isDir (by decide)]
    rfl
  have hthere : (pathExists (sampleRoot / "foundry.toml")).runIn (sampleProject [] none) =
      (.ok true, sampleProject [] none) := by
    unfold pathExists
    rw [runIn_bind, runIn_node? (by decide)]
    rfl
  have hmarker : (hasMarker sampleRoot).runIn (sampleProject [] none) = (.ok true, sampleProject [] none) :=
    runIn_bind_ok hthere
  have hmarked (more : List Path) : (firstMarked? (sampleRoot :: more)).runIn (sampleProject [] none) =
      (.ok (some sampleRoot), sampleProject [] none) :=
    runIn_bind_ok hmarker
  unfold searchRoot
  rw [runIn_bind_ok hvalue]
  refine (runIn_bind_ok ((runIn_bind_ok (runIn_get _)).trans hresolve)).trans ?_
  exact (runIn_bind_ok hdir).trans ((runIn_bind_ok (hmarked _)).trans hresolve)

open VariableFile in
/-- The project once it is ready: the root is pinned, and the variable of the file is set. -/
theorem prepare_sampleProject :
    (prepare true).runIn (sampleProject [] none) =
      (.ok sampleRoot, sampleProject [("FLAT_REPO_ROOT", "/p"), ("A", "1")] (some (none, sampleRoot))) := by
  have hroot : root.runIn (sampleProject [] none) =
    (.ok sampleRoot, sampleProject [] (some (none, sampleRoot))) := by
    show (rootFrom.search none).runIn (sampleProject [] none) = _
    exact runIn_bind_ok searchRoot_sampleProject
  have hset : (setIfUnset "FLAT_REPO_ROOT" "/p").runIn (sampleProject [] (some (none, sampleRoot))) =
      (.ok (), sampleProject [("FLAT_REPO_ROOT", "/p")] (some (none, sampleRoot))) :=
    runIn_setIfUnset_of_none rfl (by decide)
  have hbytes : (look (sampleRoot / ".env") Node.readBytes).runIn
      (sampleProject [("FLAT_REPO_ROOT", "/p")] (some (none, sampleRoot))) =
        (.ok (Utf8.encode "A=1".toList), sampleProject [("FLAT_REPO_ROOT", "/p")] (some (none, sampleRoot))) :=
    look_readBytes (by decide) rfl
  have hload : (load (sampleRoot / ".env")).runIn
    (sampleProject [("FLAT_REPO_ROOT", "/p")] (some (none, sampleRoot))) =
      (.ok (), sampleProject [("FLAT_REPO_ROOT", "/p"), ("A", "1")] (some (none, sampleRoot))) := by
    have hgiven : (linesOf "A=1".toList).filterMap assignment? = [("A", ("1" : Points))] := by decide
    rw [runIn_load hbytes, Utf8.decode_encode]
    dsimp only
    rw [hgiven, setAll_cons, runIn_bind_ok (runIn_setIfUnset_of_none rfl (by decide))]
    rfl
  exact (runIn_bind_ok hroot).trans ((runIn_bind_ok hset).trans (runIn_bind_ok hload))

/-- The theorem where the project is left, and the root is looked for from the top and then forgotten. -/
theorem prepare_pins_sampleProject :
    Answers sampleRoot
      (after [.enter [], .find (some ⟨.top, []⟩), .forget]
        (sampleProject [("FLAT_REPO_ROOT", "/p"), ("A", "1")] (some (none, sampleRoot)))) :=
  prepare_pins rfl (fun v hv => by cases hv) (fun _ => dirPath_sampleRoot) prepare_sampleProject rfl _

end Project

end SolidityKit
