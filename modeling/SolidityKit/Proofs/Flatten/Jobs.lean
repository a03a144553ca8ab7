/-
What jobs are made of, and what running one does.

Planning only looks: `jobs_eq_ok_iff` takes a list of jobs apart into the paths and the listings that it was
made from, which are a `Plan`.  Where things are located depends on nothing but the variables and the home
directories, which no run changes (`Sees`).

A job reads all its sources and then writes (`run_eq_ok_iff`), and a run does one job after another.
-/
import SolidityKit.Flatten.Jobs
import SolidityKit.Proofs.Workspace.Locations

namespace SolidityKit

open SolidityKit.Action

/-- A workspace without its files and without what a run leaves behind besides them. -/
def Workspace.outside (w : Workspace) : Workspace := { w.bare with tree := .dir [] }

theorem cwd_eq_of_outside {w w' : Workspace} (h : w'.outside = w.outside) : w'.cwd = w.cwd := by
  show w'.outside.cwd = w.outside.cwd
  rw [h]

namespace Action

variable {α β : Type}

/-- An action only reads, and what it gives depends on what is outside the files. -/
def Sees (act : Action α) : Prop :=
  ∃ seen : Workspace → Except Failure α, ∀ w, act.runIn w = (seen w.outside, w)

theorem Sees.pure (a : α) : Sees (pure a : Action α) := ⟨fun _ => .ok a, fun _ => rfl⟩

theorem Sees.throw (f : Failure) : Sees (throw f : Action α) := ⟨fun _ => .error f, fun _ => rfl⟩

theorem Sees.bind {act : Action α} {next : α → Action β} (hact : Sees act) (hnext : ∀ a, Sees (next a)) :
    Sees (act >>= next) := by
  obtain ⟨seen, hseen⟩ := hact
  choose after hafter using hnext
  refine ⟨fun w => (seen w).bind fun a => after a w, fun w => ?_⟩
  rw [runIn_bind, hseen]
  show _ = ((seen w.outside).bind fun a => after a w.outside, w)
  cases seen w.outside with
  | error f => rfl
  | ok a => exact hafter a w

theorem Sees.ite {c : Prop} [Decidable c] {act act' : Action α} (h : Sees act) (h' : Sees act') :
    Sees (if c then act else act') := by
  split
  · exact h
  · exact h'

theorem Sees.mapM {act : α → Action β} (hact : ∀ a, Sees (act a)) (as : List α) : Sees (as.mapM act) := by
  induction as with
  | nil => exact Sees.pure []
  | cons a rest ih =>
      rw [List.mapM_cons]
      exact (hact a).bind fun _ => ih.bind fun _ => Sees.pure _

theorem Sees.keeps {act : Action α} (hact : Sees act) : Keeps id act := by
  obtain ⟨seen, hseen⟩ := hact
  intro w
  rw [hseen]

/-- Two workspaces that differ in their files only are the same to such an action. -/
theorem Sees.runIn_eq {act : Action α} (hact : Sees act) {w w' : Workspace} {r : Except Failure α}
    (hsame : w'.outside = w.outside) (h : act.runIn w = (r, w)) : act.runIn w' = (r, w') := by
  obtain ⟨seen, hseen⟩ := hact
  rw [hseen] at h
  obtain ⟨rfl, -⟩ := Prod.mk.injEq .. ▸ h
  rw [hseen, hsame]

theorem sees_checkUsable (cs : Points) : Sees (checkUsable cs) :=
  ⟨fun _ => if cs.Usable then .ok () else .error cs.refusal, fun w => runIn_checkUsable cs w⟩

theorem sees_homeOf? (name : Files.Name) : Sees (homeOf? name) := by
  -- the first step looks at the whole workspace, and only the variables and the home directories are used
  by_cases hown : name = "~"
  · refine ⟨fun o => .ok (some ((o.environment.lookup "HOME").getD o.ownHome)), fun w => ?_⟩
    unfold homeOf?
    rw [runIn_bind_ok (runIn_get w), if_pos hown]
    rfl
  · obtain ⟨seen, hseen⟩ := sees_checkUsable (name.drop 1)
    refine ⟨fun o => (seen o).map fun _ => o.homes.lookup (name.drop 1), fun w => ?_⟩
    unfold homeOf?
    rw [runIn_bind_ok (runIn_get w), if_neg hown, runIn_bind, hseen]
    show _ = ((seen w.outside).map fun _ => w.homes.lookup (name.drop 1), w)
    cases seen w.outside <;> rfl

theorem sees_homeOf (name : Files.Name) : Sees (homeOf name) := by
  refine (sees_homeOf? name).bind fun home? => ?_
  cases home? with
  | none => exact Sees.throw _
  | some home => exact Sees.ite (Sees.throw _) (Sees.pure _)

theorem sees_expandHome (p : Path) : Sees (expandHome p) := by
  unfold expandHome
  split
  · split
    · exact (sees_homeOf _).bind fun _ => Sees.pure _
    · exact Sees.pure _
  · exact Sees.pure _

theorem sees_locate (p b : Path) : Sees (Project.locate p b) := by
  refine (sees_expandHome p).bind fun q => ?_
  by_cases habs : q.isAbsolute = true
  · simp only [habs, if_true]
    exact Sees.pure _
  · simp only [habs]
    exact (Sees.pure b).bind fun _ => Sees.pure _

theorem runIn_bind_eq_ok_iff {act : Action α} {next : α → Action β} (hact : Keeps id act)
    {w w' : Workspace} {b : β} :
    (act >>= next).runIn w = (.ok b, w') ↔ ∃ a, act.runIn w = (.ok a, w) ∧ (next a).runIn w = (.ok b, w') := by
  constructor
  · intro h
    obtain ⟨a, w₁, hok, hrest⟩ := runIn_bind_eq_ok h
    obtain rfl : w₁ = w := hact.of_runIn hok
    exact ⟨a, hok, hrest⟩
  · rintro ⟨a, hok, hrest⟩
    rw [runIn_bind_ok hok, hrest]

end Action

namespace Flatten

/-! ### Planning -/

/-- What a list of jobs is made from. -/
structure Plan where
  /-- The directory of contract sources. -/
  contracts : Path
  /-- The directory of test sources. -/
  tests : Path
  /-- The directory of artifacts. -/
  output : Path
  /-- The contract sources other than mocks. -/
  production : List Path
  /-- Further sources that tests need. -/
  extra : List Path
  /-- The test sources, with the further ones. -/
  testing : List Path
  /-- The mocks. -/
  mocks : List Path

/-- What is looked for among the contract sources and the test sources. -/
def baseQuery (settings : Settings) : Query :=
  { suffix := settings.sourceSuffix, order := settings.listingOrder }

/-- The jobs that come of a plan. -/
def Plan.jobs (plan : Plan) (settings : Settings) : List Job :=
  [⟨contractsJob, plan.production, plan.output / settings.contractsArtifact⟩,
    ⟨testsJob, plan.testing ++ plan.mocks, plan.output / settings.testsArtifact⟩]

/-- The plan is what the settings describe below a base. -/
structure Plans (settings : Settings) (b : Path) (w : Workspace) (plan : Plan) : Prop where
  /-- Where the contract sources are. -/
  contracts : (Project.locatePoints settings.contractsDir b).runIn w = (.ok plan.contracts, w)
  /-- Where the test sources are. -/
  tests : (Project.locatePoints settings.testsDir b).runIn w = (.ok plan.tests, w)
  /-- Where the artifacts go. -/
  output : (Project.locatePoints settings.outputDir b).runIn w = (.ok plan.output, w)
  /-- What is listed for the job of contract sources. -/
  production : (discover plan.contracts
    { baseQuery settings with wanted := fun n => !contains settings.mockMarker n }).runIn w =
      (.ok plan.production, w)
  /-- Where the further sources are. -/
  extra : (settings.testExtraPaths.mapM fun p => Project.locatePoints p b).runIn w = (.ok plan.extra, w)
  /-- What is listed for the job of test sources. -/
  testing : (discover plan.tests { baseQuery settings with extra := plan.extra }).runIn w =
    (.ok plan.testing, w)
  /-- The mocks that are listed. -/
  mocks : (discover plan.contracts
    { baseQuery settings with wanted := contains settings.mockMarker }).runIn w = (.ok plan.mocks, w)

theorem runIn_discover (dir : Path) (q : Query) (w : Workspace) :
    (discover dir q).runIn w =
      (if q.order ∉ Settings.listingOrders then .error (.unknownOrder q.order)
        else if dir.Usable then
          ((w.tree.filesBelow w.cwd { suffix := q.suffix, wanted := q.wanted, sorted := q.order = "sorted" }
            dir).mapError Failure.file).map (· ++ q.extra)
        else .error dir.spelling.refusal, w) := by
  unfold discover
  by_cases horder : q.order ∈ Settings.listingOrders
  · by_cases husable : dir.Usable
    · have hcheck : (checkPath dir).runIn w = (.ok (), w) := by rw [runIn_checkPath, if_pos husable]
      simp only [horder, husable, not_true_eq_false, if_true, if_false]
      refine (runIn_bind_ok hcheck).trans ((runIn_bind_ok (runIn_get w)).trans ?_)
      generalize w.tree.filesBelow w.cwd _ dir = found
      cases found <;> rfl
    · have hcheck : (checkPath dir).runIn w = (.error dir.spelling.refusal, w) := by
        rw [runIn_checkPath, if_neg husable]
      simp only [horder, husable, not_true_eq_false, if_false]
      exact runIn_bind_error hcheck
  · simp only [horder, not_false_eq_true, if_true, if_false]
    rfl

theorem discover_eq_ok_iff {dir : Path} {q : Query} {w w' : Workspace} {fs : List Path} :
    (discover dir q).runIn w = (.ok fs, w') ↔
      w' = w ∧ q.order ∈ Settings.listingOrders ∧ dir.Usable ∧ ∃ found,
        w.tree.filesBelow w.cwd { suffix := q.suffix, wanted := q.wanted, sorted := q.order = "sorted" } dir =
          .ok found ∧ fs = found ++ q.extra := by
  rw [runIn_discover]
  by_cases horder : q.order ∈ Settings.listingOrders
  · by_cases husable : dir.Usable
    · rw [if_neg (not_not_intro horder), if_pos husable]
      cases hfound :
        w.tree.filesBelow w.cwd { suffix := q.suffix, wanted := q.wanted, sorted := q.order = "sorted" } dir
      · simp [Except.mapError, Except.map]
      · simp [Except.mapError, Except.map, horder, husable, eq_comm, and_comm]
    · simp [horder, husable]
  · simp [horder]

theorem keeps_discover (dir : Path) (q : Query) : Keeps id (discover dir q) := by
  intro w
  rw [runIn_discover]

/-- Jobs are made from a plan, and making them only looks. -/
theorem jobs_eq_ok_iff {settings : Settings} {b : Path} {w w' : Workspace} {js : List Job} :
    (jobs settings b).runIn w = (.ok js, w') ↔ w' = w ∧ ∃ plan, Plans settings b w plan ∧
      js = plan.jobs settings := by
  have hlocate (s : Points) : Keeps id (Project.locatePoints s b) := (sees_locate _ b).keeps
  unfold jobs
  constructor
  · intro h
    obtain ⟨b', w₁, hb, h⟩ := runIn_bind_eq_ok h
    cases hb
    obtain ⟨contracts, hcontracts, h⟩ := (runIn_bind_eq_ok_iff (hlocate _)).mp h
    obtain ⟨tests, htests, h⟩ := (runIn_bind_eq_ok_iff (hlocate _)).mp h
    obtain ⟨output, houtput, h⟩ := (runIn_bind_eq_ok_iff (hlocate _)).mp h
    obtain ⟨production, hproduction, h⟩ := (runIn_bind_eq_ok_iff (keeps_discover _ _)).mp h
    obtain ⟨extra, hextra, h⟩ := (runIn_bind_eq_ok_iff (Keeps.mapM hlocate _)).mp h
    obtain ⟨testing, htesting, h⟩ := (runIn_bind_eq_ok_iff (keeps_discover _ _)).mp h
    obtain ⟨mocks, hmocks, h⟩ := (runIn_bind_eq_ok_iff (keeps_discover _ _)).mp h
    cases h
    exact ⟨rfl, ⟨contracts, tests, output, production, extra, testing, mocks⟩,
      ⟨hcontracts, htests, houtput, hproduction, hextra, htesting, hmocks⟩, rfl⟩
  · rintro ⟨rfl, plan, h, rfl⟩
    refine (runIn_bind_ok (runIn_pure b w')).trans ?_
    refine (runIn_bind_ok h.contracts).trans ?_
    refine (runIn_bind_ok h.tests).trans ?_
    refine (runIn_bind_ok h.output).trans ?_
    refine (runIn_bind_ok h.production).trans ?_
    refine (runIn_bind_ok h.extra).trans ?_
    refine (runIn_bind_ok h.testing).trans ?_
    exact runIn_bind_ok h.mocks

/-! ### Reading sources -/

theorem keeps_readSource (p : Path) : Keeps id (readSource p) := by
  refine (keeps_readText p).tryCatch fun f => ?_
  cases f <;> exact Keeps.throw _

theorem runIn_readSource (p : Path) (w : Workspace) :
    (readSource p).runIn w =
      (((readText p).runIn w).1.mapError fun
        | .file f => .job (.unreadable p.spelling (.file f))
        | .decoding f => .job (.unreadable p.spelling (.decoding f))
        | f => f, w) := by
  unfold readSource
  rw [runIn_tryCatch, runIn_of_reads (keeps_readText p)]
  cases ((readText p).runIn w).1 with
  | ok t => rfl
  | error f => cases f <;> rfl

theorem hasText_of_readSource {p : Path} {w w' : Workspace} {t : Text}
    (h : (readSource p).runIn w = (.ok t, w')) :
    p.Usable ∧ w.HasText p t := by
  rw [runIn_readSource] at h
  obtain ⟨hfst, -⟩ := Prod.mk.injEq .. ▸ h
  have hread : (readText p).runIn w = (.ok t, w) := by
    rw [runIn_of_reads (keeps_readText p)]
    cases hr : ((readText p).runIn w).1 with
    | ok t' => rw [hr] at hfst; cases hfst; rfl
    | error f => rw [hr] at hfst; cases hfst
  exact (hasText_of_readText hread).2

theorem keeps_readSources (ps : List Path) : Keeps id (ps.mapM readSource) := Keeps.mapM keeps_readSource ps

/-! ### Writing an artifact -/

theorem encodePoints_ofText (t : Text) : Utf8.encodePoints (Points.ofText t) = .ok (Utf8.encode t) := by
  have hnone : Utf8.firstSurrogates (fun _ => false) 0 (Points.ofText t) = none := by
    rw [Utf8.firstSurrogates_eq_none_iff]
    intro c hc hsurrogate
    obtain ⟨c, -, rfl⟩ := List.mem_map.mp hc
    cases hsurrogate
  have htext : CodePoint.toTextLossy (Points.ofText t) = t := by
    unfold CodePoint.toTextLossy Points.ofText
    rw [List.map_map]
    exact List.map_id t
  unfold Utf8.encodePoints
  rw [hnone, htext]

/-- What may come of writing an artifact. -/
inductive Written (a : Artifact) (w : Workspace) : Except Failure Unit × Workspace → Prop
  /-- The directory cannot be made; some of the directories above it may have been. -/
  | noDirectory {tree : Node} {fault : Files.Fault}
      (hsteps : Relation.ReflTransGen (MakesDir w.cwd a.output.parent) w.tree tree) :
      Written a w (.error (.job (.unwritable a.output.spelling fault)), { w with tree })
  /-- The directory is there, and the file cannot be written. -/
  | refused {tree : Node} {c : Files.Cause}
      (hsteps : Relation.ReflTransGen (MakesDir w.cwd a.output.parent) w.tree tree)
      (hfile : tree.writeBytes w.cwd a.output ByteArray.empty = .error c) :
      Written a w (.error (.job (.unwritable a.output.spelling ⟨c, a.output.spelling⟩)), { w with tree })
  /-- The directory is there, and the file in it. -/
  | done {mid mid' tree : Node} {place dirPlace : Files.Place} {es : List (Files.Name × Node)}
      (hsteps : Relation.ReflTransGen (MakesDir w.cwd a.output.parent) w.tree mid)
      (hdir : mid.LeadsTo w.cwd a.output.parent dirPlace (.dir es))
      (hfirst : mid.writeBytes w.cwd a.output ByteArray.empty = .ok mid')
      (hlast : mid'.writeBytes w.cwd a.output (Utf8.encode a.text) = .ok tree)
      (hleads : tree.LeadsTo w.cwd a.output place (.file (Utf8.encode a.text)))
      (hgrows : Node.Grows (· = place) mid tree) : Written a w (.ok (), { w with tree })

theorem written_write {a : Artifact} (husable : a.output.Usable) {w : Workspace}
    (hstart : ∀ target, w.tree.at? (Node.startOf w.cwd a.output) ≠ some (.link target)) :
    Written a w ((write a).runIn w) := by
  have hmade := made_makeDirs husable.parent w
  have hsame := hmade.same
  unfold write
  rw [runIn_tryCatch, runIn_bind]
  cases hrun : (makeDirs a.output.parent).runIn w with
  | mk r w₁ =>
      rw [hrun] at hmade hsame
      obtain ⟨mid, rfl⟩ : ∃ mid, w₁ = { w with tree := mid } := ⟨_, hsame⟩
      cases r with
      | error f =>
          obtain ⟨fault, rfl⟩ := hmade.failed f rfl
          exact .noDirectory hmade.steps
      | ok u =>
          obtain ⟨dirPlace, es, hdir⟩ := hmade.there rfl
          have hwrote := wrote_writePoints (w := { w with tree := mid }) husable
            (fun target hlink => hstart target (hmade.grows.link.mp hlink)) (Points.ofText a.text)
          rw [show writeText a.output a.text = writePoints a.output (Points.ofText a.text) from rfl]
          dsimp only
          generalize (writePoints a.output (Points.ofText a.text)).runIn _ = out at hwrote
          cases hwrote with
          | refused hfile => exact .refused hmade.steps hfile
          | emptied hnone _ _ => cases (encodePoints_ofText a.text).symm.trans hnone
          | written hsome hfirst hlast hleads hgrows =>
              cases (encodePoints_ofText a.text).symm.trans hsome
              exact .done hmade.steps hdir hfirst hlast hleads hgrows

/-- An artifact is written only at a path that can be used. -/
theorem usable_of_write {a : Artifact} {w w' : Workspace} (h : (write a).runIn w = (.ok (), w')) :
    a.output.Usable := by
  by_contra husable
  have hchange (w₁ : Workspace) :
      (change a.output fun tree cwd p => tree.writeBytes cwd p ByteArray.empty).runIn w₁ =
      (.error a.output.spelling.refusal, w₁) := by
    unfold change
    exact runIn_bind_error (by rw [runIn_look, if_neg husable])
  unfold write at h
  rw [runIn_tryCatch, runIn_bind] at h
  cases hrun : (makeDirs a.output.parent).runIn w with
  | mk r w₁ =>
      rw [hrun] at h
      cases r with
      | error f => cases f <;> cases h
      | ok u =>
          dsimp only at h
          rw [show (writeText a.output a.text).runIn w₁ = (.error a.output.spelling.refusal, w₁) from
            runIn_bind_error (hchange w₁)] at h
          rcases a.output.spelling.refusal_cases with ⟨l, hl⟩ | hnul
          · rw [hl] at h
            cases h
          · rw [hnul] at h
            cases h

/-! ### Running a job -/

/-- The artifact that the texts of a job's sources are merged into. -/
def Job.merged (j : Job) (texts : List Text) : Artifact := (mergeInto j.output texts {}).1

/-- Telling what a job has done only tells. -/
theorem runIn_tellMerged (name : Points) (a : Artifact) (s : MergeState) (w : Workspace) :
    ∃ told, (tellMerged name a s).runIn w = (.ok (), { w with told }) := by
  unfold tellMerged
  by_cases hremoved : s.removed.named.isEmpty = true <;> by_cases hdropped : s.imports.dropped = 0 <;>
    simp only [hremoved, hdropped, if_true, if_false] <;> exact ⟨_, rfl⟩

/-- What may come of running a job. -/
inductive Ran (j : Job) (w : Workspace) : Except Failure Artifact × Workspace → Prop
  /-- A source cannot be read. -/
  | unread {f : Failure} (hread : (j.files.mapM readSource).runIn w = (.error f, w)) : Ran j w (.error f, w)
  /-- The artifact cannot be written. -/
  | unwritten {texts : List Text} {f : Failure} {w' : Workspace}
      (hread : (j.files.mapM readSource).runIn w = (.ok texts, w))
      (hwrite : (write (j.merged texts)).runIn w = (.error f, w')) : Ran j w (.error f, w')
  /-- The artifact has been written. -/
  | done {texts : List Text} {w' : Workspace} {told : List Line}
      (hread : (j.files.mapM readSource).runIn w = (.ok texts, w))
      (hwrite : (write (j.merged texts)).runIn w = (.ok (), w')) :
      Ran j w (.ok (j.merged texts), { w' with told })

theorem Job.run_eq (j : Job) :
    j.run = j.files.mapM readSource >>= fun texts => write (j.merged texts) >>= fun _ =>
    tellMerged j.name (j.merged texts) (mergeInto j.output texts {}).2 >>= fun _ => pure (j.merged texts) := rfl

/-- A job whose sources can be read and whose artifact can be written. -/
theorem runIn_run_of {j : Job} {texts : List Text} {w w' : Workspace}
    (hread : (j.files.mapM readSource).runIn w = (.ok texts, w))
    (hwrite : (write (j.merged texts)).runIn w = (.ok (), w')) :
    ∃ told, j.run.runIn w = (.ok (j.merged texts), { w' with told }) := by
  obtain ⟨told, htold⟩ := runIn_tellMerged j.name (j.merged texts) (mergeInto j.output texts {}).2 w'
  refine ⟨told, ?_⟩
  rw [j.run_eq, runIn_bind_ok hread, runIn_bind_ok hwrite, runIn_bind_ok htold]
  rfl

theorem ran_run (j : Job) (w : Workspace) : Ran j w (j.run.runIn w) := by
  have hreads := runIn_of_reads (keeps_readSources j.files) w
  rw [j.run_eq]
  cases hread : ((j.files.mapM readSource).runIn w).1 with
  | error f =>
      rw [hread] at hreads
      rw [runIn_bind_error hreads]
      exact .unread hreads
  | ok texts =>
      rw [hread] at hreads
      rw [runIn_bind_ok hreads]
      cases hwrite : (write (j.merged texts)).runIn w with
      | mk r w' =>
          cases r with
          | error f =>
              rw [runIn_bind_error hwrite]
              exact .unwritten hreads hwrite
          | ok u =>
              obtain ⟨told, hrun⟩ := runIn_run_of hreads hwrite
              rw [j.run_eq, runIn_bind_ok hreads] at hrun
              rw [hrun]
              exact .done hreads hwrite

/-- What came of a job goes into the report, unless it was none of the faults that jobs can have. -/
theorem runIn_addTo (r : Report) (j : Job) (w : Workspace) :
    (addTo r j).runIn w =
      match j.run.runIn w with
      | (.ok a, w') => (.ok { r with artifacts := r.artifacts ++ [(j.name, a)] }, w')
      | (.error (.job f), w') =>
        (.ok { r with failures := r.failures ++ [(j.name, f.message)] },
          { w' with told := .notice .error (j.name ++ ": flatten failed: " ++ f.message) :: w'.told })
      | (.error f, w') => (.error f, w') := by
  unfold addTo
  rw [runIn_tryCatch, runIn_bind]
  cases j.run.runIn w with
  | mk out w' =>
      cases out with
      | ok a => rfl
      | error f => cases f <;> rfl

/-! ### A whole run -/

/-- Only known jobs are asked for. -/
def Known (only : List Points) : Prop := ∀ n ∈ only, n ∈ jobNames

/-- The jobs that are asked for. -/
def selected (only : List Points) (js : List Job) : List Job :=
  js.filter fun j => j.name ∈ if only.isEmpty then jobNames else only

theorem jobs_eq (settings : Settings) (base : Option Path) :
    jobs settings base = base.elim Project.root pure >>= fun b => jobs settings (some b) := rfl

theorem run_of_known {settings : Settings} {base : Option Path} {only : List Points} (hknown : Known only) :
    run settings base only = jobs settings base >>= fun js => (selected only js).foldlM addTo {} := by
  have hnone : ((if only.isEmpty then jobNames else only).filter fun n => n ∉ jobNames) = [] := by
    rw [List.filter_eq_nil_iff]
    intro n hn
    by_cases hempty : only.isEmpty = true
    · rw [if_pos hempty] at hn
      simpa using hn
    · rw [if_neg hempty] at hn
      simpa using hknown n hn
  unfold run
  simp only [hnone]
  rfl

theorem known_of_run {settings : Settings} {base : Option Path} {only : List Points} {w w' : Workspace}
    {r : Report} (h : (run settings base only).runIn w = (.ok r, w')) : Known only := by
  intro n hn
  by_contra hunknown
  have hmem : n ∈ (if only.isEmpty then jobNames else only).filter fun n => n ∉ jobNames := by
    rw [if_neg (by simpa using List.ne_nil_of_mem hn), List.mem_filter]
    exact ⟨hn, by simpa using hunknown⟩
  have hsome : ((if only.isEmpty then jobNames else only).filter fun n => n ∉ jobNames).isEmpty = false := by
    simpa using List.ne_nil_of_mem hmem
  unfold run at h
  simp only [hsome] at h
  cases h

/-- A run that comes to an end has found its jobs and has done one after the other. -/
theorem run_eq_ok_iff {settings : Settings} {base : Option Path} {only : List Points} {w w' : Workspace}
    {r : Report} :
    (run settings base only).runIn w = (.ok r, w') ↔
      Known only ∧ ∃ b w₀ plan, (base.elim Project.root pure : Action Path).runIn w = (.ok b, w₀) ∧
        Plans settings b w₀ plan ∧ ((selected only (plan.jobs settings)).foldlM addTo {}).runIn w₀ =
          (.ok r, w') := by
  constructor
  · intro h
    have hknown := known_of_run h
    rw [run_of_known hknown, jobs_eq] at h
    obtain ⟨js, w₀, hjobs, hfold⟩ := runIn_bind_eq_ok h
    obtain ⟨b, w₁, hb, hjobs⟩ := runIn_bind_eq_ok hjobs
    obtain ⟨rfl, plan, hplan, rfl⟩ := jobs_eq_ok_iff.mp hjobs
    exact ⟨hknown, b, w₀, plan, hb, hplan, hfold⟩
  · rintro ⟨hknown, b, w₀, plan, hb, hplan, hfold⟩
    have hjobs : (jobs settings base).runIn w = (.ok (plan.jobs settings), w₀) := by
      rw [jobs_eq, runIn_bind_ok hb]
      exact jobs_eq_ok_iff.mpr ⟨rfl, plan, hplan, rfl⟩
    rw [run_of_known hknown, runIn_bind_ok hjobs, hfold]

end Flatten

end SolidityKit
