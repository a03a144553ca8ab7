/-
What a whole run leaves behind.

Jobs that keep apart cannot get in each other's way: one that runs after others finds all that it reads, and
all that stands above its output, as it was before the first of them.  `Progress.step` says so of one job and
`Progress.foldlM` of all, and `run_accounts` is what it comes to: what a run reports of a job is what it
reports of the job alone, and no files have changed but the outputs of the jobs that came to an artifact.
-/
import SolidityKit.Proofs.Flatten.JobPaths
import SolidityKit.Proofs.Flatten.Rerun
import SolidityKit.Proofs.Settings.Fields

namespace SolidityKit.Flatten

open Files SolidityKit.Action

/-! ### Reports -/

/-- The jobs that a report tells of. -/
def Report.names (r : Report) : List Points := r.artifacts.map Prod.fst ++ r.failures.map Prod.fst

/-- What a report tells of one job. -/
def Report.of (r : Report) (name : Points) : Report :=
  { artifacts := r.artifacts.filter (·.1 = name), failures := r.failures.filter (·.1 = name) }

/-- A report and then another one. -/
def Report.append (r s : Report) : Report :=
  { artifacts := r.artifacts ++ s.artifacts, failures := r.failures ++ s.failures }

/-- What is reported of a job. -/
def reported (name : Points) : Except Failure Artifact → Report
  | .ok a => { artifacts := [(name, a)] }
  | .error (.job f) => { failures := [(name, f.message)] }
  | .error _ => {}

theorem Report.names_append (r s : Report) : (r.append s).names.Perm (r.names ++ s.names) := by
  unfold Report.append Report.names
  rw [List.map_append, List.map_append, List.append_assoc, List.append_assoc]
  refine List.Perm.append_left _ ?_
  rw [← List.append_assoc, ← List.append_assoc]
  exact List.perm_append_comm.append_right _

theorem Report.of_append (r s : Report) (name : Points) :
    (r.append s).of name = (r.of name).append (s.of name) := by
  simp [Report.of, Report.append]

theorem Report.of_eq_empty {r : Report} {name : Points} (h : name ∉ r.names) : r.of name = {} := by
  have hart : r.artifacts.filter (·.1 = name) = [] := by
    rw [List.filter_eq_nil_iff]
    rintro e he heq
    exact h (List.mem_append_left _ (List.mem_map.mpr ⟨e, he, by simpa using heq⟩))
  have hfail : r.failures.filter (·.1 = name) = [] := by
    rw [List.filter_eq_nil_iff]
    rintro e he heq
    exact h (List.mem_append_right _ (List.mem_map.mpr ⟨e, he, by simpa using heq⟩))
  unfold Report.of
  rw [hart, hfail]

theorem names_reported {name : Points} {out : Except Failure Artifact}
    (h : ∀ f, out = .error f → ∃ g, f = .job g) :
    (reported name out).names = [name] := by
  cases out with
  | ok a => rfl
  | error f =>
      obtain ⟨g, rfl⟩ := h f rfl
      rfl

theorem mem_artifacts_reported {name : Points} {out : Except Failure Artifact} {e : Points × Artifact} :
    e ∈ (reported name out).artifacts ↔ out = .ok e.2 ∧ e.1 = name := by
  constructor
  · intro h
    unfold reported at h
    split at h
    · obtain rfl := List.mem_singleton.mp h
      exact ⟨rfl, rfl⟩
    · cases h
    · cases h
  · rintro ⟨rfl, rfl⟩
    exact List.mem_singleton_self _

theorem of_reported (name : Points) (out : Except Failure Artifact) :
    (reported name out).of name = reported name out := by
  unfold reported
  split <;> simp [Report.of]

@[simp] theorem Report.append_empty (r : Report) : r.append {} = r := by
  simp [Report.append]

@[simp] theorem Report.empty_append (r : Report) : Report.append {} r = r := by
  simp [Report.append]

theorem Report.of_append_left {r s : Report} {name : Points} (h : name ∉ s.names) :
    (r.append s).of name = r.of name := by
  rw [Report.of_append, Report.of_eq_empty h, Report.append_empty]

theorem Report.of_append_right {r s : Report} {name : Points} (h : name ∉ r.names) :
    (r.append s).of name = s.of name := by
  rw [Report.of_append, Report.of_eq_empty h, Report.empty_append]

/-! ### One job -/

/-- A job adds to the report what is reported of it. -/
theorem runIn_addTo_reported {j : Job} {u : Workspace} (h : Reaches j.output u (j.run.runIn u)) (r : Report) :
    ∃ told, (addTo r j).runIn u =
      (.ok (r.append (reported j.name (j.run.runIn u).1)), { (j.run.runIn u).2 with told }) := by
  rw [runIn_addTo]
  have hfailed := h.failed
  cases hrun : j.run.runIn u with
  | mk out u₁ =>
      rw [hrun] at hfailed
      cases out with
      | ok a => exact ⟨u₁.told, by simp [reported, Report.append]⟩
      | error f =>
          obtain ⟨⟨g, rfl⟩, -⟩ := hfailed f rfl
          refine ⟨.notice .error (j.name ++ ": flatten failed: " ++ g.message) :: u₁.told, ?_⟩
          simp only [reported, Report.append, List.append_nil]

/-- A job writes no file but the artifact that is reported of it. -/
theorem grows_reported {j : Job} (hj : j.Usable) {u : Workspace} (hu : u.tree.Sound) :
    Node.Grows (fun place => ∃ e ∈ (reported j.name (j.run.runIn u).1).artifacts, e.2.output.names = place)
      u.tree (j.run.runIn u).2.tree := by
  obtain ⟨hreaches, hok⟩ := run_reaches hj hu
  cases hrun : (j.run.runIn u).1 with
  | error f => exact (hreaches.failed f hrun).2.mono fun _ hnone => hnone.elim
  | ok a =>
      obtain ⟨hout, -⟩ := hok a hrun
      refine hreaches.beside.grows.mono fun place hplace => ?_
      exact ⟨(j.name, a), mem_artifacts_reported.mpr ⟨rfl, rfl⟩, by rw [List.mem_singleton.mp hplace, hout]⟩

/-- What a run tells of a job, and what it tells of the job alone. -/
inductive Alike (j : Job) (told alone : Report) : Prop
  /-- The same. -/
  | same (h : told = alone)
  /-- A path has a name that is too long, and the job fails either way. -/
  | long (hlong : ∃ p ∈ j.output :: j.files, ¬ p.Short) (hfailed : ∃ m, told = { failures := [(j.name, m)] })
      (halone : ∃ m, alone = { failures := [(j.name, m)] })

/-- A job comes to the same after others as it does alone. -/
theorem alike_of_beside {j : Job} (hj : j.Usable) {w u : Workspace} (hw : w.tree.Sound) (hu : u.tree.Sound)
    (hcwd : u.cwd = w.cwd) {outputs : List Place} (hbeside : w.tree.Beside outputs u.tree)
    (hapart : ∀ p ∈ j.output :: j.files, ∀ o ∈ outputs, Node.Apart p.names o) :
    Alike j (reported j.name (j.run.runIn u).1) (reported j.name (j.run.runIn w).1) := by
  by_cases hshort : ∀ p ∈ j.output :: j.files, p.Short
  · exact .same (by rw [run_beside hj hshort hw hu hcwd hbeside hapart])
  · have hlong : ∃ p ∈ j.output :: j.files, ¬ p.Short := by
      push Not at hshort
      exact hshort
    obtain ⟨f, hf⟩ := run_of_long hj hlong hu
    obtain ⟨g, hg⟩ := run_of_long hj hlong hw
    exact .long hlong ⟨_, by rw [hf]; rfl⟩ ⟨_, by rw [hg]; rfl⟩

/-! ### All jobs, one after the other -/

/-- Jobs that keep apart: no path goes up, no output is at, above or below another one or a source. -/
structure KeepApart (js : List Job) : Prop where
  /-- Paths go down only. -/
  down : ∀ j ∈ js, ∀ p ∈ j.output :: j.files, (".." : Name) ∉ p.names
  /-- Outputs are apart. -/
  outputs : js.Pairwise fun i j => Node.Apart i.output.names j.output.names
  /-- Sources are apart from outputs. -/
  inputs : ∀ i ∈ js, ∀ j ∈ js, ∀ p ∈ i.files, Node.Apart p.names j.output.names

/-- How things stand when some jobs have been run. -/
structure Progress (js : List Job) (w : Workspace) (r : Report) (u : Workspace) : Prop where
  /-- The report tells of these jobs. -/
  names : r.names.Perm (js.map Job.name)
  /-- Nothing outside the files has changed. -/
  outside : u.outside = w.outside
  /-- The tree is sound. -/
  sound : u.tree.Sound
  /-- Only outputs have been written. -/
  beside : w.tree.Beside (js.map (·.output.names)) u.tree
  /-- Only artifacts have been written. -/
  grows : Node.Grows (fun place => ∃ e ∈ r.artifacts, e.2.output.names = place) w.tree u.tree
  /-- An artifact is where it belongs. -/
  artifacts : ∀ e ∈ r.artifacts, ∃ i ∈ js, e.1 = i.name ∧ e.2.output = i.output ∧
    u.tree.at? i.output.names = some (.file (Utf8.encode e.2.text))
  /-- What is told of a job is what is told of it alone. -/
  alike : ∀ j ∈ js, Alike j (r.of j.name) (reported j.name (j.run.runIn w).1)

theorem Progress.start {w : Workspace} (hw : w.tree.Sound) : Progress [] w {} w where
  names := .refl _
  outside := rfl
  sound := hw
  beside := .refl _ _
  grows := .refl _ _
  artifacts _ he := absurd he (by simp)
  alike _ hj := absurd hj (by simp)

theorem Progress.step {js : List Job} {w u : Workspace} {r : Report} (h : Progress js w r u) (hw : w.tree.Sound)
    {j : Job} (hj : j.Usable) (hnew : j.name ∉ js.map Job.name)
    (hapart : ∀ p ∈ j.output :: j.files, ∀ i ∈ js, Node.Apart p.names i.output.names) :
    ∃ r' u', (addTo r j).runIn u = (.ok r', u') ∧ Progress (js ++ [j]) w r' u' := by
  obtain ⟨hreaches, hok⟩ := run_reaches hj h.sound
  obtain ⟨told, hadd⟩ := runIn_addTo_reported hreaches r
  have hjob (f : Failure) (hf : (j.run.runIn u).1 = .error f) : ∃ g, f = .job g := (hreaches.failed f hf).1
  have hcwd : u.cwd = w.cwd := cwd_eq_of_outside h.outside
  have hother : ∀ i ∈ js, i.output.names ∉ [j.output.names] := by
    intro i hi hmem
    have hsame := List.mem_singleton.mp hmem
    exact (hapart _ List.mem_cons_self i hi).1 (hsame ▸ List.prefix_rfl)
  have hnames : (reported j.name (j.run.runIn u).1).names = [j.name] := names_reported hjob
  exact
    ⟨_, _, hadd,
      { names := by
          refine (Report.names_append _ _).trans ?_
          rw [hnames, List.map_append]
          exact h.names.append_right _
        outside := hreaches.outside.trans h.outside
        sound := hreaches.sound
        beside := (h.beside.mono (by simp)).trans (hreaches.beside.mono (by simp))
        grows := by
          refine (h.grows.mono fun place ⟨e, he, hplace⟩ => ⟨e, List.mem_append_left _ he, hplace⟩).trans ?_
          exact (grows_reported hj h.sound).mono fun place ⟨e, he, hplace⟩ =>
            ⟨e, List.mem_append_right _ he, hplace⟩
        artifacts := fun e he => by
          rcases List.mem_append.mp he with he | he
          · obtain ⟨i, hi, hname, hout, hat⟩ := h.artifacts e he
            exact ⟨i, List.mem_append_left _ hi, hname, hout, (hreaches.beside.file_iff (hother i hi)).mpr hat⟩
          · obtain ⟨hrun, hname⟩ := mem_artifacts_reported.mp he
            obtain ⟨hout, -, hat⟩ := hok _ hrun
            exact ⟨j, by simp, hname, hout, hat⟩
        alike := fun i hi => by
          rcases List.mem_append.mp hi with hi | hi
          · rw [Report.of_append_left]
            · exact h.alike i hi
            · rw [hnames, List.mem_singleton]
              exact fun heq => hnew (List.mem_map.mpr ⟨i, hi, heq⟩)
          · obtain rfl : i = j := List.mem_singleton.mp hi
            rw [Report.of_append_right fun hmem => hnew (h.names.subset hmem), of_reported]
            refine alike_of_beside hj hw h.sound hcwd h.beside fun p hp o ho => ?_
            obtain ⟨k, hk, rfl⟩ := List.mem_map.mp ho
            exact hapart p hp k hk }⟩

theorem Progress.foldlM {todo done : List Job} {w u : Workspace} {r : Report} (h : Progress done w r u)
    (hw : w.tree.Sound) (husable : ∀ j ∈ todo, j.Usable) (hnodup : ((done ++ todo).map Job.name).Nodup)
    (hapart : KeepApart (done ++ todo)) :
    ∃ r' u', (todo.foldlM addTo r).runIn u = (.ok r', u') ∧ Progress (done ++ todo) w r' u' := by
  induction todo generalizing done r u with
  | nil => exact ⟨r, u, rfl, by rwa [List.append_nil]⟩
  | cons j todo ih =>
      have hnew : j.name ∉ done.map Job.name := by
        rw [List.map_append, List.nodup_append'] at hnodup
        exact fun hmem => hnodup.2.2 hmem (by simp)
      have hbefore : ∀ p ∈ j.output :: j.files, ∀ i ∈ done, Node.Apart p.names i.output.names := by
        intro p hp i hi
        rcases List.mem_cons.mp hp with rfl | hp
        · exact ((List.pairwise_append.mp hapart.outputs).2.2 i hi j List.mem_cons_self).symm
        · exact hapart.inputs j (by simp) i (by simp [hi]) p hp
      obtain ⟨r₁, u₁, hadd, hstep⟩ := h.step hw (husable j List.mem_cons_self) hnew hbefore
      have hsplit : done ++ j :: todo = (done ++ [j]) ++ todo := by simp
      rw [hsplit] at hnodup hapart ⊢
      obtain ⟨r', u', hrest, hprogress⟩ :=
        ih hstep (fun i hi => husable i (List.mem_cons_of_mem j hi)) hnodup hapart
      exact ⟨r', u', by rw [List.foldlM_cons, runIn_bind_ok hadd, hrest], hprogress⟩

/-! ### A whole run -/

section Run

variable {settings : Settings} {b : Path} {plan : Plan}

theorem keeps_jobs (settings : Settings) (b : Path) : Keeps id (jobs settings (some b)) := by
  have hlocate (b : Path) (cs : Points) : Keeps id (Project.locatePoints cs b) := (sees_locate _ b).keeps
  unfold jobs
  refine Keeps.bind (Keeps.pure b) fun b => ?_
  refine Keeps.bind (hlocate b _) fun _ => Keeps.bind (hlocate b _) fun _ => Keeps.bind (hlocate b _)
    fun _ => ?_
  refine Keeps.bind (keeps_discover _ _) fun _ => Keeps.bind (Keeps.mapM (hlocate b) _) fun _ => ?_
  exact Keeps.bind (keeps_discover _ _) fun _ => Keeps.bind (keeps_discover _ _) fun _ => Keeps.pure _

theorem names_selected (only : List Points) (settings : Settings) (plan : Plan) :
    (selected only (plan.jobs settings)).map Job.name =
      jobNames.filter fun n => n ∈ if only.isEmpty then jobNames else only := by
  have hnames : (plan.jobs settings).map Job.name = jobNames := rfl
  rw [← hnames, List.filter_map]
  rfl

theorem selected_one {j : Job} (hj : j ∈ plan.jobs settings) :
    selected [j.name] (plan.jobs settings) = [j] := by
  have hne : contractsJob ≠ testsJob := by decide
  simp only [Plan.jobs, List.mem_cons, List.not_mem_nil, or_false] at hj
  rcases hj with rfl | rfl
  · simp [selected, Plan.jobs, hne.symm]
  · simp [selected, Plan.jobs, hne]

/-- What a run leaves behind, of the jobs that were selected. -/
structure Accounts (settings : Settings) (b : Path) (only : List Points) (w : Workspace) (js : List Job)
    (r : Report) (w' : Workspace) : Prop where
  /-- The report tells of the jobs that were asked for. -/
  names : ∀ n, n ∈ r.names ↔ n ∈ if only.isEmpty then jobNames else only
  /-- It tells of each once, as an artifact or as a failure. -/
  nodup : r.names.Nodup
  /-- An artifact is the merged text of the job's sources as they were before, and is what its output holds. -/
  artifact : ∀ j ∈ js, ∀ a, (j.name, a) ∈ r.artifacts → a.output = j.output ∧
    (∃ texts, List.Forall₂ w.HasText j.files texts ∧ a.text = (Source.merge texts {}).1) ∧
    w'.tree.readBytes w'.cwd j.output = .ok (Utf8.encode a.text)
  /-- No files have changed but the artifacts. -/
  files : ∀ place, (∀ e ∈ r.artifacts, e.2.output.names ≠ place) →
    ∀ c, w'.tree.at? place = some (.file c) ↔ w.tree.at? place = some (.file c)
  /-- What is told of a job is what is told of it alone. -/
  alone : ∀ j ∈ js, ∃ told w₁, (run settings b [j.name]).runIn w = (.ok told, w₁) ∧ Alike j (r.of j.name) told

theorem Accounts.of_progress {only : List Points} (hknown : Known only) {w w' : Workspace} (hw : w.tree.Sound)
    (hplan : Plans settings b w plan) (husable : ∀ j ∈ selected only (plan.jobs settings), j.Usable)
    {r : Report} (h : Progress (selected only (plan.jobs settings)) w r w') :
    Accounts settings b only w (selected only (plan.jobs settings)) r w' where
  names n := by
    rw [h.names.mem_iff, names_selected, List.mem_filter, decide_eq_true_eq]
    refine and_iff_right_of_imp fun hn => ?_
    split at hn
    · exact hn
    · exact hknown n hn
  nodup := by
    rw [h.names.nodup_iff, names_selected]
    exact List.Nodup.filter _ (by decide)
  artifact j hj a ha := by
    have hmem : (j.name, a) ∈ (r.of j.name).artifacts := List.mem_filter.mpr ⟨ha, by simp⟩
    have halone : (j.run.runIn w).1 = .ok a := by
      cases h.alike j hj with
      | same hsame =>
          rw [hsame] at hmem
          exact (mem_artifacts_reported.mp hmem).1
      | long _ hfailed _ =>
          obtain ⟨m, hm⟩ := hfailed
          rw [hm] at hmem
          cases hmem
    obtain ⟨hout, hmerged, -⟩ := (run_reaches (husable j hj) hw).2 a halone
    obtain ⟨i, -, -, hout', hat⟩ := h.artifacts _ ha
    have hleads : w'.tree.LeadsTo w'.cwd j.output j.output.names (.file (Utf8.encode a.text)) :=
      (Node.leadsTo_iff h.sound.plain ((husable j hj).direct _ List.mem_cons_self)).mpr
        ⟨rfl, by rw [← hout, show a.output = i.output from hout', hat]⟩
    exact ⟨hout, hmerged, Node.readBytes_eq_ok_iff.mpr ⟨_, hleads⟩⟩
  files place hplace c := h.grows.file fun ⟨e, he, heq⟩ => hplace e he heq
  alone j hj := by
    have hjobs : j ∈ plan.jobs settings := List.mem_of_mem_filter hj
    have hname : j.name ∈ jobNames := List.mem_map.mpr ⟨j, hjobs, rfl⟩
    have hrun : (jobs settings (some b)).runIn w = (.ok (plan.jobs settings), w) :=
      jobs_eq_ok_iff.mpr ⟨rfl, plan, hplan, rfl⟩
    obtain ⟨hreaches, -⟩ := run_reaches (husable j hj) hw
    obtain ⟨told, hadd⟩ := runIn_addTo_reported hreaches {}
    refine ⟨_, { (j.run.runIn w).2 with told }, ?_, h.alike j hj⟩
    rw [run_of_known (fun n hn => by rwa [List.mem_singleton.mp hn]), runIn_bind_ok hrun, selected_one hjobs,
      List.foldlM_cons, runIn_bind_ok hadd, Report.empty_append]
    rfl

end Run

/-- A run that fails has changed no files, and one that does not gives an account of the jobs. -/
theorem run_accounts (settings : Settings) (root : Points) (only : List Points) {w : Workspace} (hw : w.Sound)
    (hroot : (Path.ofPoints root).isAbsolute = true) (husable : ∀ s ∈ root :: settings.paths, Points.Usable s)
    (hknown : Known only)
    (hapart : ∀ js w', (jobs settings (Path.ofPoints root)).runIn w = (.ok js, w') →
      KeepApart (selected only js)) :
    (∀ f w', (run settings (Path.ofPoints root) only).runIn w = (.error f, w') → w'.tree = w.tree) ∧
      ∀ r w', (run settings (Path.ofPoints root) only).runIn w = (.ok r, w') →
        ∃ js, (jobs settings (Path.ofPoints root)).runIn w = (.ok js, w) ∧
          Accounts settings (Path.ofPoints root) only w (selected only js) r w' := by
  have hb : (Path.ofPoints root).Rooted := ⟨hroot, clean_ofPoints (husable root List.mem_cons_self)⟩
  have hpaths : ∀ s ∈ settings.paths, Points.Usable s := fun s hs => husable s (List.mem_cons_of_mem root hs)
  have hlook := runIn_of_reads (keeps_jobs settings (Path.ofPoints root)) w
  cases hjobs : ((jobs settings (Path.ofPoints root)).runIn w).1 with
  | error f =>
      rw [hjobs] at hlook
      have hrun : (run settings (Path.ofPoints root) only).runIn w = (.error f, w) := by
        rw [run_of_known hknown, runIn_bind_error hlook]
      refine ⟨fun f' w' h => ?_, fun r w' h => ?_⟩
      · cases hrun.symm.trans h
        rfl
      · cases hrun.symm.trans h
  | ok js =>
      rw [hjobs] at hlook
      obtain ⟨-, plan, hplan, rfl⟩ := jobs_eq_ok_iff.mp hlook
      have hkeep := hapart _ _ hlook
      have husable : ∀ j ∈ selected only (plan.jobs settings), j.Usable := fun j hj =>
        usable_of_plans hw hb hpaths hplan (List.mem_of_mem_filter hj) (hkeep.down j hj)
      have hnodup : (([] ++ selected only (plan.jobs settings)).map Job.name).Nodup := by
        rw [List.nil_append, names_selected]
        exact List.Nodup.filter _ (by decide)
      obtain ⟨r', u, hfold, hprogress⟩ := (Progress.start hw.tree).foldlM hw.tree husable hnodup hkeep
      have hrun : (run settings (Path.ofPoints root) only).runIn w = (.ok r', u) := by
        rw [run_of_known hknown, runIn_bind_ok hlook, hfold]
      refine ⟨fun f w' h => ?_, fun r w' h => ?_⟩
      · cases hrun.symm.trans h
      · cases hrun.symm.trans h
        exact ⟨plan.jobs settings, hlook, .of_progress hknown hw.tree hplan husable hprogress⟩

theorem sound_smallTree : Workspace.Sound { tree := smallTree [] [] } where
  tree := Node.sound_of_isSound (by decide)
  environment := by simp
  ownHome := by decide
  homes := by simp

/-- The small project is such a project, and its run comes to two artifacts. -/
theorem run_accounts_smallTree :
    ∃ r w', (run (smallSettings "flat") (Path.ofPoints "/") []).runIn { tree := smallTree [] [] } =
      (.ok r, w') ∧ ∃ js, (jobs (smallSettings "flat") (Path.ofPoints "/")).runIn { tree := smallTree [] [] } =
          (.ok js, { tree := smallTree [] [] }) ∧
        Accounts (smallSettings "flat") (Path.ofPoints "/") [] { tree := smallTree [] [] }
          (selected [] js) r w' := by
  have hroot : Path.ofPoints "/" = ⟨.top, []⟩ := by decide
  have hjobs := jobs_smallTree "flat" lists_smallTree [] (by cbv)
  have hkeep : KeepApart (selected [] (smallJobs "flat" [⟨.top, ["contracts", "A.sol"]⟩] [])) :=
    ⟨by decide, by decide, by decide⟩
  obtain ⟨told, hrun⟩ := run_flat hjobs
  rw [← hroot] at hjobs hrun
  obtain ⟨-, haccounts⟩ := run_accounts (smallSettings "flat") "/" [] sound_smallTree (by decide)
    (by decide) (by simp [Known]) fun js w' h => by
      cases hjobs.symm.trans h
      exact hkeep
  exact ⟨_, _, hrun, haccounts _ _ hrun⟩

/-! ### What a run may not account for -/

/-- A run as it may be asked for, whatever the spelling of the root. -/
structure Asked (settings : Settings) (root : Points) (only : List Points) (w : Workspace) : Prop where
  /-- The workspace is sound. -/
  sound : w.Sound
  /-- The settings were accepted. -/
  accepted : ∃ es, Settings.ofEntries es = .ok settings
  /-- The root is absolute. -/
  absolute : (Path.ofPoints root).isAbsolute = true
  /-- The system takes the texts in the settings. -/
  usable : ∀ s ∈ settings.paths, Points.Usable s
  /-- The jobs are known. -/
  known : Known only
  /-- They keep apart. -/
  apart : ∀ js w', (jobs settings (Path.ofPoints root)).runIn w = (.ok js, w') → KeepApart (selected only js)

theorem accepted_smallSettings (s : String) : Settings.ofEntries
    [(.text "sources", .map [(.text "test_extra_paths", .list [.text s]),
      (.text "listing_order", .text "native")])] =
      .ok { smallSettings "flat" with testExtraPaths := [s] } := by
  have horder : Points.lower (Text.trim "native") = "native" := by decide
  have hvalid (order : Points) (ho : order = "native") :
      Settings.validate { testExtraPaths := [(s : Points)], listingOrder := order } =
        .ok { smallSettings "flat" with testExtraPaths := [(s : Points)] } := by
    rw [ho]
    have hdefaults : ({} : Settings).sourceSuffix ≠ [] ∧ ({} : Settings).mockMarker ≠ [] ∧
        ("native" : Points) ∈ Settings.listingOrders ∧
          ({} : Settings).contractsArtifact ≠ ({} : Settings).testsArtifact := by decide
    exact Settings.validate_eq_ok_iff.mpr ⟨rfl, hdefaults⟩
  exact hvalid _ horder

/-- A name that is too long. -/
def longName : Name := List.replicate 64 (.char '𝕩')

/-- A path with such a name, where the artifacts go. -/
def longPath : String := String.ofList ("flat/".toList ++ List.replicate 64 '𝕩')

theorem ofString_longPath : Points.ofString longPath = "flat/" ++ longName := by
  unfold Points.ofString longPath
  rw [String.toList_ofList]
  decide

/-- Settings for the small project, with this path as a further source. -/
def longSettings : Settings := { smallSettings "flat" with testExtraPaths := [(longPath : Points)] }

/-- Settings that lead to the small project from anywhere, with a further source below the root. -/
def topSettings : Settings :=
  { smallSettings "flat" with
    contractsDir := "/contracts", testsDir := "/test", outputDir := "/flat", testExtraPaths := ["s.sol"] }

/-- A relative path that starts with no home directory is located below the base. -/
theorem runIn_locatePoints {cs : Points} {name : Name} {rest : List Name}
    (hcs : Path.ofPoints cs = ⟨.current, name :: rest⟩) (hhome : name.head? ≠ some (.char '~')) (b : Path)
    (w : Workspace) : (Project.locatePoints cs (some b)).runIn w =
      (.ok ⟨b.root, b.names ++ name :: rest⟩, w) := by
  unfold Project.locatePoints Project.locate expandHome
  rw [hcs]
  simp only [hhome]
  rfl

theorem readSource_of_fault {p : Path} (husable : p.Usable) {w : Workspace} {c : Cause}
    (h : w.tree.readBytes w.cwd p = .error c) :
    (readSource p).runIn w = (.error (.job (.unreadable p.spelling (.file ⟨c, p.spelling⟩))), w) := by
  rw [runIn_readSource, runIn_readText husable, h]
  rfl

theorem readSource_of_unusable {p : Path} (husable : ¬ p.Usable) (w : Workspace) :
    (readSource p).runIn w = (.error p.spelling.refusal, w) := by
  have hlook : (readText p).runIn w = (.error p.spelling.refusal, w) :=
    runIn_bind_error (by rw [runIn_look, if_neg husable])
  rw [runIn_readSource, hlook]
  rcases p.spelling.refusal_cases with ⟨l, hl⟩ | hnul
  · rw [hl]
    rfl
  · rw [hnul]
    rfl

/-- The small project after its contracts have been merged. -/
def halfTree : Node := smallTree [] [("flat", .dir [contractsFile smallText])]

/-- The job of its contracts. -/
def smallContracts : Job := ⟨contractsJob, [⟨.top, ["contracts", "A.sol"]⟩], ⟨.top, ["flat", "contracts.sol"]⟩⟩

/-- The job of its test, with a further source. -/
def testsWith (p : Path) : Job := ⟨testsJob, [⟨.top, ["test", "T.sol"]⟩, p], ⟨.top, ["flat", "tests.sol"]⟩⟩

theorem run_smallContracts : ∃ a told, smallContracts.run.runIn { tree := smallTree [] [] } =
    (.ok a, { tree := halfTree, told }) := by
  have hread : ([Path.mk .top ["contracts", "A.sol"]].mapM readSource).runIn { tree := smallTree [] [] } =
      (.ok [smallSource], { tree := smallTree [] [] }) := by cbv
  have hwrite : (write ⟨⟨.top, ["flat", "contracts.sol"]⟩, smallText, 1⟩).runIn { tree := smallTree [] [] } =
      (.ok (), { tree := halfTree }) := by cbv
  obtain ⟨told, hrun⟩ := runIn_run_of (j := smallContracts) hread (by rw [merged_smallSource]; exact hwrite)
  exact ⟨_, told, hrun⟩

theorem run_testsWith {p : Path} {made : List (Name × Node)} {w : Workspace} {f : Failure}
    (hw : w.tree = smallTree [] made ∧ w.cwd = []) (h : (readSource p).runIn w = (.error f, w)) :
    (testsWith p).run.runIn w = (.error f, w) := by
  have htext : w.HasText ⟨.top, ["test", "T.sol"]⟩ smallSource :=
    ⟨Utf8.encode smallSource, smallSource, by rw [hw.1, hw.2]; rfl, Utf8.decode_encode _, by decide⟩
  have htest : (readSource ⟨.top, ["test", "T.sol"]⟩).runIn w = (.ok smallSource, w) := by
    rw [runIn_readSource, runIn_readText_of_hasText (by decide) htext]
    rfl
  rw [Job.run_eq]
  refine runIn_bind_error ?_
  show ([⟨.top, ["test", "T.sol"]⟩, p].mapM readSource : Action _).runIn _ = _
  rw [List.mapM_cons, runIn_bind_ok htest, List.mapM_cons]
  exact runIn_bind_error (runIn_bind_error h)

/-- A run in which the contracts are merged before the other job fails. -/
theorem run_testsWith_after {settings : Settings} {b p : Path}
    (hjobs : (jobs settings b).runIn { tree := smallTree [] [] } =
      (.ok [smallContracts, testsWith p], { tree := smallTree [] [] })) :
    ∃ a told, (run settings b []).runIn { tree := smallTree [] [] } =
      (addTo { artifacts := [(contractsJob, a)] } (testsWith p)).runIn { tree := halfTree, told } := by
  obtain ⟨a, told, hjob⟩ := run_smallContracts
  have hadd : (addTo {} smallContracts).runIn { tree := smallTree [] [] } =
      (.ok { artifacts := [(contractsJob, a)] }, { tree := halfTree, told }) := by
    rw [runIn_addTo, hjob]
    rfl
  have hall : selected [] [smallContracts, testsWith p] = [smallContracts, testsWith p] := rfl
  refine ⟨a, told, ?_⟩
  rw [run_of_known (by simp [Known]), runIn_bind_ok hjobs, hall, List.foldlM_cons, runIn_bind_ok hadd]
  simp only [List.foldlM_cons, List.foldlM_nil, bind_pure]

theorem jobs_longSettings :
    (jobs longSettings (some ⟨.top, []⟩)).runIn { tree := smallTree [] [] } =
      (.ok [smallContracts, testsWith ⟨.top, ["flat", longName]⟩], { tree := smallTree [] [] }) := by
  have hpath : Path.ofPoints longPath = ⟨.current, ["flat", longName]⟩ := by
    rw [ofString_longPath]
    decide
  have hextra : (longSettings.testExtraPaths.mapM fun p => Project.locatePoints p (some ⟨.top, []⟩)).runIn
      { tree := smallTree [] [] } = (.ok [⟨.top, ["flat", longName]⟩], { tree := smallTree [] [] }) := by
    have hone := runIn_locatePoints hpath (by decide) ⟨.top, []⟩ { tree := smallTree [] [] }
    have hall : longSettings.testExtraPaths = [(longPath : Points)] := rfl
    rw [hall, List.mapM_cons, runIn_bind_ok hone]
    rfl
  exact jobs_of_lists lists_smallTree rfl (by cbv) (by cbv) (by cbv) hextra

theorem jobs_topSettings :
    (jobs topSettings (Path.ofPoints "/a\x00")).runIn { tree := smallTree [] [] } =
      (.ok [smallContracts, testsWith ⟨.top, ["a\x00", "s.sol"]⟩], { tree := smallTree [] [] }) :=
  jobs_of_lists lists_smallTree rfl (by cbv) (by cbv) (by cbv) (by cbv)

/-- A missing file and a name that is too long are not told in the same words. -/
theorem message_ne (p : Points) : (Fault.unreadable p (.file ⟨.nameTooLong, p⟩)).message ≠
    (Fault.unreadable p (.file ⟨.notFound, p⟩)).message := by
  have hlength (s : String) : (Points.ofString s).length = s.length := List.length_map _
  have hwords : ("[Errno " ++ toString (Cause.number .nameTooLong) ++ "] " ++
    Cause.words .nameTooLong ++ ": ").length ≠
      ("[Errno " ++ toString (Cause.number .notFound) ++ "] " ++ Cause.words .notFound ++ ": ").length := by
    decide
  have hreason (c : Cause) : (ReadFault.message (.file ⟨c, p⟩)).length =
      ("[Errno " ++ toString c.number ++ "] " ++ c.words ++ ": ").length + p.inQuotes.length := by
    rw [← String.length_append]
    rfl
  intro h
  have hsame := congrArg List.length (List.append_cancel_left h)
  rw [hlength, hlength, hreason, hreason] at hsame
  omega

/-- The jobs keep apart if the further source is not at, above or below an artifact. -/
theorem keepApart_testsWith {p : Path} (hdots : (".." : Name) ∉ p.names)
    (hout : ∀ name ∈ (["contracts.sol", "tests.sol"] : List Name), Node.Apart p.names ["flat", name]) :
    KeepApart (selected [] [smallContracts, testsWith p]) := by
  have hall : selected [] [smallContracts, testsWith p] = [smallContracts, testsWith p] := rfl
  have hcontracts := hout "contracts.sol" (by simp)
  have htests := hout "tests.sol" (by simp)
  have hA (name : Points) : Node.Apart ["contracts", "A.sol"] ["flat", name] := ⟨by simp, by simp⟩
  have hT (name : Points) : Node.Apart ["test", "T.sol"] ["flat", name] := ⟨by simp, by simp⟩
  rw [hall]
  refine ⟨?_, ?_, ?_⟩
  · simp [smallContracts, testsWith, hdots]
  · simp [smallContracts, testsWith, Node.Apart]
  · simp [smallContracts, testsWith, hcontracts, htests, hA, hT]

theorem asked_longSettings : Asked longSettings "/" [] { tree := smallTree [] [] } where
  sound := sound_smallTree
  accepted := ⟨_, accepted_smallSettings longPath⟩
  absolute := by decide
  usable := by
    have hextra : Points.Usable longPath := by
      rw [ofString_longPath]
      decide
    have hothers : ∀ s ∈ (smallSettings "flat").paths, Points.Usable s := by decide
    intro s hs
    rcases List.mem_append.mp hs with hs | hs
    · exact hothers s (List.mem_append_left _ hs)
    · rwa [List.mem_singleton.mp hs]
  known := by simp [Known]
  apart := by
    intro js w' h
    have hroot : Path.ofPoints "/" = ⟨.top, []⟩ := by decide
    rw [hroot] at h
    cases jobs_longSettings.symm.trans h
    exact keepApart_testsWith (by decide) (by decide)

/-- With a further source of a long name, the tests are told to fail for another reason than alone. -/
theorem run_longSettings :
    ∃ r w' told w₁, (run longSettings (some ⟨.top, []⟩) []).runIn { tree := smallTree [] [] } = (.ok r, w') ∧
      testsJob ∈ r.names ∧
      (run longSettings (some ⟨.top, []⟩) [testsJob]).runIn { tree := smallTree [] [] } = (.ok told, w₁) ∧
      r.of testsJob ≠ told := by
  have hmissing : (smallTree [] []).readBytes [] ⟨.top, ["flat", longName]⟩ = .error .notFound := by
    decide
  have hlong : halfTree.readBytes [] ⟨.top, ["flat", longName]⟩ = .error .nameTooLong := by decide
  have husable : (Path.mk .top ["flat", longName]).Usable := by decide
  obtain ⟨a, told, hrun⟩ := run_testsWith_after jobs_longSettings
  have hafter := run_testsWith (w := { tree := halfTree, told }) ⟨rfl, rfl⟩ (readSource_of_fault husable hlong)
  have halone := run_testsWith (w := { tree := smallTree [] [] }) ⟨rfl, rfl⟩
    (readSource_of_fault husable hmissing)
  rw [runIn_addTo, hafter] at hrun
  have hsingle : selected [testsJob] [smallContracts, testsWith ⟨.top, ["flat", longName]⟩] =
      [testsWith ⟨.top, ["flat", longName]⟩] := rfl
  have hrun₁ : (run longSettings (some ⟨.top, []⟩) [testsJob]).runIn { tree := smallTree [] [] } =
      (addTo {} (testsWith ⟨.top, ["flat", longName]⟩)).runIn { tree := smallTree [] [] } := by
    rw [run_of_known (by simp [Known, jobNames]), runIn_bind_ok jobs_longSettings, hsingle]
    simp only [List.foldlM_cons, List.foldlM_nil, bind_pure]
  rw [runIn_addTo, halone] at hrun₁
  refine ⟨_, _, _, _, hrun, by simp [Report.names, testsWith], hrun₁, fun h => ?_⟩
  have hfailures : [(testsJob, _)] = [(testsJob, _)] := congrArg Report.failures h
  simp only [List.cons.injEq, Prod.mk.injEq, true_and, and_true] at hfailures
  exact message_ne _ hfailures

theorem asked_topSettings : Asked topSettings "/a\x00" [] { tree := smallTree [] [] } where
  sound := sound_smallTree
  accepted :=
    ⟨[(.text "sources", .map [(.text "contracts_dir", .text "/contracts"), (.text "tests_dir", .text "/test"),
    (.text "test_extra_paths", .list [.text "s.sol"]), (.text "listing_order", .text "native")]),
    (.text "output", .map [(.text "dir", .text "/flat")])], by decide⟩
  absolute := by decide
  usable := by decide
  known := by simp [Known]
  apart := by
    intro js w' h
    cases jobs_topSettings.symm.trans h
    exact keepApart_testsWith (by decide) (by decide)

/-- With a root that cannot be used, the tests break the run off after the contracts have been merged. -/
theorem run_topSettings :
    ∃ w', (run topSettings (Path.ofPoints "/a\x00") []).runIn { tree := smallTree [] [] } =
      (.error .nulCharacter, w') ∧ w'.tree.at? ["flat"] ≠ none := by
  obtain ⟨a, told, hrun⟩ := run_testsWith_after jobs_topSettings
  have hafter := run_testsWith (w := { tree := halfTree, told }) ⟨rfl, rfl⟩
    (readSource_of_unusable (p := ⟨.top, ["a\x00", "s.sol"]⟩) (by decide) _)
  rw [runIn_addTo, hafter] at hrun
  exact ⟨_, hrun, Option.some_ne_none _⟩

/-- Not every run leaves the tree alone if it fails, nor tells of every job what it would tell of it alone. -/
theorem run_accounts_differs :
    (¬ ∀ settings root only w, Asked settings root only w → ∀ r w',
      (run settings (Path.ofPoints root) only).runIn w = (.ok r, w') →
        ∀ n ∈ r.names, ∃ w₁, (run settings (Path.ofPoints root) [n]).runIn w = (.ok (r.of n), w₁)) ∧
    ¬ ∀ settings root only w, Asked settings root only w → ∀ f w',
      (run settings (Path.ofPoints root) only).runIn w = (.error f, w') → w'.tree = w.tree := by
  constructor
  · intro h
    have hroot : Path.ofPoints "/" = ⟨.top, []⟩ := by decide
    obtain ⟨r, w', told, w₁, hrun, hname, halone, hne⟩ := run_longSettings
    rw [← hroot] at hrun halone
    obtain ⟨w₂, hsame⟩ := h _ _ _ _ asked_longSettings r w' hrun testsJob hname
    cases halone.symm.trans hsame
    exact hne rfl
  · intro h
    obtain ⟨w', hrun, hflat⟩ := run_topSettings
    rw [h _ _ _ _ asked_topSettings _ w' hrun] at hflat
    exact hflat rfl

end SolidityKit.Flatten
