/-
Running twice.

A run makes directories and writes artifacts, so that a second one finds a tree that has grown.  It gives the
same report if two things hold that the settings alone do not promise: no artifact is among the sources that
the second run finds, and no link on the way through the source directories has come to lead anywhere.

The first part is about finding the jobs again (`plans_again`) and rests on listings of trees that have grown.
The second is about doing them again (`AllDone.again`): every source is where it was and holds what it held,
and every artifact is where it can be written.  The induction is over the jobs of the first run, and carries
that whatever the second run has written so far is no source.
-/
import SolidityKit.Proofs.Flatten.Jobs
import SolidityKit.Proofs.Files.Listing
import SolidityKit.Proofs.Files.Frames
import Mathlib

namespace SolidityKit

open Files SolidityKit.Action

/-! ### Doing a job again -/

namespace Action

theorem runIn_makeDirs_of_dir {p : Path} (husable : p.Usable) {w : Workspace} {place : Place}
    {es : List (Name × Node)} (h : w.tree.LeadsTo w.cwd p place (.dir es)) :
    (makeDirs p).runIn w = (.ok (), w) := by
  have hmake : w.tree.makeDir w.cwd p = .error .alreadyExists := by
    obtain ⟨l, hway⟩ := h
    obtain ⟨p', n', l', hway'⟩ := hway.exists_link
    unfold Node.makeDir Node.findLink
    rw [Node.walk_eq_ok_iff.mpr hway']
    rfl
  have htry : (tryMakeDir p).runIn w = (.ok (some .alreadyExists), w) := by
    rw [runIn_tryMakeDir husable, hmake]
  have hunless : (unlessDir p .alreadyExists).runIn w = (.ok (), w) := by
    rw [runIn_unlessDir husable, Node.get_eq_ok_iff.mpr ⟨place, h⟩]
  unfold makeDirs
  cases p.names.length with
  | zero =>
      unfold makeDirsUpTo
      rw [runIn_bind_ok htry]
      exact hunless
  | succ missing =>
      unfold makeDirsUpTo
      rw [runIn_bind_ok htry]
      exact hunless

end Action

namespace Flatten

/-- A source reads the same in a tree that has grown, unless it was written. -/
theorem readSource_again {written : Place → Prop} {p : Path} {t : Text} {w v : Workspace} {w' : Workspace}
    (hcwd : v.cwd = w.cwd) (hgrows : Node.Grows written w.tree v.tree)
    (huntouched : ∀ place n, w.tree.LeadsTo w.cwd p place n → ¬ written place)
    (h : (readSource p).runIn w = (.ok t, w')) : (readSource p).runIn v = (.ok t, v) := by
  obtain ⟨husable, bytes, chars, hbytes, hchars, rfl⟩ := hasText_of_readSource h
  obtain ⟨place, hleads⟩ := Node.readBytes_eq_ok_iff.mp hbytes
  have hleads' := hleads.grows_file hgrows (huntouched place _ hleads)
  have hbytes' : v.tree.readBytes v.cwd p = .ok bytes := by
    rw [hcwd]
    exact Node.readBytes_eq_ok_iff.mpr ⟨place, hleads'⟩
  rw [runIn_readSource, runIn_readText husable, hbytes']
  show (((Utf8.decode bytes).mapError Failure.decoding).map Text.unifyLineEnds |>.mapError _, v) = _
  rw [hchars]
  rfl

/-- A job that has been done. -/
structure Done (j : Job) (w : Workspace) (a : Artifact) (w' : Workspace) : Prop where
  /-- Its sources were read and merged. -/
  texts : ∃ texts, (j.files.mapM readSource).runIn w = (.ok texts, w) ∧ a = j.merged texts
  /-- Its output can be used as a path. -/
  usable : j.output.Usable
  /-- Only files have changed. -/
  outside : w'.outside = w.outside
  /-- The project root is still known. -/
  knownRoot : w'.knownRoot = w.knownRoot
  /-- The directory of the artifact is there. -/
  dir : ∃ place es, w'.tree.LeadsTo w.cwd j.output.parent place (.dir es)
  /-- The artifact is there, and no other file has changed. -/
  file : ∃ place, w'.tree.LeadsTo w.cwd j.output place (.file (Utf8.encode a.text)) ∧
    Node.Grows (· = place) w.tree w'.tree

theorem done_of_run {j : Job} {w w' : Workspace} {a : Artifact} (hcwd : w.Grounded)
    (h : j.run.runIn w = (.ok a, w')) : Done j w a w' := by
  have hran := ran_run j w
  rw [h] at hran
  cases hran with
  | @done texts w₁ told hread hwrite =>
      have husable := usable_of_write hwrite
      have hwritten := written_write husable (hcwd.start _)
      rw [hwrite] at hwritten
      cases hwritten with
      | done hsteps hdir _ _ hleads hgrows =>
          obtain ⟨es', hdir'⟩ := hdir.grows_dir hgrows
          exact ⟨⟨texts, hread, rfl⟩, husable, rfl, rfl, ⟨_, es', hdir'⟩,
            ⟨_, hleads, ((grows_of_steps hsteps).mono fun _ h => h.elim).trans hgrows⟩⟩

theorem write_again {a : Artifact} (husable : a.output.Usable) {v : Workspace} (hv : v.Grounded)
    {dirPlace place : Place}
    {es : List (Name × Node)} {c : ByteArray} (hdir : v.tree.LeadsTo v.cwd a.output.parent dirPlace (.dir es))
    (hfile : v.tree.LeadsTo v.cwd a.output place (.file c)) : ∃ v', (write a).runIn v = (.ok (), v') := by
  have hwrote := wrote_writePoints husable (hv.start a.output) (Points.ofText a.text)
  unfold write
  rw [runIn_tryCatch, runIn_bind_ok (runIn_makeDirs_of_dir husable.parent hdir)]
  rw [show writeText a.output a.text = writePoints a.output (Points.ofText a.text) from rfl]
  generalize (writePoints a.output (Points.ofText a.text)).runIn v = out at hwrote
  cases hwrote with
  | refused hrefused =>
      obtain ⟨tree, hwrite⟩ := Node.writeBytes_of_leadsTo hfile ByteArray.empty
      cases hwrite.symm.trans hrefused
  | emptied hnone _ _ => cases (encodePoints_ofText a.text).symm.trans hnone
  | written _ _ _ _ _ => exact ⟨_, rfl⟩

/-- A job is done again where the tree has grown since, unless one of its sources was written; and then it
writes to the same place. -/
theorem Done.again {j : Job} {w w' v : Workspace} {a : Artifact} {written : Place → Prop} (h : Done j w a w')
    (hv : v.Grounded) (hcwd : v.cwd = w.cwd) (hgrows : Node.Grows written w'.tree v.tree)
    (hwritten : ∀ place n, w'.tree.LeadsTo w.cwd j.output place n → written place)
    (hinputs : ∀ p ∈ j.files, w.tree.Untouched w.cwd written p) :
    ∃ v', j.run.runIn v = (.ok a, v') ∧ v'.cwd = v.cwd ∧ Node.Grows written v.tree v'.tree := by
  obtain ⟨texts, hread, rfl⟩ := h.texts
  obtain ⟨place, hleads, hfile⟩ := h.file
  obtain ⟨dirPlace, es, hdir⟩ := h.dir
  obtain ⟨c, hleads'⟩ := hleads.exists_file hgrows
  obtain ⟨es', hdir'⟩ := hdir.grows_dir hgrows
  rw [← hcwd] at hleads' hdir'
  have hall : Node.Grows written w.tree v.tree := by
    refine (hfile.mono ?_).trans hgrows
    rintro q rfl
    exact hwritten q _ hleads
  have hread' : (j.files.mapM readSource).runIn v = (.ok texts, v) :=
    runIn_mapM_congr keeps_readSource (fun p hp t ht => readSource_again hcwd hall (hinputs p hp) ht) hread
  obtain ⟨v₁, hwrite⟩ := write_again (a := j.merged texts) h.usable hv hdir' hleads'
  have hran := ran_run j v
  cases hrun : j.run.runIn v with
  | mk r v' =>
      rw [hrun] at hran
      cases hran with
      | unread hfail => cases hread'.symm.trans hfail
      | unwritten hread₁ hfail =>
          cases hread'.symm.trans hread₁
          cases hwrite.symm.trans hfail
      | done hread₁ _ =>
          cases hread'.symm.trans hread₁
          have hdone := done_of_run hv hrun
          refine ⟨_, rfl, cwd_eq_of_outside hdone.outside, ?_⟩
          obtain ⟨place', hleads'', hfile'⟩ := hdone.file
          refine hfile'.mono ?_
          rintro q rfl
          obtain ⟨n, hsame⟩ := hleads'.grows hfile'
          obtain ⟨rfl, -⟩ := hsame.unique hleads''
          exact hwritten _ _ hleads

/-! ### Doing all jobs again -/

/-- Jobs that have all been done, one after the other. -/
inductive AllDone : List Job → Report → Workspace → Report → Workspace → Prop
  /-- There was nothing to do. -/
  | nil {r : Report} {w : Workspace} : AllDone [] r w r w
  /-- The first job was done, and then the others. -/
  | cons {j : Job} {js : List Job} {r r' : Report} {w w₁ w' : Workspace} {a : Artifact}
      (hjob : j.run.runIn w = (.ok a, w₁))
      (hrest : AllDone js { r with artifacts := r.artifacts ++ [(j.name, a)] } w₁ r' w') :
      AllDone (j :: js) r w r' w'

theorem AllDone.foldlM {js : List Job} {r r' : Report} {w w' : Workspace} (h : AllDone js r w r' w') :
    (js.foldlM addTo r).runIn w = (.ok r', w') := by
  induction h with
  | nil => rfl
  | @cons j js r r' w w₁ w' a hjob _ ih =>
      have hadd : (addTo r j).runIn w = (.ok { r with artifacts := r.artifacts ++ [(j.name, a)] }, w₁) := by
        rw [runIn_addTo, hjob]
      rw [List.foldlM_cons, runIn_bind_ok hadd, ih]

/-- What came of a job is an artifact or a failure in the report. -/
theorem addTo_cases {r r₁ : Report} {j : Job} {w w₁ : Workspace} (h : (addTo r j).runIn w = (.ok r₁, w₁)) :
    (∃ a, j.run.runIn w = (.ok a, w₁) ∧ r₁ = { r with artifacts := r.artifacts ++ [(j.name, a)] }) ∨
      ∃ f w', j.run.runIn w = (.error (.job f), w') ∧ w₁.tree = w'.tree ∧
        r₁ = { r with failures := r.failures ++ [(j.name, f.message)] } := by
  rw [runIn_addTo] at h
  cases hjob : j.run.runIn w with
  | mk out w' =>
      rw [hjob] at h
      cases out with
      | ok a =>
          cases h
          exact Or.inl ⟨a, rfl, rfl⟩
      | error f =>
          cases f <;> cases h
          exact Or.inr ⟨_, w', rfl, rfl, rfl⟩

/-- Every job leaves an artifact or a failure, and a failure stays in the report. -/
theorem length_of_foldlM {js : List Job} {r r' : Report} {w w' : Workspace}
    (h : (js.foldlM addTo r).runIn w = (.ok r', w')) :
    r'.artifacts.length + r'.failures.length = r.artifacts.length + r.failures.length + js.length ∧
      r.failures.length ≤ r'.failures.length := by
  induction js generalizing r w with
  | nil =>
      cases h
      exact ⟨rfl, le_refl _⟩
  | cons j js ih =>
      rw [List.foldlM_cons] at h
      obtain ⟨r₁, w₁, hadd, hrest⟩ := runIn_bind_eq_ok h
      obtain ⟨hsum, hle⟩ := ih hrest
      rcases addTo_cases hadd with ⟨a, -, rfl⟩ | ⟨f, w₂, -, -, rfl⟩
      · simp only [List.length_append, List.length_cons, List.length_nil] at hsum hle ⊢
        omega
      · simp only [List.length_append, List.length_cons, List.length_nil] at hsum hle ⊢
        omega

/-- Where no job has failed, all have been done. -/
theorem allDone_of_foldlM {js : List Job} {r r' : Report} {w w' : Workspace}
    (h : (js.foldlM addTo r).runIn w = (.ok r', w')) (hok : r'.failures = []) : AllDone js r w r' w' := by
  induction js generalizing r w with
  | nil =>
      cases h
      exact .nil
  | cons j js ih =>
      rw [List.foldlM_cons] at h
      obtain ⟨r₁, w₁, hadd, hrest⟩ := runIn_bind_eq_ok h
      obtain ⟨-, hle⟩ := length_of_foldlM hrest
      rcases addTo_cases hadd with ⟨a, hjob, rfl⟩ | ⟨f, w₂, -, -, rfl⟩
      · exact .cons hjob (ih hrest)
      · rw [hok] at hle
        simp at hle

theorem Done.grounded {j : Job} {w w' : Workspace} {a : Artifact} (h : Done j w a w') (hcwd : w.Grounded) :
    w'.Grounded := by
  obtain ⟨place, -, hfile⟩ := h.file
  obtain ⟨es, hes⟩ := hcwd.grows hfile
  exact ⟨es, by rw [cwd_eq_of_outside h.outside]; exact hes⟩

theorem AllDone.outside {js : List Job} {r r' : Report} {w w' : Workspace} (h : AllDone js r w r' w')
    (hcwd : w.Grounded) : w'.outside = w.outside ∧ w'.knownRoot = w.knownRoot := by
  induction h with
  | nil => exact ⟨rfl, rfl⟩
  | cons hjob _ ih =>
      have hdone := done_of_run hcwd hjob
      obtain ⟨houtside, hknown⟩ := ih (hdone.grounded hcwd)
      exact ⟨houtside.trans hdone.outside, hknown.trans hdone.knownRoot⟩

theorem AllDone.grows {js : List Job} {r r' : Report} {w w' : Workspace} {written : Place → Prop}
    (h : AllDone js r w r' w') (hcwd : w.Grounded)
    (hwritten : ∀ j ∈ js, ∀ place n, w'.tree.LeadsTo w.cwd j.output place n → written place) :
    Node.Grows written w.tree w'.tree := by
  induction h with
  | nil => exact .refl _ _
  | @cons j js r r' w w₁ w' a hjob _ ih =>
      have hdone := done_of_run hcwd hjob
      have hcwd₁ : w₁.cwd = w.cwd := cwd_eq_of_outside hdone.outside
      have hrest : Node.Grows written w₁.tree w'.tree :=
        ih (hdone.grounded hcwd) (by rw [hcwd₁]; exact fun k hk => hwritten k (List.mem_cons_of_mem j hk))
      obtain ⟨place, hleads, hfile⟩ := hdone.file
      refine (hfile.mono ?_).trans hrest
      rintro q rfl
      obtain ⟨n, hleads'⟩ := hleads.grows hrest
      exact hwritten j List.mem_cons_self q n hleads'

/-- Jobs that have been done are done again where the tree has grown since, unless one of their
sources was written. -/
theorem AllDone.again {js : List Job} {r r' : Report} {w w' : Workspace} {written : Place → Prop}
    (h : AllDone js r w r' w') (hcwd : w.Grounded)
    (hwritten : ∀ j ∈ js, ∀ place n, w'.tree.LeadsTo w.cwd j.output place n → written place)
    (hinputs : ∀ j ∈ js, ∀ p ∈ j.files, w'.tree.Untouched w.cwd written p) {v : Workspace} (hv : v.cwd = w.cwd)
    (hlater : Node.Grows written w'.tree v.tree) : ∃ v', AllDone js r v r' v' := by
  induction h generalizing v with
  | nil => exact ⟨v, .nil⟩
  | @cons j js r r' w w₁ w' a hjob hrest ih =>
      have hdone := done_of_run hcwd hjob
      have hcwd₁ : w₁.cwd = w.cwd := cwd_eq_of_outside hdone.outside
      have hall : Node.Grows written w.tree w'.tree := (AllDone.cons hjob hrest).grows hcwd hwritten
      rw [← hcwd₁] at hwritten hinputs
      have hgrows₁ : Node.Grows written w₁.tree w'.tree :=
        hrest.grows (hdone.grounded hcwd) fun k hk => hwritten k (List.mem_cons_of_mem j hk)
      have hplace (q : Place) (n : Node) (hq : w₁.tree.LeadsTo w.cwd j.output q n) : written q := by
        obtain ⟨n', hq'⟩ := hq.grows hgrows₁
        rw [← hcwd₁] at hq'
        exact hwritten j List.mem_cons_self q n' hq'
      have hsources (p : Path) (hp : p ∈ j.files) : w.tree.Untouched w.cwd written p := by
        intro q n hq
        obtain ⟨n', hq'⟩ := hq.grows hall
        rw [← hcwd₁] at hq'
        exact hinputs j List.mem_cons_self p hp q n' hq'
      have hground : v.Grounded := by
        obtain ⟨es, hes⟩ := hcwd.grows (hall.trans hlater)
        exact ⟨es, by rw [hv]; exact hes⟩
      obtain ⟨v₁, hrun, hv₁, hgrown⟩ := hdone.again hground hv (hgrows₁.trans hlater) hplace hsources
      obtain ⟨v', hagain⟩ := ih (hdone.grounded hcwd) (fun k hk => hwritten k (List.mem_cons_of_mem j hk))
        (fun k hk => hinputs k (List.mem_cons_of_mem j hk)) (hv₁.trans (hv.trans hcwd₁.symm))
        (hlater.trans hgrown)
      exact ⟨v', .cons hrun hagain⟩

/-! ### Finding the jobs again -/

theorem discover_again {written : Place → Prop} {dir : Path} {q : Query} {w v : Workspace} {fs : List Path}
    (hcwd : v.cwd = w.cwd) (hgrows : Node.Grows written w.tree v.tree) (htidy : w.tree.Tidy)
    (hlinks : w.tree.LinksStayBelow v.tree w.cwd dir) (h : (discover dir q).runIn w = (.ok fs, w)) :
    ∃ fs', (discover dir q).runIn v = (.ok fs', v) ∧
      ((∀ p ∈ fs', v.tree.Untouched w.cwd written p) → fs' = fs) := by
  obtain ⟨-, horder, husable, found, hfound, rfl⟩ := discover_eq_ok_iff.mp h
  obtain ⟨found', hfound', hsame⟩ := Node.relists_filesBelow hgrows htidy hlinks hfound
  refine ⟨found' ++ q.extra,
    discover_eq_ok_iff.mpr ⟨rfl, horder, husable, found', by rw [hcwd, hfound'], rfl⟩, ?_⟩
  intro hgood
  rw [hsame fun p hp => hgood p (List.mem_append_left _ hp)]

/-- What settings describe is found again where the tree has grown, unless something that was
written is found. -/
theorem plans_again {settings : Settings} {b : Path} {written : Place → Prop} {w v : Workspace} {plan : Plan}
    (h : Plans settings b w plan) (houtside : v.outside = w.outside) (hgrows : Node.Grows written w.tree v.tree)
    (htidy : w.tree.Tidy) (hcontracts : w.tree.LinksStayBelow v.tree w.cwd plan.contracts)
    (htests : w.tree.LinksStayBelow v.tree w.cwd plan.tests) :
    ∃ plan', Plans settings b v plan' ∧ plan'.output = plan.output ∧
      ((∀ j ∈ plan'.jobs settings, ∀ p ∈ j.files, v.tree.Untouched w.cwd written p) →
        plan'.jobs settings = plan.jobs settings) := by
  have hcwd := cwd_eq_of_outside houtside
  have hlocate (cs : Points) : Sees (Project.locatePoints cs b) := sees_locate _ b
  obtain ⟨production, hproduction, hsame⟩ := discover_again hcwd hgrows htidy hcontracts h.production
  obtain ⟨testing, htesting, hsame'⟩ := discover_again hcwd hgrows htidy htests h.testing
  obtain ⟨mocks, hmocks, hsame''⟩ := discover_again hcwd hgrows htidy hcontracts h.mocks
  refine ⟨{ plan with production, testing, mocks }, ?_, rfl, fun hgood => ?_⟩
  · exact {
      contracts := (hlocate _).runIn_eq houtside h.contracts
      tests := (hlocate _).runIn_eq houtside h.tests
      output := (hlocate _).runIn_eq houtside h.output
      production := hproduction
      extra := (Sees.mapM hlocate _).runIn_eq houtside h.extra
      testing := htesting
      mocks := hmocks }
  · have hproduction' := hgood _ List.mem_cons_self
    have htests' := hgood _ (List.mem_cons_of_mem _ List.mem_cons_self)
    rw [show production = plan.production from hsame hproduction',
      show testing = plan.testing from hsame' fun p hp => htests' p (List.mem_append_left _ hp),
      show mocks = plan.mocks from hsame'' fun p hp => htests' p (List.mem_append_right _ hp)]

theorem base_again {base : Option Path} {b : Path} {w w₀ v : Workspace}
    (h : (base.elim Project.root pure : Action Path).runIn w = (.ok b, w₀))
    (hknown : v.knownRoot = w₀.knownRoot) :
    (base.elim Project.root pure : Action Path).runIn v = (.ok b, v) := by
  cases base with
  | some b' =>
      cases h
      rfl
  | none => exact Project.root_of_knownRoot (hknown.trans (Project.knownRoot_of_root h))

/-! ### Running again -/

/-- A directory that jobs are listed from. -/
def SourceDir (settings : Settings) (base : Option Path) (w : Workspace) (p : Path) : Prop :=
  ∃ b w₀, (base.elim Project.root pure : Action Path).runIn w = (.ok b, w₀) ∧
    ∃ s ∈ [settings.contractsDir, settings.testsDir], (Project.locatePoints s b).runIn w₀ = (.ok p, w₀)

/-- One of the sources of some jobs is an artifact. -/
def Ingests (js : List Job) (w : Workspace) : Prop :=
  ∃ j ∈ js, ∃ p ∈ j.files, ∃ k ∈ js, ∃ place n n',
    w.tree.LeadsTo w.cwd p place n ∧ w.tree.LeadsTo w.cwd k.output place n'

theorem failures_eq_nil {js : List Job} {only : List Points} {settings : Settings} {plan : Plan} {r : Report}
    {w w' : Workspace} (hjs : js = selected only (plan.jobs settings))
    (h : (js.foldlM addTo {}).runIn w = (.ok r, w')) (hboth : ∀ n ∈ jobNames, ∃ a, (n, a) ∈ r.artifacts) :
    r.failures = [] := by
  obtain ⟨hsum, -⟩ := length_of_foldlM h
  have hjobs : js.length ≤ 2 := by
    rw [hjs]
    exact List.length_filter_le _ _
  have hartifacts : 2 ≤ r.artifacts.length := by
    have hsub : jobNames ⊆ r.artifacts.map Prod.fst := by
      intro n hn
      obtain ⟨a, ha⟩ := hboth n hn
      exact List.mem_map.mpr ⟨_, ha, rfl⟩
    have hle := (List.subperm_of_subset (by decide : jobNames.Nodup) hsub).length_le
    rwa [List.length_map] at hle
  have hnone : r.failures.length = 0 := by
    simp only [List.length_nil] at hsum
    omega
  exact List.length_eq_zero_iff.mp hnone

/-- After a run in which both jobs succeeded, a second run gives the same report, as long as it finds
no artifact among its sources and no link below the source directories has come to lead to a directory
or into a fault. -/
theorem run_again {settings : Settings} {base : Option Path} {only : List Points} {w w₁ : Workspace}
    {r : Report} (htidy : w.tree.Tidy) (hcwd : w.Grounded) (h : (run settings base only).runIn w = (.ok r, w₁))
    (hboth : ∀ n ∈ jobNames, ∃ a, (n, a) ∈ r.artifacts)
    (hlinks : ∀ p, SourceDir settings base w p → w.tree.LinksStayBelow w₁.tree w.cwd p)
    (hinputs : ∀ js w', (jobs settings base).runIn w₁ = (.ok js, w') → ¬ Ingests js w₁) :
    ∃ w₂, (run settings base only).runIn w₁ = (.ok r, w₂) := by
  obtain ⟨hknown, b, w₀, plan, hb, hplan, hfold⟩ := run_eq_ok_iff.mp h
  have hbare : w₀.bare = w.bare := by
    have hkeeps : Keeps Workspace.bare (base.elim Project.root pure : Action Path) := by
      cases base with
      | none => exact Project.keeps_root
      | some b' => exact Keeps.pure b'
    have hkept := hkeeps w
    rwa [hb] at hkept
  have htree := tree_eq_of_bare hbare
  have hcwd₀ := cwd_eq_of_bare hbare
  have hground : w₀.Grounded := by
    unfold Workspace.Grounded
    rwa [htree, hcwd₀]
  have hall := allDone_of_foldlM hfold (failures_eq_nil rfl hfold hboth)
  obtain ⟨houtside, hroot⟩ := hall.outside hground
  have hcwd₁ : w₁.cwd = w₀.cwd := cwd_eq_of_outside houtside
  -- what the first run may have written
  obtain ⟨written, hwritten⟩ : ∃ written : Place → Prop, ∀ q, written q ↔
      ∃ j ∈ plan.jobs settings, ∃ n, w₁.tree.LeadsTo w₀.cwd j.output q n := ⟨_, fun _ => Iff.rfl⟩
  have houtputs (j : Job) (hj : j ∈ selected only (plan.jobs settings)) (q : Place) (n : Node)
      (hq : w₁.tree.LeadsTo w₀.cwd j.output q n) : written q :=
    (hwritten q).mpr ⟨j, List.mem_of_mem_filter hj, n, hq⟩
  have hgrows := hall.grows hground houtputs
  have hstays (p : Path) (s : Points) (hs : s ∈ [settings.contractsDir, settings.testsDir])
      (hp : (Project.locatePoints s b).runIn w₀ = (.ok p, w₀)) : w₀.tree.LinksStayBelow w₁.tree w₀.cwd p := by
    rw [htree, hcwd₀]
    exact hlinks p ⟨b, w₀, hb, s, hs, hp⟩
  obtain ⟨plan', hplan', houtput, hsame⟩ := plans_again hplan houtside hgrows (by rwa [htree])
    (hstays _ _ (by simp) hplan.contracts) (hstays _ _ (by simp) hplan.tests)
  have hb₁ := base_again hb hroot
  have hjobs₁ : (jobs settings base).runIn w₁ = (.ok (plan'.jobs settings), w₁) := by
    rw [jobs_eq, runIn_bind_ok hb₁]
    exact jobs_eq_ok_iff.mpr ⟨rfl, plan', hplan', rfl⟩
  have huntouched (j : Job) (hj : j ∈ plan'.jobs settings) (p : Path) (hp : p ∈ j.files) :
      w₁.tree.Untouched w₀.cwd written p := by
    intro q n hq hw
    obtain ⟨k, hk, n', hk'⟩ := (hwritten q).mp hw
    obtain ⟨k', hkmem, hkout⟩ : ∃ k' ∈ plan'.jobs settings, k'.output = k.output := by
      have hmap : (plan'.jobs settings).map Job.output = (plan.jobs settings).map Job.output := by
        unfold Plan.jobs
        rw [houtput]
        rfl
      have hmem : k.output ∈ (plan'.jobs settings).map Job.output := by
        rw [hmap]
        exact List.mem_map.mpr ⟨k, hk, rfl⟩
      exact List.mem_map.mp hmem
    refine hinputs _ _ hjobs₁ ⟨j, hj, p, hp, k', hkmem, q, n, n', ?_, ?_⟩
    · rwa [hcwd₁]
    · rwa [hcwd₁, hkout]
  have hsame := hsame huntouched
  rw [hsame] at huntouched
  obtain ⟨w₂, hagain⟩ :=
    hall.again hground houtputs (fun j hj => huntouched j (List.mem_of_mem_filter hj)) hcwd₁
    (.refl _ _)
  refine ⟨w₂, run_eq_ok_iff.mpr ⟨hknown, b, w₁, plan', hb₁, hplan', ?_⟩⟩
  rw [hsame]
  exact hagain.foldlM

/-! ### A small project -/

/-- Where there are no links, none can come to lead anywhere. -/
theorem linksStayBelow_of_plain {before : Node} (htidy : before.Tidy) (hplain : before.Plain) (after : Node)
    (cwd : Place) (path : Path) : before.LinksStayBelow after cwd path := by
  intro start es left hway place es' left' hreached name target hlink _
  have hat : ∀ o, Node.Reached before (start, es, left) o → before.at? o.1 = some (.dir o.2.1) := by
    intro o ho
    induction ho with
    | start => exact hway.at_there
    | @down q fs l k n o' _ hn hopen ih =>
        have hthere : before.at? (q ++ [k]) = some n := by
          rw [Node.at?_entry ih, Node.lookup_of_mem (htidy _ _ ih).1 hn]
        cases n with
        | link t => exact absurd hthere (hplain _ t)
        | file c => cases hopen
        | dir sub =>
            cases hopen
            exact hthere
  have hthere := hat _ hreached
  refine absurd ?_ (hplain (place ++ [name]) target)
  rw [Node.at?_entry hthere, Node.lookup_of_mem (htidy _ _ hthere).1 hlink]

/-- A run in which both jobs can be done. -/
theorem run_of_written {settings : Settings} {b : Path} {j k : Job} {t : Node} {told : List Line}
    (ts us : List Text) (t₁ t₂ : Node)
    (hjobs : (jobs settings b).runIn { tree := t, told } = (.ok [j, k], { tree := t, told }))
    (hj : (j.files.mapM readSource).runIn { tree := t, told } = (.ok ts, { tree := t, told }))
    (hj' : (write (j.merged ts)).runIn { tree := t, told } = (.ok (), { tree := t₁, told }))
    (hk : ∀ told, (k.files.mapM readSource).runIn { tree := t₁, told } = (.ok us, { tree := t₁, told }))
    (hk' : ∀ told, (write (k.merged us)).runIn { tree := t₁, told } = (.ok (), { tree := t₂, told })) :
    ∃ told₂, (run settings b []).runIn { tree := t, told } =
      (.ok { artifacts := [(j.name, j.merged ts), (k.name, k.merged us)] }, { tree := t₂, told := told₂ }) := by
  obtain ⟨told₁, hrun₁⟩ := runIn_run_of hj hj'
  obtain ⟨told₂, hrun₂⟩ := runIn_run_of (hk told₁) (hk' told₁)
  refine ⟨told₂, ?_⟩
  obtain ⟨-, plan, -, hplan⟩ := jobs_eq_ok_iff.mp hjobs
  have hall : selected [] [j, k] = [j, k] := by
    rw [hplan]
    rfl
  rw [run_of_known (by simp [Known]), runIn_bind_ok hjobs, hall]
  exact (AllDone.cons hrun₁ (.cons hrun₂ .nil)).foldlM

/-- A source. -/
def smallSource : Text := "contract C \x7b\x7d\n".toList

/-- What becomes of it alone. -/
def smallText : Text := "contract C \x7b\x7d".toList

/-- What becomes of it together with two artifacts. -/
def ingestedText : Text := "contract C \x7b\x7d\ncontract C \x7b\x7d\ncontract C \x7b\x7d".toList

/-- A project of one contract and one test, with what else is among its contracts and at its top. -/
def smallTree (among made : List (Name × Node)) : Node :=
  .dir (("contracts", .dir (("A.sol", .file (Utf8.encode smallSource)) :: among)) ::
    ("test", .dir [("T.sol", .file (Utf8.encode smallSource))]) :: made)

/-- An artifact of its contracts. -/
def contractsFile (t : Text) : Name × Node := ("contracts.sol", .file (Utf8.encode t))

/-- The artifact of its test. -/
def testsFile : Name × Node := ("tests.sol", .file (Utf8.encode smallText))

/-- A directory of its own for both. -/
def flatDir : Name × Node := ("flat", .dir [contractsFile smallText, testsFile])

/-- Settings for it, with a directory for artifacts. -/
def smallSettings (out : Name) : Settings :=
  { testExtraPaths := [], outputDir := out, listingOrder := "native" }

/-- Its jobs, of some contracts and of its test with some further sources. -/
def smallJobs (out : Name) (fs extra : List Path) : List Job :=
  [⟨contractsJob, fs, ⟨.top, [out, "contracts.sol"]⟩⟩,
    ⟨testsJob, ⟨.top, ["test", "T.sol"]⟩ :: extra, ⟨.top, [out, "tests.sol"]⟩⟩]

/-- The report of its jobs. -/
def smallReport (out : Name) (t : Text) (n : Nat) : Report :=
  { artifacts := [(contractsJob, ⟨⟨.top, [out, "contracts.sol"]⟩, t, n⟩),
      (testsJob, ⟨⟨.top, [out, "tests.sol"]⟩, smallText, 1⟩)] }

/-- What the directories of contracts and of tests list. -/
structure Lists (t : Node) (fs : List Path) : Prop where
  /-- The contracts. -/
  contracts : t.filesBelow [] { wanted := fun n => !contains "Mock" n, sorted := false } ⟨.top, ["contracts"]⟩ =
    .ok fs
  /-- The test. -/
  tests : t.filesBelow [] { sorted := false } ⟨.top, ["test"]⟩ = .ok [⟨.top, ["test", "T.sol"]⟩]
  /-- No mocks. -/
  mocks : t.filesBelow [] { wanted := contains "Mock", sorted := false } ⟨.top, ["contracts"]⟩ = .ok []

/-- The jobs of settings that lead to these directories. -/
theorem jobs_of_lists {settings : Settings} {b : Path} {t : Node} {told : List Line} {out : Name}
    {fs extra : List Path} (h : Lists t fs) (hsettings : settings = { smallSettings out with
      contractsDir := settings.contractsDir, testsDir := settings.testsDir, outputDir := settings.outputDir,
      testExtraPaths := settings.testExtraPaths })
    (hcontracts : (Project.locatePoints settings.contractsDir b).runIn { tree := t, told } =
      (.ok ⟨.top, ["contracts"]⟩, { tree := t, told }))
    (htests : (Project.locatePoints settings.testsDir b).runIn { tree := t, told } =
      (.ok ⟨.top, ["test"]⟩, { tree := t, told }))
    (hout : (Project.locatePoints settings.outputDir b).runIn { tree := t, told } =
      (.ok ⟨.top, [out]⟩, { tree := t, told }))
    (hextra : (settings.testExtraPaths.mapM fun p => Project.locatePoints p b).runIn { tree := t, told } =
      (.ok extra, { tree := t, told })) :
    (jobs settings b).runIn { tree := t, told } = (.ok (smallJobs out fs extra), { tree := t, told }) := by
  have hnames : Path.ofPoints ("contracts.sol" : Points) = ⟨.current, ["contracts.sol"]⟩ ∧
      Path.ofPoints ("tests.sol" : Points) = ⟨.current, ["tests.sol"]⟩ := by decide
  have husable : (Path.mk .top ["contracts"]).Usable ∧ (Path.mk .top ["test"]).Usable := by decide
  have horder : ("native" : Points) ∈ Settings.listingOrders := by decide
  refine jobs_eq_ok_iff.mpr ⟨rfl, ⟨⟨.top, ["contracts"]⟩, ⟨.top, ["test"]⟩, ⟨.top, [out]⟩, fs, extra,
    ⟨.top, ["test", "T.sol"]⟩ :: extra, []⟩, ⟨hcontracts, htests, hout, ?_, hextra, ?_, ?_⟩, ?_⟩
  · rw [hsettings]
    exact discover_eq_ok_iff.mpr ⟨rfl, horder, husable.1, fs, h.contracts, (List.append_nil fs).symm⟩
  · rw [hsettings]
    exact discover_eq_ok_iff.mpr ⟨rfl, horder, husable.2, _, h.tests, rfl⟩
  · rw [hsettings]
    exact discover_eq_ok_iff.mpr ⟨rfl, horder, husable.1, [], h.mocks, rfl⟩
  · rw [hsettings]
    show _ = [Job.mk contractsJob fs (Path.join ⟨.top, [out]⟩ (Path.ofPoints "contracts.sol")),
      Job.mk testsJob _ (Path.join ⟨.top, [out]⟩ (Path.ofPoints "tests.sol"))]
    rw [hnames.1, hnames.2, List.append_nil]
    rfl

theorem jobs_smallTree (out : Name) {t : Node} {fs : List Path} (h : Lists t fs) (told : List Line)
    (hout : (Project.locatePoints out (some ⟨.top, []⟩)).runIn { tree := t, told } =
      (.ok ⟨.top, [out]⟩, { tree := t, told })) :
    (jobs (smallSettings out) (some ⟨.top, []⟩)).runIn { tree := t, told } =
      (.ok (smallJobs out fs []), { tree := t, told }) :=
  jobs_of_lists h rfl (by cbv) (by cbv) hout rfl

theorem lists_smallTree : Lists (smallTree [] []) [⟨.top, ["contracts", "A.sol"]⟩] :=
  ⟨by decide, by decide, by decide⟩

theorem merged_smallSource (j : Job) : j.merged [smallSource] = ⟨j.output, smallText, 1⟩ := by
  have htext : (Source.merge [smallSource] {}).1 = smallText := by decide
  rw [← htext]
  rfl

theorem merged_ingested (j : Job) :
    j.merged [smallSource, smallText, smallText] = ⟨j.output, ingestedText, 3⟩ := by
  have htext : (Source.merge [smallSource, smallText, smallText] {}).1 = ingestedText := by decide
  rw [← htext]
  rfl

theorem run_flat {among : List (Name × Node)}
    (hjobs : (jobs (smallSettings "flat") (some ⟨.top, []⟩)).runIn { tree := smallTree among [] } =
      (.ok (smallJobs "flat" [⟨.top, ["contracts", "A.sol"]⟩] []), { tree := smallTree among [] })) :
    ∃ told, (run (smallSettings "flat") (some ⟨.top, []⟩) []).runIn { tree := smallTree among [] } =
      (.ok (smallReport "flat" smallText 1),
        { tree := smallTree among [flatDir], told }) := by
  have h := run_of_written [smallSource] [smallSource]
    (smallTree among [("flat", .dir [contractsFile smallText])]) (smallTree among [flatDir]) hjobs (by cbv)
  rw [merged_smallSource, merged_smallSource] at h
  exact h (by cbv) (fun told => by cbv) (fun told => by cbv)

/-- The small project, with a directory of its own for artifacts, gives the same report twice. -/
theorem run_again_smallTree :
    ∃ w₁ w₂, (run (smallSettings "flat") (some ⟨.top, []⟩) []).runIn { tree := smallTree [] [] } =
        (.ok (smallReport "flat" smallText 1), w₁) ∧
      (run (smallSettings "flat") (some ⟨.top, []⟩) []).runIn w₁ =
        (.ok (smallReport "flat" smallText 1), w₂) := by
  have hsound : (smallTree [] []).Sound := Node.sound_of_isSound (by decide)
  have hflat : (smallTree [] [flatDir]).Sound :=
    Node.sound_of_isSound (by decide)
  have hlists : Lists (smallTree [] [flatDir]) [⟨.top, ["contracts", "A.sol"]⟩] :=
    ⟨by decide, by decide, by decide⟩
  obtain ⟨told, hrun⟩ := run_flat (jobs_smallTree "flat" lists_smallTree [] (by cbv))
  have hjobs := jobs_smallTree "flat" hlists told (by cbv)
  have hboth : ∀ n ∈ jobNames, n ∈ (smallReport "flat" smallText 1).artifacts.map Prod.fst := by decide
  have hdirect : ∀ j ∈ smallJobs "flat" [⟨.top, ["contracts", "A.sol"]⟩] [], ∀ p ∈ j.output :: j.files,
    p.Direct := by
    decide
  have hapart : ∀ j ∈ smallJobs "flat" [⟨.top, ["contracts", "A.sol"]⟩] [], ∀ p ∈ j.files,
      ∀ k ∈ smallJobs "flat" [⟨.top, ["contracts", "A.sol"]⟩] [], p.names ≠ k.output.names := by decide
  have hinputs (js : List Job) (w' : Workspace) (hjs : (jobs (smallSettings "flat") (some ⟨.top, []⟩)).runIn
      { tree := smallTree [] [flatDir], told } = (.ok js, w')) :
      ¬ Ingests js { tree := smallTree [] [flatDir], told } := by
    cases hjobs.symm.trans hjs
    rintro ⟨j, hj, p, hp, k, hk, place, n, n', hn, hn'⟩
    obtain ⟨rfl, -⟩ := (Node.leadsTo_iff hflat.plain (hdirect j hj p (List.mem_cons_of_mem _ hp))).mp hn
    obtain ⟨hsame, -⟩ := (Node.leadsTo_iff hflat.plain (hdirect k hk _ List.mem_cons_self)).mp hn'
    exact hapart j hj p hp k hk hsame
  have hground : Workspace.Grounded { tree := smallTree [] [] } := ⟨_, rfl⟩
  obtain ⟨w₂, hagain⟩ := @run_again (smallSettings "flat") (some ⟨.top, []⟩) [] { tree := smallTree [] [] }
    { tree := smallTree [] [flatDir], told } (smallReport "flat" smallText 1) hsound.tidy hground hrun
    (fun n hn => by simpa using hboth n hn)
    (fun p _ => linksStayBelow_of_plain hsound.tidy hsound.plain _ _ p) hinputs
  exact ⟨_, w₂, hrun, hagain⟩

/-- A run right after one in which both jobs succeeded comes to the same texts. -/
def RunsAlike (settings : Settings) (b : Path) (w : Workspace) : Prop :=
  ∀ r w₁, (run settings b []).runIn w = (.ok r, w₁) → (∀ n ∈ jobNames, n ∈ r.artifacts.map Prod.fst) →
    ∃ r₂ w₂, (run settings b []).runIn w₁ = (.ok r₂, w₂) ∧
      r₂.artifacts.map (fun e => (e.1, e.2.text)) = r.artifacts.map (fun e => (e.1, e.2.text))

/-- Artifacts that go where contracts are looked for are merged into the next one. -/
theorem not_runsAlike_of_ingested :
    ¬ RunsAlike (smallSettings "contracts") ⟨.top, []⟩ { tree := smallTree [] [] } := by
  have hlists : Lists (smallTree [contractsFile smallText, testsFile] []) [⟨.top, ["contracts", "A.sol"]⟩,
      ⟨.top, ["contracts", "contracts.sol"]⟩, ⟨.top, ["contracts", "tests.sol"]⟩] :=
    ⟨by decide, by decide, by decide⟩
  obtain ⟨told, hfirst⟩ : ∃ told, (run (smallSettings "contracts") (some ⟨.top, []⟩) []).runIn
      { tree := smallTree [] [] } =
        (.ok (smallReport "contracts" smallText 1),
          { tree := smallTree [contractsFile smallText, testsFile] [], told }) := by
    have h := run_of_written [smallSource] [smallSource] (smallTree [contractsFile smallText] [])
      (smallTree [contractsFile smallText, testsFile] [])
      (jobs_smallTree "contracts" lists_smallTree [] (by cbv)) (by cbv)
    rw [merged_smallSource, merged_smallSource] at h
    exact h (by cbv) (fun told => by cbv) (fun told => by cbv)
  obtain ⟨told₂, hsecond⟩ : ∃ told₂, (run (smallSettings "contracts") (some ⟨.top, []⟩) []).runIn
      { tree := smallTree [contractsFile smallText, testsFile] [], told } =
        (.ok (smallReport "contracts" ingestedText 3),
          { tree := smallTree [contractsFile ingestedText, testsFile] [], told := told₂ }) := by
    have h := run_of_written [smallSource, smallText, smallText] [smallSource]
      (smallTree [contractsFile ingestedText, testsFile] [])
      (smallTree [contractsFile ingestedText, testsFile] [])
      (jobs_smallTree "contracts" hlists told (by cbv)) (by cbv)
    rw [merged_ingested, merged_smallSource] at h
    exact h (by cbv) (fun told => by cbv) (fun told => by cbv)
  intro h
  obtain ⟨r₂, w₂, hrun, hsame⟩ := h _ _ hfirst (by decide)
  cases hsecond.symm.trans hrun
  exact absurd hsame (by decide)

/-- The small project with a link to somewhere below an artifact. -/
def linkedTree (made : List (Name × Node)) : Node := smallTree [("d", .link "../flat/contracts.sol/x")] made

/-- The link leads nowhere before the artifact is there, and then ends in a fault. -/
theorem not_runsAlike_of_link : ¬ RunsAlike (smallSettings "flat") ⟨.top, []⟩ { tree := linkedTree [] } := by
  have hlists : Lists (linkedTree []) [⟨.top, ["contracts", "A.sol"]⟩] :=
    ⟨by decide, by decide, by decide⟩
  have hfault : (linkedTree [flatDir]).filesBelow []
      { wanted := fun n => !contains "Mock" n, sorted := false } ⟨.top, ["contracts"]⟩ =
        .error ⟨.notDirectory, "/contracts/d"⟩ := by decide
  obtain ⟨told, hfirst⟩ := run_flat (jobs_smallTree "flat" hlists [] (by cbv))
  intro h
  obtain ⟨r₂, w₂, hrun, -⟩ := h _ _ hfirst (by decide)
  obtain ⟨-, b, w₀, plan, hb, hplan, -⟩ := run_eq_ok_iff.mp hrun
  cases hb
  have hwhere : (Project.locatePoints "contracts" (some ⟨.top, []⟩)).runIn
      { tree := linkedTree [flatDir], told } =
        (.ok ⟨.top, ["contracts"]⟩, { tree := linkedTree [flatDir], told }) := by
    cbv
  have hdir : plan.contracts = ⟨.top, ["contracts"]⟩ := by
    obtain ⟨hok, -⟩ := Prod.mk.injEq .. ▸ hplan.contracts.symm.trans hwhere
    exact Except.ok.inj hok
  obtain ⟨-, -, -, found, hfound, -⟩ := discover_eq_ok_iff.mp hplan.production
  rw [hdir] at hfound
  cases hfault.symm.trans hfound

/-- A second run does not always come to what the first one came to. -/
theorem run_again_differs :
    (∃ es, Settings.ofEntries es = .ok (smallSettings "contracts")) ∧
      ¬ RunsAlike (smallSettings "contracts") ⟨.top, []⟩ { tree := smallTree [] [] } ∧
    (∃ es, Settings.ofEntries es = .ok (smallSettings "flat")) ∧
      ¬ RunsAlike (smallSettings "flat") ⟨.top, []⟩ { tree := linkedTree [] } := by
  refine ⟨⟨[(.text "sources",
    .map [(.text "test_extra_paths", .list []), (.text "listing_order", .text "native")]),
    (.text "output", .map [(.text "dir", .text "contracts")])], by decide⟩, not_runsAlike_of_ingested,
    ⟨[(.text "sources", .map [(.text "test_extra_paths", .list []), (.text "listing_order", .text "native")])],
      by decide⟩, not_runsAlike_of_link⟩

end Flatten

end SolidityKit
