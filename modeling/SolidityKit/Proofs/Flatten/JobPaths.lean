/-
The paths of jobs.

Below an absolute base every path that settings spell is absolute, and its names are those of the base, of the
texts in the settings, of a home directory and of the tree.  So where the system takes all of these, and no path
has `..` in it, each path of a job goes down from the top and can be used (`usable_of_plans`).
-/
import SolidityKit.Proofs.Flatten.Outcomes
import SolidityKit.Proofs.Files.Listing
import SolidityKit.Proofs.Text.Trim

namespace SolidityKit

open Files SolidityKit.Action

/-- The names of a path say something, and the system takes them. -/
def Path.Clean (p : Path) : Prop := ∀ name ∈ p.names, name ≠ "" ∧ name ≠ "." ∧ Points.Usable name

/-- The path does not depend on the current directory, and its names can be used. -/
def Path.Rooted (p : Path) : Prop := p.isAbsolute = true ∧ p.Clean

theorem Path.Rooted.direct {p : Path} (h : p.Rooted) (hdots : (".." : Name) ∉ p.names) : p.Direct where
  absolute := h.1
  steps name hname := by
    obtain ⟨hempty, hdot, -⟩ := h.2 name hname
    exact ⟨hempty, hdot, fun hup => hdots (hup ▸ hname)⟩

theorem Path.Rooted.usable {p : Path} (h : p.Rooted) : p.Usable :=
  (Path.usable_iff p).mpr fun name hname => (h.2 name hname).2.2

/-- A workspace as a system can have it, without links. -/
structure Workspace.Sound (w : Workspace) : Prop where
  /-- The tree is sound. -/
  tree : w.tree.Sound
  /-- The values of variables are texts that the system gave. -/
  environment : ∀ v ∈ w.environment, v.2.Usable
  /-- So is the home directory of whoever runs the tool. -/
  ownHome : w.ownHome.Usable
  /-- So are those of others. -/
  homes : ∀ h ∈ w.homes, h.2.Usable

/-! ### Located paths -/

theorem clean_ofPoints {cs : Points} (h : cs.Usable) : (Path.ofPoints cs).Clean := by
  intro name hname
  obtain ⟨hempty, hdot, -⟩ := Path.isName_of_mem_ofPoints hname
  exact ⟨hempty, hdot, fun c hc => h c (Path.mem_of_mem_ofPoints hname hc)⟩

theorem clean_join {p q : Path} (hp : p.Clean) (hq : q.Clean) : (p / q).Clean := by
  intro name hname
  by_cases habs : q.isAbsolute = true
  · rw [show p / q = q from if_pos habs] at hname
    exact hq name hname
  · rw [show p / q = ⟨p.root, p.names ++ q.names⟩ from if_neg habs] at hname
    rcases List.mem_append.mp hname with h | h
    · exact hp name h
    · exact hq name h

theorem rooted_join {p q : Path} (hp : p.Rooted) (hq : q.Clean) : (p / q).Rooted := by
  refine ⟨?_, clean_join hp.2 hq⟩
  by_cases habs : q.isAbsolute = true
  · rwa [show p / q = q from if_pos habs]
  · rw [show p / q = ⟨p.root, p.names ++ q.names⟩ from if_neg habs]
    exact hp.1

theorem usable_of_lookup {κ : Type} [BEq κ] [LawfulBEq κ] {pairs : List (κ × Points)}
    (hpairs : ∀ e ∈ pairs, e.2.Usable) {k : κ} {v : Points} (h : pairs.lookup k = some v) : v.Usable := by
  obtain ⟨before, after, rfl, -⟩ := List.lookup_eq_some_iff.mp h
  exact hpairs (k, v) (by simp)

theorem usable_homeOf? {w w' : Workspace} (hw : w.Sound) {name : Name} {home : Points}
    (h : (homeOf? name).runIn w = (.ok (some home), w')) : home.Usable := by
  unfold homeOf? at h
  rw [runIn_bind_ok (runIn_get w)] at h
  split at h
  · cases h
    cases hhome : w.environment.lookup "HOME" with
    | none => exact hw.ownHome
    | some v => exact usable_of_lookup hw.environment hhome
  · obtain ⟨u, w₁, -, h⟩ := runIn_bind_eq_ok h
    obtain ⟨hlookup, -⟩ := Prod.mk.injEq .. ▸ h
    exact usable_of_lookup hw.homes (Except.ok.inj hlookup)

theorem usable_homeOf {w w' : Workspace} (hw : w.Sound) {name : Name} {home : Points}
    (h : (homeOf name).runIn w = (.ok home, w')) : home.Usable := by
  obtain ⟨home?, w₁, hhome, h⟩ := runIn_bind_eq_ok h
  cases home? with
  | none => cases h
  | some found =>
      have htrimmed : Points.Usable (Text.dropRightWhile (· == .char '/') found) := by
        rw [Text.dropRightWhile_eq_rdropWhile]
        exact fun c hc => usable_homeOf? hw hhome c ((List.rdropWhile_prefix _ _).subset hc)
      have hchosen : Points.Usable (if Text.dropRightWhile (· == .char '/') found = [] then ("/" : Points) else
          Text.dropRightWhile (· == .char '/') found) := by
        split
        · exact (by decide : Points.Usable "/")
        · exact htrimmed
      dsimp only at h
      generalize (if Text.dropRightWhile (· == .char '/') found = [] then ("/" : Points) else
        Text.dropRightWhile (· == .char '/') found) = chosen at h hchosen
      split at h
      · cases h
      · cases h
        exact hchosen

theorem clean_expandHome {w w' : Workspace} (hw : w.Sound) {p q : Path} (hp : p.Clean)
    (h : (expandHome p).runIn w = (.ok q, w')) : q.Clean := by
  unfold expandHome at h
  split at h
  · next name rest hroot hnames =>
      split at h
      · obtain ⟨home, w₁, hhome, hpure⟩ := runIn_bind_eq_ok h
        cases hpure
        intro k hk
        rcases List.mem_append.mp hk with hk | hk
        · exact clean_ofPoints (usable_homeOf hw hhome) k hk
        · exact hp k (by rw [hnames]; exact List.mem_cons_of_mem name hk)
      · cases h
        exact hp
  · cases h
    exact hp

/-- What a text is located at below a base. -/
theorem rooted_of_locate {w w' : Workspace} (hw : w.Sound) {b : Path} (hb : b.Rooted) {cs : Points}
    (hcs : cs.Usable) {p : Path} (h : (Project.locatePoints cs b).runIn w = (.ok p, w')) : p.Rooted := by
  obtain ⟨q, w₁, hq, hrest⟩ := runIn_bind_eq_ok h
  have hclean := clean_expandHome hw (clean_ofPoints hcs) hq
  by_cases habs : q.isAbsolute = true
  · simp only [habs, if_true] at hrest
    cases hrest
    exact ⟨habs, hclean⟩
  · simp only [habs] at hrest
    obtain ⟨b', w₂, hb', hpure⟩ := runIn_bind_eq_ok hrest
    cases hb'
    cases hpure
    exact rooted_join hb hclean

/-! ### Listed paths -/

namespace Node

/-- What a listing takes is spelled like the directory, and then with names of the tree. -/
theorem names_of_collect {tree : Node} (hsound : tree.Sound) {s : Selection} {fuel : Nat} {path : Path}
    {place : Place}
    {es : List (Name × Node)} {left : Nat} {fs : List Path} (hes : tree.at? place = some (dir es))
    (h : tree.collect s fuel path (place, es, left) = .ok fs) {p : Path} (hp : p ∈ fs) :
    p.root = path.root ∧ ∀ name ∈ p.names, name ∈ path.names ∨ IsStep name ∧ Points.Usable name := by
  induction fuel generalizing path place es left fs with
  | zero => cases h
  | succ fuel ih =>
      obtain ⟨hnodup, hsteps⟩ := hsound.tidy place es hes
      obtain ⟨xs, hxs, rfl⟩ := collect_eq_ok hnodup h
      obtain ⟨name, hname, x, hx, hpx⟩ := mem_of_mapM hxs hp
      obtain ⟨hstep, n, hn⟩ := entry_of_mem_namesInOrder hsound.tidy hes hname
      have hat : tree.at? (place ++ [name]) = some n := by rw [at?_entry hes, hn]
      have husable : Points.Usable name := (hsound.usable hat name (by simp)).2
      rw [hn] at hx
      unfold collectEntry at hx
      have hentry (k : Name) (hk : k ∈ (path.entry name).names) :
          k ∈ path.names ∨ IsStep k ∧ Points.Usable k := by
        rcases List.mem_append.mp hk with hk | hk
        · exact Or.inl hk
        · rw [List.mem_singleton.mp hk]
          exact Or.inr ⟨hstep, husable⟩
      cases n with
      | link target => exact absurd hat (hsound.plain _ target)
      | file c =>
          cases hx
          split at hpx
          · rw [List.mem_singleton.mp hpx]
            exact ⟨rfl, hentry⟩
          · cases hpx
      | dir sub =>
          obtain ⟨hroot, hnames⟩ := ih hat hx hpx
          refine ⟨hroot, fun k hk => ?_⟩
          rcases hnames k hk with hk | hk
          · exact hentry k hk
          · exact Or.inr hk

theorem names_of_filesBelow {tree : Node} (hsound : tree.Sound) {cwd : Place} {s : Selection} {path : Path}
    {fs : List Path} (h : tree.filesBelow cwd s path = .ok fs) {p : Path} (hp : p ∈ fs) :
    p.root = path.root ∧ ∀ name ∈ p.names, name ∈ path.names ∨ IsStep name ∧ Points.Usable name := by
  obtain ⟨place, es, left, hway, hcollect⟩ := filesBelow_eq_ok_iff.mp h
  exact names_of_collect hsound hway.at_there hcollect hp

end Node

/-! ### Paths of jobs -/

/-- The texts in settings that are read as paths. -/
def Settings.paths (settings : Settings) : List Points :=
  [settings.contractsDir, settings.testsDir, settings.outputDir, settings.contractsArtifact,
    settings.testsArtifact] ++
    settings.testExtraPaths

namespace Flatten

section Plans

variable {settings : Settings} {b : Path} {w : Workspace} {plan : Plan}

theorem rooted_of_discover (hw : w.Sound) {dir : Path} (hdir : dir.Rooted) {q : Query} {fs : List Path}
    (hextra : ∀ p ∈ q.extra, p.Rooted) (h : (discover dir q).runIn w = (.ok fs, w)) : ∀ p ∈ fs, p.Rooted := by
  obtain ⟨-, -, -, found, hfound, rfl⟩ := discover_eq_ok_iff.mp h
  intro p hp
  rcases List.mem_append.mp hp with hp | hp
  · obtain ⟨hroot, hnames⟩ := Node.names_of_filesBelow hw.tree hfound hp
    refine ⟨by rw [Path.isAbsolute, hroot]; exact hdir.1, fun name hname => ?_⟩
    rcases hnames name hname with hname | ⟨⟨hempty, hdot, -⟩, husable⟩
    · exact hdir.2 name hname
    · exact ⟨hempty, hdot, husable⟩
  · exact hextra p hp

theorem rooted_of_extra (hw : w.Sound) (hb : b.Rooted) {ss : List Points} (hss : ∀ s ∈ ss, Points.Usable s)
    {ps : List Path} (h : (ss.mapM fun s => Project.locatePoints s b).runIn w = (.ok ps, w)) :
    ∀ p ∈ ps, p.Rooted := by
  induction ss generalizing ps with
  | nil =>
      cases h
      exact fun _ hp => absurd hp (by simp)
  | cons s rest ih =>
      have hkeeps (s : Points) : Keeps id (Project.locatePoints s b) := (sees_locate _ b).keeps
      rw [List.mapM_cons] at h
      obtain ⟨p, hp, hrest⟩ := (runIn_bind_eq_ok_iff (hkeeps s)).mp h
      obtain ⟨more, hmore, hpure⟩ := (runIn_bind_eq_ok_iff (Keeps.mapM hkeeps rest)).mp hrest
      cases hpure
      intro q hq
      rcases List.mem_cons.mp hq with rfl | hq
      · exact rooted_of_locate hw hb (hss s List.mem_cons_self) hp
      · exact ih (fun s' hs' => hss s' (List.mem_cons_of_mem s hs')) hmore q hq

/-- The paths of planned jobs are absolute, and their names can be used. -/
theorem rooted_of_plans (hw : w.Sound) (hb : b.Rooted) (hpaths : ∀ s ∈ settings.paths, Points.Usable s)
    (h : Plans settings b w plan) {j : Job} (hj : j ∈ plan.jobs settings) :
    ∀ p ∈ j.output :: j.files, p.Rooted := by
  have hlocated {s : Points} (hs : s ∈ settings.paths) {p : Path}
      (hp : (Project.locatePoints s b).runIn w = (.ok p, w)) : p.Rooted :=
    rooted_of_locate hw hb (hpaths s hs) hp
  have hcontracts := hlocated (by simp [Settings.paths]) h.contracts
  have htests := hlocated (by simp [Settings.paths]) h.tests
  have houtput := hlocated (by simp [Settings.paths]) h.output
  have hextra := rooted_of_extra hw hb
    (fun s hs => hpaths s (List.mem_append_right _ hs)) h.extra
  have hartifact {s : Points} (hs : s ∈ settings.paths) : (plan.output / s).Rooted :=
    rooted_join houtput (clean_ofPoints (hpaths s hs))
  have hnone : ∀ p ∈ ([] : List Path), p.Rooted := by simp
  intro p hp
  simp only [Plan.jobs, List.mem_cons, List.not_mem_nil, or_false] at hj
  rcases hj with rfl | rfl
  · rcases List.mem_cons.mp hp with rfl | hp
    · exact hartifact (by simp [Settings.paths])
    · exact rooted_of_discover hw hcontracts hnone h.production p hp
  · rcases List.mem_cons.mp hp with rfl | hp
    · exact hartifact (by simp [Settings.paths])
    · rcases List.mem_append.mp hp with hp | hp
      · exact rooted_of_discover hw htests hextra h.testing p hp
      · exact rooted_of_discover hw hcontracts hnone h.mocks p hp

/-- Planned jobs can be run if none of their paths goes up. -/
theorem usable_of_plans (hw : w.Sound) (hb : b.Rooted) (hpaths : ∀ s ∈ settings.paths, Points.Usable s)
    (h : Plans settings b w plan) {j : Job} (hj : j ∈ plan.jobs settings)
    (hdots : ∀ p ∈ j.output :: j.files, (".." : Name) ∉ p.names) : j.Usable where
  direct p hp := (rooted_of_plans hw hb hpaths h hj p hp).direct (hdots p hp)
  usable p hp := (rooted_of_plans hw hb hpaths h hj p hp).usable

end Plans

end Flatten

end SolidityKit
