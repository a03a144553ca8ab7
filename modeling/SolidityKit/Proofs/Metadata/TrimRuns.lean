/-
Trimming the artifacts of many contracts.

A run trims each contract once, in the order in which the contracts are first named (`pairwise_eraseDups`).
Where there are no links, the artifacts of different contracts are different files, so that each meets the fate
it would have met alone (`runs_of_fates`), and nothing else is written.

The directory of the artifacts is asked for when the first of them is looked for, and is settled from then
on.  So a run that comes to its end is one of `Runs`, and what it does can be said of the workspace before
it (`TrimsAll`).
-/
import SolidityKit.Proofs.Metadata.Fates
import Mathlib.Data.List.Nodup

namespace SolidityKit

open Files SolidityKit.Action

namespace Metadata

open Project (Settled artifactPath)

/-! ### First occurrences -/

/-- Names that are kept by a filter come in the same order without it. -/
theorem idxOf_lt_of_filter {keep : Points → Bool} {names : List Points} {a b : Points} (ha : keep a = true)
    (hb : keep b = true) (h : (names.filter keep).idxOf a < (names.filter keep).idxOf b) :
    names.idxOf a < names.idxOf b := by
  induction names with
  | nil => cases h
  | cons c rest ih =>
      by_cases hc : keep c = true
      · rw [List.filter_cons_of_pos hc] at h
        have hcb : c ≠ b := by
          rintro rfl
          rw [List.idxOf_cons_self] at h
          exact absurd h (Nat.not_lt_zero _)
        rw [List.idxOf_cons_ne _ hcb] at h ⊢
        by_cases hca : c = a
        · rw [hca, List.idxOf_cons_self]
          exact Nat.succ_pos _
        · rw [List.idxOf_cons_ne _ hca] at h ⊢
          exact Nat.succ_lt_succ (ih (Nat.lt_of_succ_lt_succ h))
      · rw [List.filter_cons_of_neg hc] at h
        have hca : c ≠ a := fun heq => hc (heq ▸ ha)
        have hcb : c ≠ b := fun heq => hc (heq ▸ hb)
        rw [List.idxOf_cons_ne _ hca, List.idxOf_cons_ne _ hcb]
        exact Nat.succ_lt_succ (ih h)

/-- Names without their repetitions come in the order in which they are first named. -/
theorem pairwise_eraseDups : (names : List Points) →
    names.eraseDups.Pairwise fun a b => names.idxOf a < names.idxOf b
  | [] => List.Pairwise.nil
  | c :: rest => by
      have hkept {a : Points} (ha : a ∈ (rest.filter fun d => !d == c).eraseDups) :
          c ≠ a ∧ (!a == c) = true := by
        have hkeep : (!a == c) = true := (List.mem_filter.mp (List.mem_eraseDups.mp ha)).2
        exact ⟨fun heq => by simp [heq] at hkeep, hkeep⟩
      rw [List.eraseDups_cons, List.pairwise_cons]
      refine ⟨fun a ha => ?_, (pairwise_eraseDups (rest.filter fun d => !d == c)).imp_of_mem
        fun ha hb hlt => ?_⟩
      · rw [List.idxOf_cons_self, List.idxOf_cons_ne _ (hkept ha).1]
        exact Nat.succ_pos _
      · rw [List.idxOf_cons_ne _ (hkept ha).1, List.idxOf_cons_ne _ (hkept hb).1]
        exact Nat.succ_lt_succ (idxOf_lt_of_filter (hkept ha).2 (hkept hb).2 hlt)
termination_by names => names.length
decreasing_by exact Nat.lt_succ_of_le (List.length_filter_le _ _)

theorem nodup_eraseDups (names : List Points) : names.eraseDups.Nodup :=
  (pairwise_eraseDups names).imp fun hlt heq => absurd (heq ▸ hlt) (Nat.lt_irrefl _)

/-! ### One artifact after the other -/

/-- A trimmed artifact stands at the place. -/
def Rewrites (outcomes : List Outcome) (w : Workspace) (place : Place) : Prop :=
  ∃ o ∈ outcomes, o.status.isSkipped = false ∧ ∃ n, w.tree.LeadsTo w.cwd o.path place n

section Leaves

variable {dir : Option Path} {base : Path} {contract : Points} {r : Option Text} {w w' : Workspace}

theorem Leaves.cwd {p : Path} (h : Leaves p r w w') : w'.cwd = w.cwd := Workspace.cwd_eq_of_still h.still

theorem Leaves.settled {p : Path} (h : Leaves p r w w') (hplain : w.tree.Plain)
    (hsettled : Settled dir base w) :
    Settled dir base w' :=
  hsettled.again hplain (Workspace.outside_eq_of_still h.still)
    (Workspace.knownRoot_eq_of_still h.still) h.files

/-- The artifacts of other contracts are left alone. -/
theorem Leaves.readBytes_eq (h : Leaves (artifactPath base contract) r w w') (hplain : w.tree.Plain)
    {other : Points} (hcontract : .char '/' ∉ contract) (hother : .char '/' ∉ other) (hne : contract ≠ other) :
    w'.tree.readBytes w'.cwd (artifactPath base other) = w.tree.readBytes w.cwd (artifactPath base other) := by
  rw [h.cwd]
  refine h.files.readBytes_eq ?_
  rintro place n hother' ⟨-, m, hcontract'⟩
  exact Project.artifactPath_places hplain hcontract hother hne hcontract' hother'

/-- And they have the fates that they had. -/
theorem Leaves.fate_iff (h : Leaves (artifactPath base contract) r w w') (hplain : w.tree.Plain)
    {other : Points}
    (hcontract : .char '/' ∉ contract) (hother : .char '/' ∉ other) (hne : contract ≠ other) {s : Status}
    {r' : Option Text} : Fate (artifactPath base other) w' s r' ↔ Fate (artifactPath base other) w s r' := by
  have hbytes := h.readBytes_eq hplain hcontract hother hne
  exact ⟨.of_readBytes_eq hbytes.symm, .of_readBytes_eq hbytes⟩

end Leaves

/-- What a run over distinct contracts does. -/
structure Runs (base : Path) (contracts : List Points) (w : Workspace) (outcomes : List Outcome)
    (w' : Workspace) :
    Prop where
  /-- There is one outcome for each contract. -/
  contracts : outcomes.map Outcome.contract = contracts
  /-- It is about the artifact of the contract. -/
  located : ∀ o ∈ outcomes, o.path = artifactPath base o.contract
  /-- Each artifact has met its fate. -/
  fates : ∀ o ∈ outcomes, ∃ r, Fate o.path w o.status r ∧
    ∀ t, r = some t → w'.tree.readBytes w'.cwd o.path = .ok (Utf8.encode t)
  /-- Nothing but files has changed. -/
  still : w'.still = w.still
  /-- Nothing else has been written. -/
  files : Node.Overwritten (Rewrites outcomes w) w.tree w'.tree

section Run

variable {dir : Option Path} {base : Path} {contracts : List Points} {w w' : Workspace}
  {outcomes : List Outcome}

/-- The artifact of a contract that the run does not name is left alone. -/
theorem Runs.readBytes_eq (h : Runs base contracts w outcomes w') (hplain : w.tree.Plain)
    (hnames : ∀ c ∈ contracts, .char '/' ∉ c) {other : Points} (hother : .char '/' ∉ other)
    (hne : other ∉ contracts) :
    w'.tree.readBytes w'.cwd (artifactPath base other) = w.tree.readBytes w.cwd (artifactPath base other) := by
  rw [Workspace.cwd_eq_of_still h.still]
  refine h.files.readBytes_eq ?_
  rintro place n hleads ⟨o, ho, -, m, hleads'⟩
  have hmem : o.contract ∈ contracts := h.contracts ▸ List.mem_map_of_mem ho
  rw [h.located o ho] at hleads'
  have hdiffer : o.contract ≠ other := fun heq => hne (heq ▸ hmem)
  exact Project.artifactPath_places hplain (hnames _ hmem) hother hdiffer hleads' hleads

/-- One artifact is trimmed, and then the others. -/
theorem Runs.cons {contract : Points} {s : Status} {r : Option Text} {w₁ : Workspace} (hplain : w.tree.Plain)
    (hnames : ∀ c ∈ contract :: contracts, .char '/' ∉ c) (hnew : contract ∉ contracts)
    (hfate : Fate (artifactPath base contract) w s r) (hleaves : Leaves (artifactPath base contract) r w w₁)
    (h : Runs base contracts w₁ outcomes w') :
    Runs base (contract :: contracts) w (⟨contract, artifactPath base contract, s⟩ :: outcomes) w' := by
  obtain ⟨hcontract, hothers⟩ := List.forall_mem_cons.mp hnames
  refine ⟨by simp [h.contracts], ?_, ?_, h.still.trans hleaves.still, ?_⟩
  · exact List.forall_mem_cons.mpr ⟨rfl, h.located⟩
  · refine List.forall_mem_cons.mpr ⟨⟨r, hfate, fun t ht => ?_⟩, fun o ho => ?_⟩
    · rw [h.readBytes_eq (hleaves.files.plain hplain) hothers hcontract hnew, hleaves.cwd]
      exact hleaves.bytes t ht
    · obtain ⟨r', hfate', hbytes⟩ := h.fates o ho
      have hmem : o.contract ∈ contracts := h.contracts ▸ List.mem_map_of_mem ho
      rw [h.located o ho] at hfate' hbytes ⊢
      have hdiffer : contract ≠ o.contract := fun heq => hnew (heq ▸ hmem)
      exact ⟨r', (hleaves.fate_iff hplain hcontract (hothers _ hmem) hdiffer).mp hfate', hbytes⟩
  · refine (hleaves.files.mono ?_).trans (h.files.mono ?_)
    · rintro place ⟨hwritten, n, hleads⟩
      refine ⟨_, List.mem_cons_self, ?_, n, hleads⟩
      rw [hfate.isSkipped_eq]
      cases r with
      | none => cases hwritten
      | some t => rfl
    · rintro place ⟨o, ho, htrimmed, n, hleads⟩
      -- what is found after the first artifact has been trimmed was there before
      rw [hleaves.cwd] at hleads
      obtain ⟨m, hbefore⟩ := hleads.grows hleaves.files.back
      exact ⟨o, List.mem_cons_of_mem _ ho, htrimmed, m, hbefore⟩

/-- Where every artifact has a fate, the run comes to its end. -/
theorem runs_of_fates (hnodup : contracts.Nodup) (hnames : ∀ c ∈ contracts, .char '/' ∉ c)
    (hsettled : contracts ≠ [] → Settled dir base w) (hplain : w.tree.Plain)
    (h : ∀ c ∈ contracts, ∃ s r, Fate (artifactPath base c) w s r) :
    ∃ outcomes w', (contracts.mapM (trimArtifact dir)).runIn w = (.ok outcomes, w') ∧
      Runs base contracts w outcomes w' := by
  induction contracts generalizing w with
  | nil =>
      refine ⟨[], w, rfl, rfl, ?_, ?_, rfl, .refl _ _⟩
      · exact fun o ho => by cases ho
      · exact fun o ho => by cases ho
  | cons contract rest ih =>
      obtain ⟨hnew, hrest⟩ := List.nodup_cons.mp hnodup
      obtain ⟨hcontract, hothers⟩ := List.forall_mem_cons.mp hnames
      obtain ⟨⟨s, r, hfate⟩, hmore⟩ := List.forall_mem_cons.mp h
      have hsettled := hsettled (List.cons_ne_nil _ _)
      obtain ⟨w₁, hfirst, hleaves⟩ := trimArtifact_of_fate hsettled hplain hfate
      have hfates (c : Points) (hc : c ∈ rest) : ∃ s r, Fate (artifactPath base c) w₁ s r := by
        obtain ⟨s', r', hfate'⟩ := hmore c hc
        have hdiffer : contract ≠ c := fun heq => hnew (heq ▸ hc)
        exact ⟨s', r', (hleaves.fate_iff hplain hcontract (hothers c hc) hdiffer).mpr hfate'⟩
      obtain ⟨outcomes, w', hlast, hruns⟩ := ih hrest hothers (fun _ => hleaves.settled hplain hsettled)
        (hleaves.files.plain hplain) hfates
      refine ⟨_, w', ?_, hruns.cons hplain hnames hnew hfate hleaves⟩
      rw [List.mapM_cons, runIn_bind_ok hfirst, runIn_bind_ok hlast, runIn_pure]

/-- In a run that comes to its end, every artifact had a fate before. -/
theorem fates_of_run (hnodup : contracts.Nodup) (hnames : ∀ c ∈ contracts, .char '/' ∉ c)
    (hsettled : contracts ≠ [] → Settled dir base w) (hplain : w.tree.Plain)
    (h : (contracts.mapM (trimArtifact dir)).runIn w = (.ok outcomes, w')) :
    ∀ c ∈ contracts, ∃ s r, Fate (artifactPath base c) w s r := by
  induction contracts generalizing w w' outcomes with
  | nil => exact fun c hc => by cases hc
  | cons contract rest ih =>
      obtain ⟨hnew, hrest⟩ := List.nodup_cons.mp hnodup
      obtain ⟨hcontract, hothers⟩ := List.forall_mem_cons.mp hnames
      have hsettled := hsettled (List.cons_ne_nil _ _)
      rw [List.mapM_cons] at h
      obtain ⟨o, w₁, hfirst, hmore⟩ := runIn_bind_eq_ok h
      obtain ⟨s, r, hfate⟩ := fate_of_trimArtifact hsettled hfirst
      obtain ⟨w₁', hfirst', hleaves⟩ := trimArtifact_of_fate hsettled hplain hfate
      obtain ⟨-, rfl⟩ := Prod.mk.injEq .. ▸ hfirst.symm.trans hfirst'
      obtain ⟨os, w₂, hlast, -⟩ := runIn_bind_eq_ok hmore
      have hfates := ih hrest hothers (fun _ => hleaves.settled hplain hsettled)
        (hleaves.files.plain hplain) hlast
      refine List.forall_mem_cons.mpr ⟨⟨s, r, hfate⟩, fun c hc => ?_⟩
      obtain ⟨s', r', hfate'⟩ := hfates c hc
      have hdiffer : contract ≠ c := fun heq => hnew (heq ▸ hc)
      exact ⟨s', r', (hleaves.fate_iff hplain hcontract (hothers c hc) hdiffer).mp hfate'⟩

end Run

/-! ### What a run does -/

/-- What a run does. -/
structure TrimsAll (dir : Option Path) (contracts : List Points) (w : Workspace) (outcomes : List Outcome)
    (w' : Workspace) : Prop where
  /-- There are outcomes for the contracts and for no others. -/
  named : ∀ c, c ∈ outcomes.map Outcome.contract ↔ c ∈ contracts
  /-- There is one for each, and they are in the order in which the contracts are first named. -/
  order : (outcomes.map Outcome.contract).Pairwise fun c d => contracts.idxOf c < contracts.idxOf d
  /-- Each is about the artifact of its contract. -/
  located : ∀ o ∈ outcomes, ∃ w₁, (Project.buildArtifact o.contract dir).runIn w = (.ok o.path, w₁)
  /-- An artifact is trimmed exactly if it has metadata. -/
  trimmed : ∀ o ∈ outcomes, (o.status.isSkipped = false ↔ ∃ es, w.HasMetadata o.path es)
  /-- Then it holds the text of its trimmed metadata. -/
  written : ∀ o ∈ outcomes, ∀ es, w.HasMetadata o.path es → ∃ t, trimmedText es = Points.ofText t ∧
    w'.tree.readBytes w'.cwd o.path = .ok (Utf8.encode t)
  /-- Any other artifact has the bytes that it had. -/
  skipped : ∀ o ∈ outcomes, o.status.isSkipped = true →
    w'.tree.readBytes w'.cwd o.path = w.tree.readBytes w.cwd o.path
  /-- Nothing has been written but the trimmed artifacts. -/
  files : Node.Overwritten (Rewrites outcomes w) w.tree w'.tree
  /-- The current directory is the same. -/
  cwd : w'.cwd = w.cwd

section Runs

variable {dir : Option Path} {base : Path} {contracts : List Points} {w w₁ w' : Workspace}
  {outcomes : List Outcome}

theorem Runs.places (h : Runs base contracts w outcomes w') :
    (outcomes.map fun o => (o.contract, o.path)) = contracts.map fun c => (c, artifactPath base c) := by
  rw [← h.contracts, List.map_map]
  exact List.map_congr_left fun o ho => Prod.ext rfl (h.located o ho)

/-- The artifacts that were passed over have the bytes that they had. -/
theorem Runs.skipped (h : Runs base contracts w outcomes w') (hnodup : contracts.Nodup) (hplain : w.tree.Plain)
    (hnames : ∀ c ∈ contracts, .char '/' ∉ c) {o : Outcome} (ho : o ∈ outcomes)
    (hskipped : o.status.isSkipped = true) :
    w'.tree.readBytes w'.cwd o.path = w.tree.readBytes w.cwd o.path := by
  have hmem {o : Outcome} (ho : o ∈ outcomes) : o.contract ∈ contracts := h.contracts ▸ List.mem_map_of_mem ho
  rw [Workspace.cwd_eq_of_still h.still]
  refine h.files.readBytes_eq ?_
  rintro place n hleads ⟨o', ho', htrimmed, m, hleads'⟩
  rw [h.located o ho] at hleads
  rw [h.located o' ho'] at hleads'
  by_cases hsame : o'.contract = o.contract
  · -- there is one outcome for each contract
    rw [← h.contracts] at hnodup
    obtain rfl : o' = o := List.inj_on_of_nodup_map hnodup ho' ho hsame
    cases hskipped.symm.trans htrimmed
  · exact Project.artifactPath_places hplain (hnames _ (hmem ho')) (hnames _ (hmem ho)) hsame hleads' hleads

theorem Runs.trimsAll (h : Runs base contracts.eraseDups w₁ outcomes w')
    (hfound : contracts ≠ [] → (dir.elim Project.buildOutput pure).runIn w = (.ok base, w₁))
    (hbare : w₁.bare = w.bare) (hplain : w.tree.Plain) (hnames : ∀ c ∈ contracts, .char '/' ∉ c) :
    TrimsAll dir contracts w outcomes w' := by
  have htree := tree_eq_of_bare hbare
  have hcwd := cwd_eq_of_bare hbare
  have hbytes (p : Path) : w₁.tree.readBytes w₁.cwd p = w.tree.readBytes w.cwd p := by rw [htree, hcwd]
  have hfates (o : Outcome) (ho : o ∈ outcomes) : ∃ r, Fate o.path w o.status r ∧
      ∀ t, r = some t → w'.tree.readBytes w'.cwd o.path = .ok (Utf8.encode t) := by
    obtain ⟨r, hfate, hwritten⟩ := h.fates o ho
    exact ⟨r, hfate.of_readBytes_eq (hbytes _).symm, hwritten⟩
  have hmem (o : Outcome) (ho : o ∈ outcomes) : o.contract ∈ contracts :=
    List.mem_eraseDups.mp (h.contracts ▸ List.mem_map_of_mem ho)
  refine ⟨fun c => ?_, ?_, fun o ho => ⟨w₁, ?_⟩, fun o ho => ?_, fun o ho es hes => ?_,
    fun o ho hskipped => ?_, ?_, ?_⟩
  · rw [h.contracts, List.mem_eraseDups]
  · rw [h.contracts]
    exact pairwise_eraseDups contracts
  · exact Project.buildArtifact_eq_ok_iff.mpr ⟨base, hfound (List.ne_nil_of_mem (hmem o ho)), h.located o ho⟩
  · obtain ⟨r, hfate, -⟩ := hfates o ho
    exact hfate.trimmed_iff
  · obtain ⟨r, hfate, hwritten⟩ := hfates o ho
    obtain ⟨t, ht, hprint⟩ := hfate.text_eq hes
    exact ⟨t, hprint, hwritten t ht⟩
  · rw [← hbytes]
    refine h.skipped (nodup_eraseDups contracts) (htree ▸ hplain) (fun c hc => ?_) ho hskipped
    exact hnames c (List.mem_eraseDups.mp hc)
  · have hsame : Rewrites outcomes w₁ = Rewrites outcomes w := by
      unfold Rewrites
      rw [htree, hcwd]
    rw [← hsame, ← htree]
    exact h.files
  · rw [Workspace.cwd_eq_of_still h.still, hcwd]

/-- The run of an artifact is the same before and after the directory has been found. -/
theorem runIn_trimArtifact_of_found (h : (dir.elim Project.buildOutput pure).runIn w = (.ok base, w₁))
    (contract : Points) : (trimArtifact dir contract).runIn w = (trimArtifact dir contract).runIn w₁ := by
  have hbefore : (Project.buildArtifact contract dir).runIn w = (.ok (artifactPath base contract), w₁) :=
    Project.buildArtifact_eq_ok_iff.mpr ⟨base, h, rfl⟩
  unfold trimArtifact
  rw [runIn_bind_ok hbefore, runIn_bind_ok (buildArtifact_of_settled (Project.settled_of_run h) contract)]

/-- A run that has anything to do starts with finding the directory. -/
theorem found_of_run {contract : Points} {rest : List Points}
    (h : ((contract :: rest).mapM (trimArtifact dir)).runIn w = (.ok outcomes, w')) :
    ∃ base w₁, (dir.elim Project.buildOutput pure).runIn w = (.ok base, w₁) ∧ w₁.bare = w.bare ∧
      ((contract :: rest).mapM (trimArtifact dir)).runIn w₁ = (.ok outcomes, w') := by
  rw [List.mapM_cons] at h ⊢
  obtain ⟨o, w₂, hfirst, hmore⟩ := runIn_bind_eq_ok h
  have htrim := hfirst
  unfold trimArtifact at htrim
  obtain ⟨p, w₁, hpath, -⟩ := runIn_bind_eq_ok htrim
  obtain ⟨base, hfound, -⟩ := Project.buildArtifact_eq_ok_iff.mp hpath
  refine ⟨base, w₁, hfound, (Project.keeps_buildArtifact contract dir).of_runIn hpath, ?_⟩
  rw [runIn_trimArtifact_of_found hfound] at hfirst
  rw [runIn_bind_ok hfirst, hmore]

/-- A run that comes to its end is a run over artifacts whose directory has been found. -/
theorem runs_of_trimAll (hplain : w.tree.Plain) (hnames : ∀ c ∈ contracts, .char '/' ∉ c)
    (h : (trimAll dir contracts).runIn w = (.ok outcomes, w')) :
    ∃ base w₁, (contracts ≠ [] → (dir.elim Project.buildOutput pure).runIn w = (.ok base, w₁)) ∧
      w₁.bare = w.bare ∧ Runs base contracts.eraseDups w₁ outcomes w' := by
  unfold trimAll at h
  obtain ⟨base, w₁, hfound, hbare, hrun⟩ : ∃ base w₁,
      (contracts ≠ [] → (dir.elim Project.buildOutput pure).runIn w = (.ok base, w₁)) ∧ w₁.bare = w.bare ∧
        (contracts.eraseDups.mapM (trimArtifact dir)).runIn w₁ = (.ok outcomes, w') := by
    cases contracts with
    | nil => exact ⟨⟨.top, []⟩, w, fun hne => absurd rfl hne, rfl, h⟩
    | cons contract rest =>
        rw [List.eraseDups_cons] at h ⊢
        obtain ⟨base, w₁, hfound, hbare, hrun⟩ := found_of_run h
        exact ⟨base, w₁, fun _ => hfound, hbare, hrun⟩
  refine ⟨base, w₁, hfound, hbare, ?_⟩
  have hsettled (hne : contracts.eraseDups ≠ []) : Settled dir base w₁ :=
    Project.settled_of_run (hfound (by rintro rfl; exact hne rfl))
  have hplain₁ : w₁.tree.Plain := tree_eq_of_bare hbare ▸ hplain
  have hnames₁ (c : Points) (hc : c ∈ contracts.eraseDups) := hnames c (List.mem_eraseDups.mp hc)
  have hfates := fates_of_run (nodup_eraseDups contracts) hnames₁ hsettled hplain₁ hrun
  obtain ⟨outcomes', w'', hrun', hruns⟩ :=
    runs_of_fates (nodup_eraseDups contracts) hnames₁ hsettled hplain₁ hfates
  cases hrun.symm.trans hrun'
  exact hruns

end Runs

end Metadata

end SolidityKit
