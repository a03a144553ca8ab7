/-
What a coverage run leaves behind.

Everything up to the summary's file at most makes directories (`Spares`), and the text is there before the file
is touched.  By then its directory is there too, so that the file is opened at the place it was looked for, and
since the text of a summary always has bytes, opening it is the last thing that can fail.  So a run that fails
costs no file (`writeSummary_files`).  None of this needs a tree without links.
-/
import SolidityKit.Proofs.CommandLine.Codes

namespace SolidityKit

open Files SolidityKit.Action

namespace Action

variable {α β : Type}

/-! ### Actions that make directories at most -/

/-- The action makes directories at most, whether or not it comes to a result. -/
def Spares (act : Action α) : Prop := ∀ w, Node.Grows (fun _ => False) w.tree (act.runIn w).2.tree

theorem Spares.of_bare {act : Action α} (h : Keeps Workspace.bare act) : Spares act := by
  intro w
  rw [tree_eq_of_bare (h w)]
  exact .refl _ _

theorem Spares.of_runIn {act : Action α} (hact : Spares act) {w w' : Workspace} {r : Except Failure α}
    (h : act.runIn w = (r, w')) : Node.Grows (fun _ => False) w.tree w'.tree := by
  have hgrows := hact w
  rwa [h] at hgrows

theorem runIn_makeDirs_of_unusable {p : Path} (husable : ¬ p.Usable) (w : Workspace) :
    (makeDirs p).runIn w = (.error p.spelling.refusal, w) := by
  have hcheck : (checkPath p).runIn w = (.error p.spelling.refusal, w) := by
    rw [runIn_checkPath, if_neg husable]
  unfold makeDirs makeDirsUpTo
  cases p.names.length <;> exact runIn_bind_error (runIn_bind_error hcheck)

theorem spares_makeDirs (p : Path) : Spares (makeDirs p) := by
  intro w
  by_cases husable : p.Usable
  · exact (made_makeDirs husable w).grows
  · rw [runIn_makeDirs_of_unusable husable]
    exact .refl _ _

/-- Two actions in a row that fail have made directories at most, if the second one has when it fails. -/
theorem Spares.of_bind {act : Action α} {next : α → Action β} (hact : Spares act) {w w' : Workspace}
    {f : Failure} (h : (act >>= next).runIn w = (.error f, w'))
    (hnext : ∀ a w₁, act.runIn w = (.ok a, w₁) → (next a).runIn w₁ = (.error f, w') →
      Node.Grows (fun _ => False) w₁.tree w'.tree) : Node.Grows (fun _ => False) w.tree w'.tree := by
  rcases runIn_bind_eq_error h with hfail | ⟨a, w₁, hok, hrest⟩
  · exact hact.of_runIn hfail
  · exact (hact.of_runIn hok).trans (hnext a w₁ hok hrest)

end Action

/-! ### Where the files are -/

theorem Project.keeps_tracefile : Keeps Workspace.bare Project.tracefile :=
  Project.keeps_root.bind fun _ => Keeps.pure _

theorem Project.keeps_coverageSummary (dir : Option Path) :
    Keeps Workspace.bare (Project.coverageSummary dir) := by
  refine Keeps.bind ?_ fun _ => Keeps.pure _
  cases dir with
  | none => exact Project.keeps_root.bind fun _ => Keeps.pure _
  | some d => exact Keeps.pure _

/-- A directory is made only at a path that can be used, and then it is there. -/
theorem leadsTo_of_makeDirs {p : Path} {u : Unit} {w w' : Workspace} (h : (makeDirs p).runIn w = (.ok u, w')) :
    w'.cwd = w.cwd ∧ ∃ place es, w'.tree.LeadsTo w.cwd p place (.dir es) := by
  by_cases husable : p.Usable
  · have hmade := made_makeDirs husable w
    rw [h] at hmade
    obtain ⟨place, es, hleads⟩ := hmade.there rfl
    have hsame : w' = { w with tree := w'.tree } := hmade.same
    have hcwd : w'.cwd = w.cwd := by rw [hsame]
    exact ⟨hcwd, place, es, hleads⟩
  · rw [runIn_makeDirs_of_unusable husable] at h
    cases h

namespace Coverage

/-! ### The last step -/

/-- What a summary's text may come to when it is written to a file whose directory has just been made. -/
theorem writePoints_text {target : Path} {s : Summary} {cs : List CodePoint}
    (htext : s.text = .ok cs) {u : Unit}
    {w₀ w : Workspace} (hmade : (makeDirs target.parent).runIn w₀ = (.ok u, w)) :
    (∃ f, (writePoints target cs).runIn w = (.error f, w)) ∨
      ∃ place bytes tree, (writePoints target cs).runIn w = (.ok (), { w with tree }) ∧
        Utf8.encodePoints cs = .ok bytes ∧
        tree.LeadsTo w₀.cwd target place (.file bytes) ∧ Node.Grows (· = place) w₀.tree tree := by
  obtain ⟨hcwd, place, es, hparent⟩ := leadsTo_of_makeDirs hmade
  rw [← hcwd] at hparent ⊢
  have hstart : ∀ t, w.tree.at? (Node.startOf w.cwd target) ≠ some (.link t) := hparent.start_not_link (by simp)
  by_cases husable : target.Usable
  · obtain ⟨bytes, hbytes⟩ := s.bytes_of_text htext
    have hbefore := (spares_makeDirs target.parent).of_runIn hmade
    have hwrote := wrote_writePoints husable hstart cs
    generalize (writePoints target cs).runIn w = out at hwrote
    cases hwrote with
    | refused hfile => exact Or.inl ⟨_, rfl⟩
    | emptied hnone _ _ => cases hbytes.symm.trans hnone
    | written hsome hfirst hlast hleads hgrows =>
        exact Or.inr ⟨_, _, _, rfl, hsome, hleads, (hbefore.mono fun _ h => h.elim).trans hgrows⟩
  · left
    refine ⟨target.spelling.refusal, runIn_bind_error ?_⟩
    unfold change
    exact runIn_bind_error (by rw [runIn_look, if_neg husable])

theorem keeps_source (tracefile : Option Path) :
    Keeps Workspace.bare (tracefile.elim Project.tracefile pure) := by
  cases tracefile with
  | none => exact Project.keeps_tracefile
  | some p => exact Keeps.pure _

/-! ### A whole run -/

theorem writeSummary_failed {tracefile dir : Option Path} {w w' : Workspace} {f : Failure}
    (h : (writeSummary tracefile dir).runIn w = (.error f, w')) :
    Node.Grows (fun _ => False) w.tree w'.tree := by
  unfold writeSummary at h
  refine (Spares.of_bare (keeps_source tracefile)).of_bind h fun source w₁ _ h => ?_
  refine (Spares.of_bare (keeps_readText source).of_reads).of_bind h fun t w₂ _ h => ?_
  refine (Spares.of_bare (Keeps.ofExcept _ _)).of_bind h fun records w₃ _ h => ?_
  refine (Spares.of_bare (Keeps.ofExcept _ _)).of_bind h fun summary w₄ _ h => ?_
  refine (Spares.of_bare (Project.keeps_coverageSummary dir)).of_bind h fun target w₅ _ h => ?_
  refine (spares_makeDirs _).of_bind h fun u w₆ hmade h => ?_
  refine (Spares.of_bare (Keeps.ofExcept _ _)).of_bind h fun text w₇ htext h => ?_
  obtain ⟨hcs, hsame⟩ := runIn_ofExcept_eq_ok htext
  rw [hsame] at h ⊢
  rcases writePoints_text hcs hmade with ⟨g, hwrite⟩ | ⟨_, _, tree, hwrite, -⟩
  · rw [runIn_bind_error hwrite] at h
    cases h
    exact .refl _ _
  · rw [runIn_bind_ok hwrite] at h
    cases h

theorem writeSummary_done {tracefile dir : Option Path} {w w' : Workspace} {s : Summary}
    (h : (writeSummary tracefile dir).runIn w = (.ok s, w')) :
    ∃ source t rs target place cs bytes, w.HasText source t ∧ read t = .ok rs ∧ summarize rs = .ok s ∧
      (∀ p, tracefile = some p → source = p) ∧ (∀ d, dir = some d → target = d / "coverage-summary.json") ∧
      s.text = .ok cs ∧ Utf8.encodePoints cs = .ok bytes ∧ w'.tree.LeadsTo w.cwd target place (.file bytes) ∧
      Node.Grows (· = place) w.tree w'.tree := by
  unfold writeSummary at h
  obtain ⟨source, w₁, hsource, h₁⟩ := runIn_bind_eq_ok h
  obtain ⟨t, w₂, hread, h₂⟩ := runIn_bind_eq_ok h₁
  obtain ⟨rs, w₃, hrecords, h₃⟩ := runIn_bind_eq_ok h₂
  obtain ⟨summary, w₄, hsummary, h₄⟩ := runIn_bind_eq_ok h₃
  obtain ⟨target, w₅, htarget, h₅⟩ := runIn_bind_eq_ok h₄
  obtain ⟨u, w₆, hmade, h₆⟩ := runIn_bind_eq_ok h₅
  obtain ⟨text, w₇, htext, h₇⟩ := runIn_bind_eq_ok h₆
  obtain ⟨hsame₂, -, hsays⟩ := hasText_of_readText hread
  obtain ⟨hrs, hsame₃⟩ := runIn_ofExcept_eq_ok hrecords
  obtain ⟨hs, hsame₄⟩ := runIn_ofExcept_eq_ok hsummary
  obtain ⟨hcs, hsame₇⟩ := runIn_ofExcept_eq_ok htext
  -- up to the target nothing has been touched
  have hbare₁ : w₁.bare = w.bare := (keeps_source tracefile).of_runIn hsource
  have hbare₅ : w₅.bare = w.bare := by
    rw [(Project.keeps_coverageSummary dir).of_runIn htarget, hsame₄, hsame₃, hsame₂, hbare₁]
  rw [hsame₇] at h₇
  rcases writePoints_text hcs hmade with ⟨g, hwrite⟩ | ⟨place, bytes, tree, hwrite, hbytes, hleads, hgrows⟩
  · rw [runIn_bind_error hwrite] at h₇
    cases h₇
  · rw [runIn_bind_ok hwrite] at h₇
    cases h₇
    rw [cwd_eq_of_bare hbare₅] at hleads
    rw [tree_eq_of_bare hbare₅] at hgrows
    refine ⟨source, t, rs, target, place, text, bytes, hsays.of_bare hbare₁, hrs, hs, ?_, ?_, hcs, hbytes,
      hleads, hgrows⟩
    · rintro p rfl
      cases hsource
      rfl
    · rintro d rfl
      cases htarget
      rfl

/--
**A summary that cannot be made costs no file.**

If the run fails, whatever it fails at, it has made directories at most: every regular file is as it
was, and there are no new ones.  If it comes to a summary, its text stands at its place, and every
other file is as it was.
-/
theorem writeSummary_files (tracefile dir : Option Path) (w : Workspace) :
    (∀ f w', (writeSummary tracefile dir).runIn w = (.error f, w') →
      f.ofSummary = true ∧ Node.Grows (fun _ => False) w.tree w'.tree ∧
        ∀ place content, w'.tree.at? place = some (.file content) ↔ w.tree.at? place = some (.file content)) ∧
    (∀ s w', (writeSummary tracefile dir).runIn w = (.ok s, w') →
      ∃ source t rs target place cs bytes, w.HasText source t ∧ read t = .ok rs ∧ summarize rs = .ok s ∧
        (∀ p, tracefile = some p → source = p) ∧ (∀ d, dir = some d → target = d / "coverage-summary.json") ∧
        s.text = .ok cs ∧ Utf8.encodePoints cs = .ok bytes ∧ w'.tree.LeadsTo w.cwd target place (.file bytes) ∧
        Node.Grows (· = place) w.tree w'.tree) := by
  refine ⟨fun f w' h => ?_, fun s w' h => writeSummary_done h⟩
  have hgrows := writeSummary_failed h
  exact ⟨(fails_writeSummary tracefile dir w w').2 f h, hgrows, fun place content => hgrows.file id⟩

/-- The directory of the summary. -/
def blockedDir : Path := ⟨.top, ["out"]⟩

/-- A tracefile, and a directory at the place of its summary. -/
def blockedTree : Node :=
  .dir [("lcov.info", .file (Utf8.encode "SF:a\nLF:2\nLH:1\nend_of_record\n".toList)),
    ("out", .dir [("coverage-summary.json", .dir [])])]

theorem writeSummary_blocked :
    ∃ f w', (writeSummary (some ⟨.top, ["lcov.info"]⟩) (some blockedDir)).runIn { tree := blockedTree } =
        (.error f, w') ∧
      ∀ place content, w'.tree.at? place = some (.file content) ↔
        blockedTree.at? place = some (.file content) := by
  obtain ⟨hfailed, hdone⟩ :=
    writeSummary_files (some ⟨.top, ["lcov.info"]⟩) (some blockedDir) { tree := blockedTree }
  rcases hrun : (writeSummary (some ⟨.top, ["lcov.info"]⟩) (some blockedDir)).runIn
      { tree := blockedTree } with ⟨r, w'⟩
  cases r with
  | error f => exact ⟨f, w', rfl, (hfailed f w' hrun).2.2⟩
  | ok s =>
      -- the directory would still be there, where the text would have to be
      obtain ⟨source, t, rs, target, place, cs, bytes, -, -, -, -, htarget, -, -, hleads, hgrows⟩ :=
        hdone s w' hrun
      obtain rfl := htarget _ rfl
      have hget : blockedTree.get [] (blockedDir / "coverage-summary.json") = .ok (.dir []) := by rfl
      obtain ⟨place', hbefore⟩ := Node.get_eq_ok_iff.mp hget
      obtain ⟨es, hafter⟩ := hbefore.grows_dir hgrows
      cases (hafter.unique hleads).2

end Coverage

end SolidityKit
