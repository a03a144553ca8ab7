/-
Where artifacts go.

The names of the two artifacts are checked to be different texts, but they are used as paths.  Different texts
can spell one path, `a.sol` and `./a.sol`, and an absolute name leaves the directory of artifacts, so that it
can spell what a relative one leads to.  `outputs_nodup_iff` says exactly when the artifacts go to one path;
names that are relative and spelled as their paths are spelled never do.
-/
import SolidityKit.Proofs.Flatten.Jobs
import SolidityKit.Proofs.Settings.Fields
import Mathlib

namespace SolidityKit

open SolidityKit.Action

namespace Path

/-- Two paths that are followed from a directory lead to one path. -/
def Meet (d p q : Path) : Prop :=
  p = q ∨ p.isAbsolute = true ∧ q.isAbsolute = false ∧ p = d / q ∨
    q.isAbsolute = true ∧ p.isAbsolute = false ∧ q = d / p

theorem join_of_absolute {p : Path} (d : Path) (h : p.isAbsolute = true) : d / p = p := if_pos h

theorem join_of_relative {p : Path} (d : Path) (h : p.isAbsolute = false) :
    d / p = ⟨d.root, d.names ++ p.names⟩ :=
  if_neg (by simp [h])

theorem eq_of_relative {p q : Path} (hp : p.isAbsolute = false) (hq : q.isAbsolute = false)
    (h : p.names = q.names) :
    p = q := by
  have hroot (r : Path) (hr : r.isAbsolute = false) : r.root = .current := by simpa [isAbsolute] using hr
  exact Path.ext ((hroot p hp).trans (hroot q hq).symm) h

theorem join_eq_join_iff (d p q : Path) : d / p = d / q ↔ Meet d p q := by
  unfold Meet
  cases hp : p.isAbsolute <;> cases hq : q.isAbsolute
  · rw [join_of_relative d hp, join_of_relative d hq]
    constructor
    · intro h
      exact Or.inl (eq_of_relative hp hq (List.append_cancel_left (Path.mk.inj h).2))
    · rintro (rfl | ⟨h, -⟩ | ⟨h, -⟩)
      · rfl
      · cases h
      · cases h
  · rw [join_of_absolute d hq]
    constructor
    · exact fun h => Or.inr (Or.inr ⟨rfl, rfl, h.symm⟩)
    · rintro (rfl | ⟨h, -⟩ | ⟨-, -, h⟩)
      · cases hp.symm.trans hq
      · cases h
      · exact h.symm
  · rw [join_of_absolute d hp]
    constructor
    · exact fun h => Or.inr (Or.inl ⟨rfl, rfl, h⟩)
    · rintro (rfl | ⟨-, -, h⟩ | ⟨h, -⟩)
      · cases hp.symm.trans hq
      · exact h
      · cases h
  · rw [join_of_absolute d hp, join_of_absolute d hq]
    constructor
    · exact Or.inl
    · rintro (rfl | ⟨-, h, -⟩ | ⟨-, h, -⟩)
      · rfl
      · cases h
      · cases h

end Path

namespace Settings

/-- A name that is relative and spelled as its path is. -/
def IsPlainName (name : Points) : Prop :=
  (Path.ofPoints name).isAbsolute = false ∧ (Path.ofPoints name).spelling = name

instance (name : Points) : Decidable (IsPlainName name) := inferInstanceAs (Decidable (_ ∧ _))

/-- From a directory, the names of the artifacts lead to one path. -/
def ArtifactsMeet (s : Settings) (d : Path) : Prop :=
  Path.Meet d (Path.ofPoints s.contractsArtifact) (Path.ofPoints s.testsArtifact)

/-- Settings that were accepted have passed the check of settings as a whole. -/
theorem validate_of_ofEntries {es : Entries} {settings : Settings} (h : ofEntries es = .ok settings) :
    validate settings = .ok settings := by
  have hsame {s : Settings} (hs : validate s = .ok settings) : validate settings = .ok settings := by
    obtain ⟨rfl, -⟩ := validate_eq_ok_iff.mp hs
    exact hs
  unfold ofEntries at h
  -- every field is read before the check, which is the last step
  iterate 15 obtain ⟨_, -, h⟩ := bind_eq_ok_iff.mp h
  exact hsame h

theorem not_meet_of_plainNames {es : Entries} {settings : Settings} (haccepted : ofEntries es = .ok settings)
    (hcontracts : IsPlainName settings.contractsArtifact) (htests : IsPlainName settings.testsArtifact)
    (d : Path) :
    ¬ settings.ArtifactsMeet d := by
  obtain ⟨-, -, -, -, hne⟩ := validate_eq_ok_iff.mp (validate_of_ofEntries haccepted)
  rintro (h | ⟨h, -⟩ | ⟨h, -⟩)
  · exact hne (hcontracts.2.symm.trans ((congrArg Path.spelling h).trans htests.2))
  · cases hcontracts.1.symm.trans h
  · cases htests.1.symm.trans h

end Settings

namespace Flatten

/-- The artifacts go to different paths exactly if their names do not lead to one path from the directory of
artifacts, wherever that is; names that are plain never do. -/
theorem outputs_nodup_iff {es : Entries} {settings : Settings}
    (haccepted : Settings.ofEntries es = .ok settings) :
    (settings.contractsOutput ≠ settings.testsOutput ↔
        ¬ settings.ArtifactsMeet (Path.ofPoints settings.outputDir)) ∧
      (∀ base w js w', (jobs settings base).runIn w = (.ok js, w') →
        ∃ d, js.map Job.output = [d / settings.contractsArtifact, d / settings.testsArtifact] ∧
          ((js.map Job.output).Nodup ↔ ¬ settings.ArtifactsMeet d)) ∧
      (Settings.IsPlainName settings.contractsArtifact → Settings.IsPlainName settings.testsArtifact →
        ∀ d, ¬ settings.ArtifactsMeet d) := by
  refine ⟨not_congr (Path.join_eq_join_iff _ _ _), ?_, Settings.not_meet_of_plainNames haccepted⟩
  intro base w js w' hjobs
  rw [jobs_eq] at hjobs
  obtain ⟨b, w₀, hb, hjobs⟩ := runIn_bind_eq_ok hjobs
  obtain ⟨rfl, plan, -, rfl⟩ := jobs_eq_ok_iff.mp hjobs
  refine ⟨plan.output, rfl, ?_⟩
  have hnodup (p q : Path) : [p, q].Nodup ↔ ¬ p = q := by simp
  exact (hnodup _ _).trans (not_congr (Path.join_eq_join_iff _ _ _))

/-- A workspace with empty directories for contract sources and test sources. -/
def noSources : Workspace := { tree := .dir [("contracts", .dir []), ("test", .dir [])] }

/-- Without any settings the artifacts go to different paths. -/
theorem outputs_nodup_default :
    Settings.contractsOutput {} ≠ Settings.testsOutput {} ∧
      ∃ js w', (jobs {} (some ⟨.top, []⟩)).runIn noSources = (.ok js, w') ∧ (js.map Job.output).Nodup := by
  have haccepted : Settings.ofEntries [] = .ok {} := rfl
  have hjobs : (jobs {} (some ⟨.top, []⟩)).runIn noSources =
      (.ok [⟨"contracts", [], ⟨.top, ["flat", "contracts.sol"]⟩⟩,
        ⟨"tests", [⟨.top, ["script", "LibDeploy.sol"]⟩], ⟨.top, ["flat", "tests.sol"]⟩⟩], noSources) := by cbv
  obtain ⟨hsettings, hall, hplain⟩ := outputs_nodup_iff haccepted
  have hapart := hplain (by decide) (by decide)
  obtain ⟨d, -, hnodup⟩ := hall _ _ _ _ hjobs
  exact ⟨hsettings.mpr (hapart _), _, _, hjobs, hnodup.mpr (hapart d)⟩

/-- Settings with two spellings of one name are accepted, and both artifacts go to it. -/
theorem outputs_twice_spelled :
    ¬ ∀ (es : Entries) (settings : Settings), Settings.ofEntries es = .ok settings →
      settings.contractsOutput ≠ settings.testsOutput ∧
        ∀ (base : Path) (w : Workspace) (js : List Job) (w' : Workspace),
          (jobs settings base).runIn w = (.ok js, w') → (js.map Job.output).Nodup := by
  intro h
  have haccepted : Settings.ofEntries
      [(.text "output", .map [(.text "contracts", .text "a.sol"), (.text "tests", .text "./a.sol")])] =
        .ok { contractsArtifact := "a.sol", testsArtifact := "./a.sol" } := rfl
  obtain ⟨hsettings, -⟩ := h _ _ haccepted
  exact hsettings (by decide)

end Flatten

end SolidityKit
