/-
Where things are, as seen by proofs.

Finding the project root and locating a path look at the workspace and change no file; the only thing that is
left behind is the remembered root.
-/
import SolidityKit.Proofs.Workspace.Writing

namespace SolidityKit

open Files SolidityKit.Action

theorem tree_eq_of_bare {w w' : Workspace} (h : w'.bare = w.bare) : w'.tree = w.tree := by
  show w'.bare.tree = w.bare.tree
  rw [h]

theorem cwd_eq_of_bare {w w' : Workspace} (h : w'.bare = w.bare) : w'.cwd = w.cwd := by
  show w'.bare.cwd = w.bare.cwd
  rw [h]

namespace Action

theorem keeps_nonemptyValueOf? (name : String) : Keeps id (nonemptyValueOf? name) := fun _ => rfl

theorem keeps_checkUsable (cs : Points) : Keeps id (checkUsable cs) := by
  intro w
  rw [runIn_checkUsable]

theorem keeps_resolve (p : Path) : Keeps id (resolve p) := by
  refine (keeps_checkUsable _).bind fun _ => Keeps.get.bind fun w => ?_
  dsimp only
  split
  · exact Keeps.throw _
  · exact Keeps.pure _

theorem keeps_homeOf? (name : Name) : Keeps id (homeOf? name) :=
  Keeps.get.bind fun _ => Keeps.ite (Keeps.pure _) ((keeps_checkUsable _).bind fun _ => Keeps.pure _)

theorem keeps_homeOf (name : Name) : Keeps id (homeOf name) := by
  refine (keeps_homeOf? name).bind fun home? => ?_
  cases home? with
  | none => exact Keeps.throw _
  | some home => exact Keeps.ite (Keeps.throw _) (Keeps.pure _)

theorem keeps_expandHome (p : Path) : Keeps id (expandHome p) := by
  unfold expandHome
  split
  · split
    · exact (keeps_homeOf _).bind fun _ => Keeps.pure _
    · exact Keeps.pure _
  · exact Keeps.pure _

end Action

namespace Project

theorem keeps_hasMarker (dir : Path) : Keeps id (hasMarker dir) := Keeps.anyM (fun _ => keeps_pathExists _) _

theorem keeps_firstMarked? (dirs : List Path) : Keeps id (firstMarked? dirs) := by
  induction dirs with
  | nil => exact Keeps.pure _
  | cons dir more ih =>
      refine (keeps_hasMarker dir).bind fun b => ?_
      cases b
      · exact ih
      · exact Keeps.pure _

theorem keeps_searchRoot (start : Option Path) : Keeps id (searchRoot start) := by
  refine (keeps_nonemptyValueOf? _).bind fun given => ?_
  cases given with
  | some g => exact (keeps_expandHome _).bind fun _ => keeps_resolve _
  | none =>
      refine Keeps.bind ?_ fun start => (keeps_isDir _).bind fun _ => (keeps_firstMarked? _).bind
        fun marked => ?_
      · cases start with
        | none => exact Keeps.get.bind fun _ => keeps_resolve _
        | some s => exact Keeps.pure _
      · cases marked <;> exact keeps_resolve _

theorem keeps_rootFrom_search (start : Option Path) : Keeps Workspace.bare (rootFrom.search start) :=
  (keeps_searchRoot start).of_reads.bind fun _ => Keeps.bind (fun _ => rfl) fun _ => Keeps.pure _

theorem keeps_root : Keeps Workspace.bare root := by
  refine Keeps.get.bind fun w => ?_
  split
  · exact Keeps.ite (Keeps.pure _) (keeps_rootFrom_search _)
  · exact keeps_rootFrom_search _

/-- A root that was found is remembered. -/
theorem knownRoot_of_root {w w' : Workspace} {b : Path} (h : root.runIn w = (.ok b, w')) :
    w'.knownRoot = some (none, b) := by
  have hsearch (h : (rootFrom.search none).runIn w = (.ok b, w')) : w'.knownRoot = some (none, b) := by
    obtain ⟨b', w₁, -, hremember⟩ := runIn_bind_eq_ok h
    cases hremember
    rfl
  obtain ⟨w₀, w₁, hget, hfound⟩ := runIn_bind_eq_ok h
  cases hget
  split at hfound
  · next s b' hknown =>
      by_cases hs : s = none
      · rw [if_pos hs] at hfound
        cases hfound
        rw [hknown, hs]
      · rw [if_neg hs] at hfound
        exact hsearch hfound
  · exact hsearch hfound

/-- A root that is remembered is not searched for. -/
theorem root_of_knownRoot {w : Workspace} {b : Path} (h : w.knownRoot = some (none, b)) :
    root.runIn w = (.ok b, w) := by
  refine (runIn_bind_ok (runIn_get w)).trans ?_
  rw [h]
  rfl

theorem keeps_buildOutput : Keeps Workspace.bare buildOutput := by
  refine (keeps_nonemptyValueOf? _).of_reads.bind fun given => ?_
  cases given with
  | some g => exact (keeps_expandHome _).of_reads.bind fun _ => (keeps_resolve _).of_reads
  | none => exact keeps_root.bind fun _ => Keeps.pure _

theorem keeps_buildArtifact (contract : Points) (dir : Option Path) :
    Keeps Workspace.bare (buildArtifact contract dir) := by
  refine Keeps.bind ?_ fun _ => Keeps.pure _
  cases dir with
  | none => exact keeps_buildOutput
  | some d => exact Keeps.pure _

end Project

end SolidityKit
