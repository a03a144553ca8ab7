/-
Where the artifacts of contracts are.

All artifacts are below one directory, which is given, named by a variable, or found from the project root.
Once it has been found it is settled: as long as only files are written over, it is found again without a trace
(`Settled.again`).  A root is remembered, and where there are no links the path in the variable is resolved by
its names alone.

Below it, a contract whose name has no slash has a file of its own, in a directory of its own
(`names_artifactPath`).
-/
import SolidityKit.Proofs.Files.Overwriting
import SolidityKit.Proofs.Flatten.Jobs

namespace SolidityKit

open Files SolidityKit.Action

/-! ### Paths from names -/

namespace Path

/-- A name without a slash is a path of one name. -/
theorem ofPoints_of_isName {name : Name} (h : IsName name) : ofPoints name = ⟨.current, [name]⟩ := by
  obtain ⟨hempty, hdot, hslash⟩ := h
  have hnames : namesOf name = [name] := by
    simp [namesOf, Text.splitAt_of_notMem hslash, hempty, hdot]
  unfold ofPoints
  split
  · exact absurd List.mem_cons_self hslash
  · exact absurd List.mem_cons_self hslash
  · exact absurd List.mem_cons_self hslash
  · rw [hnames]

theorem names_div_of_isName {name : Name} (h : IsName name) (p : Path) :
    (p / name).names = p.names ++ [name] := by
  show (p.join (ofPoints name)).names = _
  rw [ofPoints_of_isName h]
  rfl

end Path

namespace Project

/-- The directory of the artifact of a contract. -/
def artifactDirectory (contract : Points) : Name := contract ++ (".sol" : Points)

/-- The file of an artifact. -/
def artifactName (contract : Points) : Name := contract ++ (".json" : Points)

/-- The path of the artifact of a contract below a directory. -/
def artifactPath (base : Path) (contract : Points) : Path :=
  base / artifactDirectory contract / artifactName contract

theorem buildArtifact_eq_ok_iff {contract : Points} {dir : Option Path} {w w' : Workspace} {p : Path} :
    (buildArtifact contract dir).runIn w = (.ok p, w') ↔
      ∃ base, (dir.elim buildOutput pure).runIn w = (.ok base, w') ∧ p = artifactPath base contract := by
  unfold buildArtifact
  constructor
  · intro h
    obtain ⟨base, w₁, hbase, hpure⟩ := runIn_bind_eq_ok h
    cases hpure
    exact ⟨base, hbase, rfl⟩
  · rintro ⟨base, hbase, rfl⟩
    rw [runIn_bind_ok hbase]
    rfl

theorem artifactName_injective {contract other : Points} (h : artifactName contract = artifactName other) :
    contract = other :=
  List.append_cancel_right h

/-- A name with something more behind it is a name. -/
theorem isName_append {contract ending : Points} (h : .char '/' ∉ contract) (hending : .char '/' ∉ ending)
    (hlong : 1 < ending.length) : IsName (contract ++ ending) := by
  have hlength : 1 < (contract ++ ending).length := by
    rw [List.length_append]
    omega
  refine ⟨fun hempty => ?_, fun hdot => ?_, ?_⟩
  · rw [hempty] at hlength
    exact absurd hlength (by decide)
  · rw [hdot] at hlength
    exact absurd hlength (by decide)
  · simp [h, hending]

theorem names_artifactPath {contract : Points} (h : .char '/' ∉ contract) (base : Path) :
    (artifactPath base contract).names = base.names ++ [artifactDirectory contract] ++
      [artifactName contract] := by
  have hdir : IsName (artifactDirectory contract) := isName_append h (by decide) (by decide)
  have hfile : IsName (artifactName contract) := isName_append h (by decide) (by decide)
  rw [artifactPath, Path.names_div_of_isName hfile, Path.names_div_of_isName hdir]

theorem isStep_artifactName (contract : Points) : Node.IsStep (artifactName contract) := by
  have hlength : 4 < (artifactName contract).length := by
    have hending : (".json" : Points).length = 5 := by decide
    rw [artifactName, List.length_append]
    omega
  refine ⟨fun h => ?_, fun h => ?_, fun h => ?_⟩ <;> rw [h] at hlength <;> exact absurd hlength (by decide)

/-- Where there are no links, the artifacts of different contracts are at different places. -/
theorem artifactPath_places {tree : Node} (hplain : tree.Plain) {cwd place : Place} {base : Path}
    {contract other : Points} (hcontract : .char '/' ∉ contract) (hother : .char '/' ∉ other)
    (hne : contract ≠ other) {n m : Node} (h : tree.LeadsTo cwd (artifactPath base contract) place n) :
    ¬ tree.LeadsTo cwd (artifactPath base other) place m := by
  intro h'
  obtain ⟨d, hd⟩ := hplain.last_name (isStep_artifactName contract) (names_artifactPath hcontract base) h
  obtain ⟨d', hd'⟩ := hplain.last_name (isStep_artifactName other) (names_artifactPath hother base) h'
  obtain ⟨-, hlast⟩ := List.append_inj' (hd.symm.trans hd') rfl
  exact hne (artifactName_injective (List.cons.inj hlast).1)

end Project

/-! ### What is settled -/

theorem Action.runIn_resolve (p : Path) (w : Workspace) :
    (resolve p).runIn w =
      (if p.Usable then
          match w.tree.get w.cwd (w.tree.realPath w.cwd p) with
          | .error .tooManyLinks => .error (.linkLoop (w.tree.realPath w.cwd p).spelling)
          | _ => .ok (w.tree.realPath w.cwd p)
        else .error p.spelling.refusal, w) := by
  unfold resolve
  by_cases husable : p.Usable
  · have hcheck : (checkPath p).runIn w = (.ok (), w) := by rw [runIn_checkPath, if_pos husable]
    rw [if_pos husable, runIn_bind_ok hcheck, runIn_bind_ok (runIn_get w)]
    dsimp only
    cases w.tree.get w.cwd (w.tree.realPath w.cwd p) with
    | ok n => rfl
    | error c => cases c <;> rfl
  · rw [if_neg husable]
    exact runIn_bind_error (by rw [runIn_checkPath, if_neg husable])

/-- Where there are no links, a path is resolved as before files were written over. -/
theorem Action.resolve_again {written : Place → Prop} {p real : Path} {w v : Workspace} (hplain : w.tree.Plain)
    (hsame : v.outside = w.outside) (hover : Node.Overwritten written w.tree v.tree)
    (h : (resolve p).runIn w = (.ok real, w)) : (resolve p).runIn v = (.ok real, v) := by
  have hpath : v.tree.realPath v.cwd p = w.tree.realPath w.cwd p := by
    rw [cwd_eq_of_outside hsame]
    exact Node.Plain.realPath_eq hplain (hover.plain hplain) w.cwd p
  rw [runIn_resolve] at h ⊢
  obtain ⟨hok, -⟩ := Prod.mk.injEq .. ▸ h
  by_cases husable : p.Usable
  case neg =>
    rw [if_neg husable] at hok
    cases hok
  rw [if_pos husable] at hok ⊢
  rw [hpath, cwd_eq_of_outside hsame]
  have hloop : v.tree.get w.cwd (w.tree.realPath w.cwd p) = .error .tooManyLinks ↔
      w.tree.get w.cwd (w.tree.realPath w.cwd p) = .error .tooManyLinks := hover.get_error_iff
  split at hok
  · cases hok
  · next hget =>
      cases hok
      split
      · next hget' => exact absurd (hloop.mp hget') hget
      · rfl

namespace Project

/-- The directory of artifacts is found without a trace. -/
def Settled (dir : Option Path) (base : Path) (w : Workspace) : Prop :=
  (dir.elim buildOutput pure).runIn w = (.ok base, w)

/-- The directory that the variable names, if it is set and not empty. -/
def buildVariable (w : Workspace) : Option Points := (w.environment.lookup "FLAT_FORGE_OUT").filter (· ≠ [])

theorem buildVariable_eq_of_outside {w v : Workspace} (h : v.outside = w.outside) :
    buildVariable v = buildVariable w := by
  show buildVariable v.outside = buildVariable w.outside
  rw [h]

theorem runIn_buildOutput_of_some {w : Workspace} {given : Points} (h : buildVariable w = some given) :
    buildOutput.runIn w = (expandHome (Path.ofPoints given) >>= resolve).runIn w := by
  have hvalue : (nonemptyValueOf? "FLAT_FORGE_OUT").runIn w = (.ok (some given), w) := by rw [← h]; rfl
  exact runIn_bind_ok hvalue

theorem runIn_buildOutput_of_none {w : Workspace} (h : buildVariable w = none) :
    buildOutput.runIn w = (root >>= fun b => pure (b / "out")).runIn w := by
  have hvalue : (nonemptyValueOf? "FLAT_FORGE_OUT").runIn w = (.ok none, w) := by rw [← h]; rfl
  exact runIn_bind_ok hvalue

/-- Once the directory has been found, it is settled. -/
theorem settled_of_run {dir : Option Path} {base : Path} {w w' : Workspace}
    (h : (dir.elim buildOutput pure).runIn w = (.ok base, w')) : Settled dir base w' := by
  cases dir with
  | some d =>
      cases h
      rfl
  | none =>
      show buildOutput.runIn w' = (.ok base, w')
      have hout : w'.outside = w.outside :=
        congrArg (fun u => { u with tree := .dir [] }) (keeps_buildOutput.of_runIn h)
      cases hgiven : buildVariable w with
      | some given =>
          -- everything up to here has only been read
          have hreads : Keeps id (expandHome (Path.ofPoints given) >>= resolve) :=
            (keeps_expandHome _).bind fun _ => keeps_resolve _
          have hrun : (expandHome (Path.ofPoints given) >>= resolve).runIn w = (.ok base, w') := by
            rw [← runIn_buildOutput_of_some hgiven]
            exact h
          obtain rfl : w' = w := hreads.of_runIn hrun
          rwa [runIn_buildOutput_of_some hgiven]
      | none =>
          have hrun : (root >>= fun b => pure (b / "out")).runIn w = (.ok base, w') := by
            rw [← runIn_buildOutput_of_none hgiven]
            exact h
          obtain ⟨b, w₁, hroot, hpure⟩ := runIn_bind_eq_ok hrun
          cases hpure
          rw [runIn_buildOutput_of_none ((buildVariable_eq_of_outside hout).trans hgiven),
            runIn_bind_ok (root_of_knownRoot (knownRoot_of_root hroot))]
          rfl

/-- What is settled stays so while files are written over. -/
theorem Settled.again {dir : Option Path} {base : Path} {written : Place → Prop} {w v : Workspace}
    (h : Settled dir base w) (hplain : w.tree.Plain) (hsame : v.outside = w.outside)
    (hroot : v.knownRoot = w.knownRoot)
    (hover : Node.Overwritten written w.tree v.tree) : Settled dir base v := by
  cases dir with
  | some d =>
      have hbase : (Except.ok d : Except Failure Path) = .ok base := congrArg Prod.fst h
      cases hbase
      rfl
  | none =>
      have hrun : buildOutput.runIn w = (.ok base, w) := h
      show buildOutput.runIn v = (.ok base, v)
      have hgiven := buildVariable_eq_of_outside hsame
      cases hw : buildVariable w with
      | some given =>
          rw [runIn_buildOutput_of_some hw] at hrun
          obtain ⟨p, hexpand, hresolve⟩ := (runIn_bind_eq_ok_iff (keeps_expandHome _)).mp hrun
          rw [runIn_buildOutput_of_some (hgiven.trans hw),
            runIn_bind_ok ((sees_expandHome _).runIn_eq hsame hexpand)]
          exact resolve_again hplain hsame hover hresolve
      | none =>
          rw [runIn_buildOutput_of_none hw] at hrun
          obtain ⟨b, w₁, hb, hpure⟩ := runIn_bind_eq_ok hrun
          cases hpure
          have hknown : v.knownRoot = some (none, b) := hroot.trans (knownRoot_of_root hb)
          rw [runIn_buildOutput_of_none (hgiven.trans hw), runIn_bind_ok (root_of_knownRoot hknown)]
          rfl

end Project

end SolidityKit
