/-
Actions that do not miss what they need.

Before a tool reads a file it asks whether the file is there, and what is there can be read or is a directory.
So a missing file is no failure of it (`Finds`), as long as the current directory is there to start from, which
nothing that a tool does changes (`Stays`).
-/
import SolidityKit.Proofs.Workspace.Failures
import SolidityKit.Proofs.Workspace.Rewriting

namespace SolidityKit

open Files SolidityKit.Action

namespace Action

variable {α β : Type}

/-- After the action the current directory is still there. -/
def Stays (act : Action α) : Prop := ∀ w, w.Grounded → (act.runIn w).2.Grounded

namespace Stays

theorem of_keeps {act : Action α} (h : Keeps Workspace.bare act) : Stays act := by
  intro w hw
  unfold Workspace.Grounded
  rwa [tree_eq_of_bare (h w), cwd_eq_of_bare (h w)]

theorem pure (a : α) : Stays (pure a : Action α) := of_keeps (Keeps.pure a)

theorem notice (level : Level) (words : Points) : Stays (notice level words) :=
  of_keeps (Keeps.notice level words)

theorem bind {act : Action α} {next : α → Action β} (hact : Stays act) (hnext : ∀ a, Stays (next a)) :
    Stays (act >>= next) := by
  intro w hw
  have h := hact w hw
  rw [runIn_bind]
  rcases hrun : act.runIn w with ⟨r, w'⟩
  rw [hrun] at h
  cases r with
  | ok a => exact hnext a w' h
  | error f => exact h

end Stays

theorem stays_writePoints (p : Path) (cs : List CodePoint) : Stays (writePoints p cs) := by
  intro w hw
  by_cases husable : p.Usable
  · have hwrote := wrote_writePoints husable (hw.start p) cs
    generalize (writePoints p cs).runIn w = out at hwrote
    cases hwrote with
    | refused => exact hw
    | emptied _ _ hgrows => exact hw.grows hgrows
    | written _ _ _ _ hgrows => exact hw.grows hgrows
  · have hrefused : (change p fun tree cwd p => tree.writeBytes cwd p ByteArray.empty).runIn w =
        (.error p.spelling.refusal, w) := by
      unfold change
      exact runIn_bind_error (by rw [runIn_look, if_neg husable])
    unfold writePoints
    rw [runIn_bind_error hrefused]
    exact hw

/-- In a workspace whose current directory is there, the action does not fail because something is missing. -/
def Finds (act : Action α) : Prop :=
  ∀ w w' f, w.Grounded → act.runIn w = (.error (.file f), w') → f.cause ≠ .notFound

namespace Finds

theorem of_fails {bad : Failure → Bool} {act : Action α} (h : Fails bad act)
    (hbad : ∀ f, bad (.file f) = true → f.cause ≠ .notFound) : Finds act :=
  fun w w' f _ hf => hbad f ((h w w').2 _ hf)

theorem of_looking {act : Action α} (h : Fails Failure.ofLooking act) : Finds act := by
  refine .of_fails h fun f hf hcause => ?_
  rw [Failure.ofLooking, hcause] at hf
  cases hf

theorem of_path {act : Action α} (h : Fails Failure.ofPath act) : Finds act :=
  of_fails h fun f hf => by cases hf

theorem of_never {act : Action α} (h : Fails (fun _ => false) act) : Finds act :=
  of_fails h fun f hf => by cases hf

theorem pure (a : α) : Finds (pure a : Action α) := fun _ _ _ _ h => by cases h

theorem bind {act : Action α} {next : α → Action β} (hact : Finds act) (hstays : Stays act)
    (hnext : ∀ a, Finds (next a)) : Finds (act >>= next) := by
  intro w w' f hw hf
  rcases runIn_bind_eq_error hf with hf | ⟨a, w₁, ha, hf⟩
  · exact hact w w' f hw hf
  · have hw₁ := hstays w hw
    rw [ha] at hw₁
    exact hnext a w₁ w' f hw₁ hf

/-- After the last thing that has to do with files, the current directory does not matter. -/
theorem bind_path {act : Action α} {next : α → Action β} (hact : Finds act)
    (hnext : ∀ a, Fails Failure.ofPath (next a)) : Finds (act >>= next) := by
  intro w w' f hw hf
  rcases runIn_bind_eq_error hf with hf | ⟨a, w₁, -, hf⟩
  · exact hact w w' f hw hf
  · cases (hnext a w₁ w').2 _ hf

theorem ite {c : Prop} [Decidable c] {act act' : Action α} (h : Finds act) (h' : Finds act') :
    Finds (if c then act else act') := by
  split
  · exact h
  · exact h'

theorem mapM {act : α → Action β} (hact : ∀ a, Finds (act a)) (hstays : ∀ a, Stays (act a)) (as : List α) :
    Finds (as.mapM act) := by
  induction as with
  | nil => exact pure []
  | cons a rest ih =>
      rw [List.mapM_cons]
      exact (hact a).bind (hstays a) fun b => ih.bind_path fun bs => Ends.pure trivial

end Finds

/-- The action changes no file, and it fails in certain ways only, but never because something is missing. -/
structure Looks (bad : Failure → Bool) (act : Action α) : Prop where
  /-- Nothing but the remembered root and what was told is different afterwards. -/
  keeps : Keeps Workspace.bare act
  /-- The ways in which it fails. -/
  fails : Fails bad act
  /-- Nothing is missing. -/
  finds : Finds act

namespace Looks

variable {bad bad' : Failure → Bool}

theorem of_looking {act : Action α} (hfails : Fails Failure.ofLooking act) (hkeeps : Keeps Workspace.bare act) :
    Looks Failure.ofLooking act := ⟨hkeeps, hfails, .of_looking hfails⟩

theorem of_never {act : Action α} (hfails : Fails (fun _ => false) act) (hkeeps : Keeps Workspace.bare act) :
    Looks bad act where
  keeps := hkeeps
  fails := hfails.mono fun _ h => by cases h
  finds := .of_never hfails

theorem pure (a : α) : Looks bad (pure a : Action α) := of_never (Ends.pure trivial) (Keeps.pure a)

theorem mono {act : Action α} (h : Looks bad act) (hbad : ∀ f, bad f = true → bad' f = true) : Looks bad' act :=
  ⟨h.keeps, h.fails.mono hbad, h.finds⟩

theorem bind {act : Action α} {next : α → Action β} (hact : Looks bad act) (hnext : ∀ a, Looks bad (next a)) :
    Looks bad (act >>= next) where
  keeps := hact.keeps.bind fun a => (hnext a).keeps
  fails := hact.fails.bind fun a _ => (hnext a).fails
  finds := hact.finds.bind (.of_keeps hact.keeps) fun a => (hnext a).finds

/-- What is done after looking finds everything if it does so by itself. -/
theorem andThen {act : Action α} {next : α → Action β} (hact : Looks bad act) (hnext : ∀ a, Finds (next a)) :
    Finds (act >>= next) := hact.finds.bind (.of_keeps hact.keeps) hnext

end Looks

theorem looks_pathExists (p : Path) : Looks Failure.ofLooking (pathExists p) :=
  .of_looking (fails_pathExists p) (keeps_pathExists p).of_reads

/-! ### Files that were found to be there -/

/-- What is there is a file or a directory, and of neither is it said that nothing is there. -/
theorem cause_of_readText {p : Path} {w w₁ w' : Workspace} {f : Files.Fault} (hw : w.Grounded)
    (hthere : (pathExists p).runIn w = (.ok true, w₁)) (hread : (readText p).runIn w = (.error (.file f), w')) :
    f.cause ≠ .notFound := by
  have husable : p.Usable := by
    by_contra husable
    have hnone : (pathExists p).runIn w = (.ok false, w) := by
      unfold pathExists node?
      rw [Bool.eq_false_iff.mpr (Path.isUsable_iff.not.mpr husable)]
      rfl
    cases hnone.symm.trans hthere
  rw [runIn_readText husable] at hread
  unfold pathExists at hthere
  rw [runIn_bind, runIn_node? husable] at hthere
  unfold Node.readBytes at hread
  cases hget : w.tree.get w.cwd p with
  | error c =>
      rw [hget] at hthere
      by_cases habsent : c.meansAbsent = true
      · simp [habsent] at hthere
      · simp [habsent] at hthere
  | ok n =>
      rw [hget] at hread
      cases n with
      | file content =>
          obtain ⟨hfst, -⟩ := Prod.mk.injEq .. ▸ hread
          change ((Utf8.decode content).mapError Failure.decoding).map Text.unifyLineEnds = _ at hfst
          cases hdecode : Utf8.decode content with
          | ok t => rw [hdecode] at hfst; cases hfst
          | error d => rw [hdecode] at hfst; cases hfst
      | dir es =>
          cases hread
          exact fun h => by cases h
      | link target =>
          obtain ⟨place, l, hwalks⟩ := Node.get_eq_ok_iff.mp hget
          exact absurd rfl (hwalks.not_link (hw.start p) target)

/-- After a file was found to be there, only what comes after reading it can miss something. -/
theorem cause_of_reading {p : Path} {next : Text → Action α} {w w₁ w' : Workspace} {f : Files.Fault}
    (hw : w.Grounded)
    (hthere : (pathExists p).runIn w = (.ok true, w₁))
    (hf : (readText p >>= next).runIn w₁ = (.error (.file f), w'))
    (hnext : ∀ t, p.Usable → w.HasText p t → (next t).runIn w = (.error (.file f), w') → f.cause ≠ .notFound) :
    f.cause ≠ .notFound := by
  obtain rfl : w₁ = w := (keeps_pathExists p).of_runIn hthere
  rcases runIn_bind_eq_error hf with hread | ⟨t, w₂, hread, hrest⟩
  · exact cause_of_readText hw hthere hread
  · obtain ⟨rfl, husable, htext⟩ := hasText_of_readText hread
    exact hnext t husable htext hrest

/-- A result is taken, or the failure is not one of files. -/
theorem ok_of_file {ε : Type} {failure : ε → Failure} {r : Except ε α} {next : α → Action β} {w w' : Workspace}
    {f : Files.Fault} (hfailure : ∀ e, failure e ≠ .file f)
    (hf : (ofExcept failure r >>= next).runIn w = (.error (.file f), w')) :
    ∃ a, r = .ok a ∧ (next a).runIn w = (.error (.file f), w') := by
  cases r with
  | ok a => exact ⟨a, rfl, hf⟩
  | error e => exact absurd (Except.error.inj (congrArg Prod.fst hf)) (hfailure e)

end Action

/-! ### The project -/

namespace Project

theorem looks_root : Looks Failure.ofLooking root := .of_looking fails_root keeps_root

theorem looks_configs : Looks Failure.ofLooking configs := looks_root.bind fun _ => .pure _

theorem looks_settingsFile : Looks Failure.ofLooking settingsFile := looks_configs.bind fun _ => .pure _

theorem looks_localSettingsFile : Looks Failure.ofLooking localSettingsFile :=
  looks_configs.bind fun _ => .pure _

theorem looks_broadcastRecord (script network : Points) :
    Looks Failure.ofLooking (broadcastRecord script network) := by
  have hdir : Looks Failure.ofLooking broadcasts := looks_root.bind fun _ => .pure _
  exact hdir.bind fun _ => .pure _

theorem looks_buildArtifact (contract : Points) (dir : Option Path) :
    Looks Failure.ofLooking (buildArtifact contract dir) :=
  .of_looking (fails_buildArtifact contract dir) (keeps_buildArtifact contract dir)

theorem looks_locate (p : Path) (base : Option Path) : Looks Failure.ofLooking (locate p base) := by
  refine .of_looking (fails_locate p base) ?_
  refine (keeps_expandHome p).of_reads.bind fun q =>
    Keeps.ite (Keeps.pure _) (Keeps.bind ?_ fun _ => Keeps.pure _)
  cases base with
  | none => exact keeps_root
  | some b => exact Keeps.pure _

end Project

end SolidityKit
