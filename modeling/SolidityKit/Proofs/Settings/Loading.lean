/-
How loading settings fails.

Settings cannot be had if a file cannot be read, if it holds no document, or if the document is refused.  That
there is no file is no reason, because a file that is missing has no entries: what was found to be there is
there when it is read (`looks_load`).  What was accepted has a listing order that is known (`ends_load`).
-/
import SolidityKit.Settings.File
import SolidityKit.Proofs.Flatten.Outputs
import SolidityKit.Proofs.Workspace.Finding

namespace SolidityKit

open SolidityKit.Action

namespace Failure

/-- The settings cannot be had. -/
def ofSettings : Failure → Bool
  | yaml _ | settings _ => true
  | f => f.ofReading

/-- A text is no document, or no document of settings. -/
def ofDocument : Failure → Bool
  | yaml _ | settings _ => true
  | _ => false

variable {f : Failure}

theorem ofSettings_of_ofDocument (h : f.ofDocument = true) : f.ofSettings = true := by
  cases f <;> first | rfl | cases h

theorem ofSettings_of_ofReading (h : f.ofReading = true) : f.ofSettings = true := by
  cases f <;> first | rfl | exact h

theorem ofSettings_of_ofLooking (h : f.ofLooking = true) : f.ofSettings = true :=
  ofSettings_of_ofReading (ofReading_of_ofLooking h)

end Failure

namespace Settings

variable (reader : Reader)

/-! ### One file -/

theorem fails_readDocument (p : Path) : Fails Failure.ofReading (readDocument p) := by
  refine (fails_readText p).tryCatch fun f hf => ?_
  split
  · exact Ends.throw rfl
  · exact Ends.throw hf

theorem keeps_readDocument (p : Path) : Keeps id (readDocument p) := by
  refine (keeps_readText p).tryCatch fun f => ?_
  split <;> exact Keeps.throw _

theorem readText_of_readDocument {p : Path} {w w' : Workspace} {f : Files.Fault}
    (h : (readDocument p).runIn w = (.error (.file f), w')) :
    (readText p).runIn w = (.error (.file f), w') := by
  unfold readDocument at h
  rw [show tryCatch (readText p) = tryCatchThe Failure (readText p) from rfl, runIn_tryCatch] at h
  rcases hread : (readText p).runIn w with ⟨r, w₁⟩
  rw [hread] at h
  cases r with
  | ok t => cases h
  | error g =>
      dsimp only at h
      split at h
      · cases h
      · cases h
        rfl

/-- The entries of what a settings file holds. -/
def entriesOf (p : Path) : Option Value → Action Entries
  | none | some (.scalar .null) => pure []
  | some (.map es) => pure es
  | some v => throw (.settings (.documentNotMap p.spelling v.kindName))

theorem readEntries_eq (p : Path) :
    readEntries reader p = Action.pathExists p >>= fun there => if !there then pure [] else
      readDocument p >>= fun t => Action.ofExcept .yaml (reader t) >>= entriesOf p := rfl

theorem fails_entriesOf (p : Path) (t : Text) :
    Fails Failure.ofDocument (Action.ofExcept .yaml (reader t) >>= entriesOf p) := by
  refine Ends.bind (Ends.ofExcept (fun _ _ => trivial) fun _ _ => rfl) fun v? _ => ?_
  unfold entriesOf
  split <;> first | exact Ends.pure trivial | exact Ends.throw rfl

theorem fails_readEntries (p : Path) : Fails Failure.ofSettings (readEntries reader p) := by
  rw [readEntries_eq]
  refine ((fails_pathExists p).mono fun _ => Failure.ofSettings_of_ofLooking).bind fun there _ => ?_
  cases there
  · exact Ends.pure trivial
  · exact ((fails_readDocument p).mono fun _ => Failure.ofSettings_of_ofReading).bind fun t _ =>
      (fails_entriesOf reader p t).mono fun _ => Failure.ofSettings_of_ofDocument

theorem keeps_readEntries (p : Path) : Keeps id (readEntries reader p) := by
  rw [readEntries_eq]
  refine (keeps_pathExists p).bind fun there => Keeps.ite (Keeps.pure _) ?_
  refine (keeps_readDocument p).bind fun t => (Keeps.ofExcept _ _).bind fun v? => ?_
  unfold entriesOf
  split <;> first | exact Keeps.pure _ | exact Keeps.throw _

theorem finds_readEntries (p : Path) : Finds (readEntries reader p) := by
  intro w w' f hw hf
  rw [readEntries_eq] at hf
  rcases runIn_bind_eq_error hf with hf | ⟨there, w₁, hthere, hf⟩
  · exact Finds.of_looking (fails_pathExists p) w w' f hw hf
  obtain rfl : w₁ = w := (keeps_pathExists p).of_runIn hthere
  cases there with
  | false => cases hf
  | true =>
      rcases runIn_bind_eq_error hf with hf | ⟨t, w₂, -, hf⟩
      · exact cause_of_readText hw hthere (readText_of_readDocument hf)
      · cases (fails_entriesOf reader p t _ _).2 _ hf

theorem looks_readEntries (p : Path) : Looks Failure.ofSettings (readEntries reader p) :=
  ⟨(keeps_readEntries reader p).of_reads, fails_readEntries reader p, finds_readEntries reader p⟩

/-! ### All files and variables -/

theorem looks_projectEntries : Looks Failure.ofSettings (projectEntries reader) := by
  have hlooking {f : Failure} (h : f.ofLooking = true) : f.ofSettings = true :=
    Failure.ofSettings_of_ofLooking h
  refine (Project.looks_settingsFile.mono fun _ => hlooking).bind fun p => (looks_readEntries reader p).bind
    fun base => ?_
  refine (Project.looks_localSettingsFile.mono fun _ => hlooking).bind fun own => ?_
  refine ((looks_pathExists own).mono fun _ => hlooking).bind fun there => ?_
  cases there
  · exact .pure _
  · exact (looks_readEntries reader own).bind fun _ => .pure _

/-- The settings of entries, over which the variables have the last word. -/
def settled (es : Entries) : Action Settings := do
  let es := overrideField es "output" "dir" (← Action.valueOf? "FLAT_OUTPUT_DIR")
  let es := overrideField es "sources" "listing_order" (← Action.valueOf? "FLAT_LISTING_ORDER")
  Action.ofExcept .settings (ofEntries es)

/-- Settings that are accepted have a listing order that is known. -/
theorem ends_settled (es : Entries) :
    Ends (fun s => s.listingOrder ∈ listingOrders) Failure.ofDocument (settled es) := by
  refine (Project.fails_valueOf? _).bind fun dir _ => (Project.fails_valueOf? _).bind fun order _ => ?_
  refine Ends.ofExcept (fun s hs => ?_) fun _ _ => rfl
  obtain ⟨-, -, -, horder, -⟩ := validate_eq_ok_iff.mp (validate_of_ofEntries hs)
  exact horder

theorem looks_settled (es : Entries) : Looks Failure.ofDocument (settled es) where
  keeps := Keeps.bind (fun _ => rfl) fun _ => Keeps.bind (fun _ => rfl) fun _ => Keeps.ofExcept _ _
  fails := (ends_settled es).weaken
  finds := .of_fails (ends_settled es).weaken fun f hf => by cases hf

/-- Where the entries of settings come from. -/
theorem load_eq (path : Option Points) :
    ∃ entries, Looks Failure.ofSettings entries ∧ load reader path = entries >>= settled := by
  cases path with
  | none => exact ⟨projectEntries reader, looks_projectEntries reader, rfl⟩
  | some path =>
      refine ⟨Project.locatePoints path none >>= readEntries reader, ?_, (bind_assoc _ _ _).symm⟩
      exact ((Project.looks_locate _ none).mono fun _ => Failure.ofSettings_of_ofLooking).bind
        (looks_readEntries reader)

theorem ends_load (path : Option Points) :
    Ends (fun s => s.listingOrder ∈ listingOrders) Failure.ofSettings (load reader path) := by
  obtain ⟨entries, hentries, heq⟩ := load_eq reader path
  rw [heq]
  exact hentries.fails.bind fun es _ => (ends_settled es).mono fun _ => Failure.ofSettings_of_ofDocument

/-- Settings are never missing. -/
theorem looks_load (path : Option Points) : Looks Failure.ofSettings (load reader path) := by
  obtain ⟨entries, hentries, heq⟩ := load_eq reader path
  rw [heq]
  exact hentries.bind fun es => (looks_settled es).mono fun _ => Failure.ofSettings_of_ofDocument

end Settings

end SolidityKit
