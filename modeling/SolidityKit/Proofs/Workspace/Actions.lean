/-
Actions as functions.

An action takes a workspace to a result and a workspace.  `runIn` is that function, and the lemmas here say
how it goes through the ways in which actions are put together, so that no later proof opens a monad.

Most actions leave most of the workspace alone.  `Keeps view` says that an action leaves alone whatever
`view` shows: with the identity it is an action that only reads, with `Workspace.bare` one that may tell
things, ask the network and remember the project root, but touches no file.  Keeping is closed under every
combination, so that it is read off how an action is written.
-/
import SolidityKit.Proofs.Text.CodePoints
import SolidityKit.Workspace.Project

namespace SolidityKit

/-- What a text is refused with that the system does not take. -/
def Points.refusal (cs : Points) : Failure :=
  match Utf8.firstSurrogates CodePoint.isByte 0 cs with
  | some l => .encoding l
  | none => .nulCharacter

theorem Points.refusal_cases (cs : Points) : (∃ l, cs.refusal = .encoding l) ∨ cs.refusal = .nulCharacter := by
  unfold refusal
  split
  · exact .inl ⟨_, rfl⟩
  · exact .inr rfl

/-- A workspace without what actions on files never look at. -/
def Workspace.bare (w : Workspace) : Workspace := { w with knownRoot := none, told := [], network := {} }

namespace Action

variable {α β ν : Type}

/-- What an action gives in a workspace, and the workspace that it leaves. -/
def runIn (act : Action α) (w : Workspace) : Except Failure α × Workspace := act.run.run w

/-! ### Running combined actions -/

@[simp] theorem runIn_pure (a : α) (w : Workspace) : (pure a : Action α).runIn w = (.ok a, w) := rfl

@[simp] theorem runIn_throw (f : Failure) (w : Workspace) : (throw f : Action α).runIn w = (.error f, w) := rfl

@[simp] theorem runIn_get (w : Workspace) : (get : Action Workspace).runIn w = (.ok w, w) := rfl

theorem runIn_bind (act : Action α) (next : α → Action β) (w : Workspace) :
    (act >>= next).runIn w =
      match act.runIn w with
      | (.ok a, w') => (next a).runIn w'
      | (.error f, w') => (.error f, w') := by
  simp only [runIn, bind, ExceptT.bind, ExceptT.run, ExceptT.mk, StateT.run, StateT.bind]
  rcases act w with ⟨r, w'⟩
  cases r <;> rfl

theorem runIn_tryCatch (act : Action α) (handle : Failure → Action α) (w : Workspace) :
    (tryCatchThe Failure act handle).runIn w =
      match act.runIn w with
      | (.ok a, w') => (.ok a, w')
      | (.error f, w') => (handle f).runIn w' := by
  simp only [runIn, tryCatchThe, MonadExceptOf.tryCatch, ExceptT.tryCatch, ExceptT.run, ExceptT.mk, StateT.run,
    bind, StateT.bind]
  rcases act w with ⟨r, w'⟩
  cases r <;> rfl

@[simp] theorem runIn_ofExcept {ε : Type} (failure : ε → Failure) (r : Except ε α) (w : Workspace) :
    (ofExcept failure r).runIn w = (r.mapError failure, w) := by
  cases r <;> rfl

@[simp] theorem runIn_onNetwork (act : StateM Rpc.Network α) (w : Workspace) :
    (onNetwork act).runIn w = (.ok (act.run w.network).1, { w with network := (act.run w.network).2 }) := rfl

theorem runIn_bind_ok {act : Action α} {next : α → Action β} {w w' : Workspace} {a : α}
    (h : act.runIn w = (.ok a, w')) : (act >>= next).runIn w = (next a).runIn w' := by
  rw [runIn_bind, h]

theorem runIn_bind_error {act : Action α} {next : α → Action β} {w w' : Workspace} {f : Failure}
    (h : act.runIn w = (.error f, w')) : (act >>= next).runIn w = (.error f, w') := by
  rw [runIn_bind, h]

/-- Two actions in a row come to a result only if both do. -/
theorem runIn_bind_eq_ok {act : Action α} {next : α → Action β} {w w' : Workspace} {b : β}
    (h : (act >>= next).runIn w = (.ok b, w')) :
    ∃ a w₁, act.runIn w = (.ok a, w₁) ∧ (next a).runIn w₁ = (.ok b, w') := by
  rw [runIn_bind] at h
  rcases hact : act.runIn w with ⟨r, w₁⟩
  rw [hact] at h
  cases r with
  | ok a => exact ⟨a, w₁, rfl, h⟩
  | error f => exact absurd (congrArg Prod.fst h) (by simp)

theorem runIn_ofExcept_eq_ok {ε : Type} {failure : ε → Failure} {r : Except ε α} {w w' : Workspace} {a : α}
    (h : (ofExcept failure r).runIn w = (.ok a, w')) : r = .ok a ∧ w' = w := by
  cases r with
  | error e => cases h
  | ok b => cases h; exact ⟨rfl, rfl⟩

theorem runIn_ofExcept_ok {ε : Type} {failure : ε → Failure} {r : Except ε α} {a : α} (h : r = .ok a)
    (w : Workspace) :
    (ofExcept failure r).runIn w = (.ok a, w) := by
  rw [runIn_ofExcept, h]
  rfl

theorem runIn_checkUsable (cs : Points) (w : Workspace) :
    (checkUsable cs).runIn w = (if cs.Usable then .ok () else .error cs.refusal, w) := by
  unfold checkUsable checkEncodable Points.refusal
  cases hfirst : Utf8.firstSurrogates CodePoint.isByte 0 cs with
  | some l => simp [Points.usable_iff, hfirst]
  | none => by_cases hnul : .char '\x00' ∈ cs <;> simp [Points.usable_iff, hfirst, hnul]

theorem runIn_checkUsable_of_usable {cs : Points} (h : cs.Usable) (w : Workspace) :
    (checkUsable cs).runIn w = (.ok (), w) := by
  rw [runIn_checkUsable, if_pos h]

theorem runIn_checkUsable_of_unusable {cs : Points} (h : ¬ cs.Usable) (w : Workspace) :
    (checkUsable cs).runIn w = (.error cs.refusal, w) := by
  rw [runIn_checkUsable, if_neg h]

/-- Two actions in a row fail if the first fails, or if it comes to a result and the second fails. -/
theorem runIn_bind_eq_error {act : Action α} {next : α → Action β} {w w' : Workspace} {f : Failure}
    (h : (act >>= next).runIn w = (.error f, w')) :
    act.runIn w = (.error f, w') ∨
      ∃ a w₁, act.runIn w = (.ok a, w₁) ∧ (next a).runIn w₁ = (.error f, w') := by
  rw [runIn_bind] at h
  rcases hact : act.runIn w with ⟨r, w₁⟩
  rw [hact] at h
  cases r with
  | ok a => exact Or.inr ⟨a, w₁, rfl, h⟩
  | error g =>
      obtain ⟨hfst, hsnd⟩ := Prod.mk.injEq .. ▸ h
      cases hfst
      subst hsnd
      exact Or.inl rfl

/-! ### What an action leaves alone -/

/-- Whether or not an action comes to a result, it leaves alone what a view shows of the workspace. -/
def Keeps (view : Workspace → ν) (act : Action α) : Prop := ∀ w, view (act.runIn w).2 = view w

namespace Keeps

variable {view : Workspace → ν}

/-- A run that is at hand shows the view as it was. -/
theorem of_runIn {act : Action α} (hact : Keeps view act) {w w' : Workspace} {r : Except Failure α}
    (h : act.runIn w = (r, w')) : view w' = view w := by
  have hkept := hact w
  rwa [h] at hkept

theorem pure (a : α) : Keeps view (pure a : Action α) := fun _ => rfl

theorem throw (f : Failure) : Keeps view (throw f : Action α) := fun _ => rfl

theorem get : Keeps view (get : Action Workspace) := fun _ => rfl

theorem ofExcept {ε : Type} (failure : ε → Failure) (r : Except ε α) : Keeps view (ofExcept failure r) := by
  intro w
  rw [runIn_ofExcept]

theorem bind {act : Action α} {next : α → Action β} (hact : Keeps view act) (hnext : ∀ a, Keeps view (next a)) :
    Keeps view (act >>= next) := by
  intro w
  have h := hact w
  rw [runIn_bind]
  rcases hrun : act.runIn w with ⟨r, w'⟩
  rw [hrun] at h
  cases r with
  | ok a => exact (hnext a w').trans h
  | error f => exact h

theorem tryCatch {act : Action α} {handle : Failure → Action α} (hact : Keeps view act)
    (hhandle : ∀ f, Keeps view (handle f)) : Keeps view (tryCatchThe Failure act handle) := by
  intro w
  have h := hact w
  rw [runIn_tryCatch]
  rcases hrun : act.runIn w with ⟨r, w'⟩
  rw [hrun] at h
  cases r with
  | ok a => exact h
  | error f => exact (hhandle f w').trans h

theorem ite {c : Prop} [Decidable c] {act act' : Action α} (h : Keeps view act) (h' : Keeps view act') :
    Keeps view (if c then act else act') := by
  split
  · exact h
  · exact h'

theorem anyM {act : α → Action Bool} (hact : ∀ a, Keeps view (act a)) (as : List α) :
    Keeps view (as.anyM act) := by
  induction as with
  | nil => exact Keeps.pure _
  | cons a rest ih =>
      refine (hact a).bind fun b => ?_
      cases b
      · exact ih
      · exact Keeps.pure _

theorem mapM {act : α → Action β} (hact : ∀ a, Keeps view (act a)) (as : List α) :
    Keeps view (as.mapM act) := by
  induction as with
  | nil => exact Keeps.pure []
  | cons a rest ih =>
      rw [List.mapM_cons]
      exact (hact a).bind fun _ => ih.bind fun _ => Keeps.pure _

theorem of_reads {act : Action α} (hact : Keeps id act) : Keeps view act :=
  fun w => congrArg view (hact w)

theorem notice (level : Level) (words : Points) : Keeps Workspace.bare (notice level words) := fun _ => rfl

end Keeps

/-- An action that only reads, done for each item of a list, gives the same in another
workspace if each does. -/
theorem runIn_mapM_congr {act : α → Action β} (hact : ∀ a, Keeps id (act a)) {w v : Workspace} {as : List α}
    {bs : List β} (hsame : ∀ a ∈ as, ∀ b, (act a).runIn w = (.ok b, w) → (act a).runIn v = (.ok b, v))
    (h : (as.mapM act).runIn w = (.ok bs, w)) : (as.mapM act).runIn v = (.ok bs, v) := by
  induction as generalizing bs with
  | nil =>
      cases h
      rfl
  | cons a rest ih =>
      rw [List.mapM_cons] at h ⊢
      obtain ⟨b, w₁, hb, hrest⟩ := runIn_bind_eq_ok h
      obtain rfl : w₁ = w := (hact a).of_runIn hb
      obtain ⟨bs', w₂, hbs, hpure⟩ := runIn_bind_eq_ok hrest
      cases hpure
      have hrest' := ih (fun a' ha' => hsame a' (List.mem_cons_of_mem a ha')) hbs
      rw [runIn_bind_ok (hsame a List.mem_cons_self b hb), runIn_bind_ok hrest', runIn_pure]

end Action

end SolidityKit
