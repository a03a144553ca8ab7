/-
How actions can end.

`Ends good bad act` says what may come of an action, in whatever workspace it is done: every result is good,
and every failure is one of the bad ones.  It is carried through a program rule by rule, and a handler is where
the bad ones become fewer (`Ends.tryCatch`).

Failures come in nested kinds.  The spelling of a path may be of no use (`ofPath`); the way to it may be broken
in a way that does not just mean that nothing is there (`ofLooking`); a file may not be made or written
(`ofChanging`); a file may not be there, or be no text (`ofReading`).
-/
import SolidityKit.Proofs.Workspace.Actions
import SolidityKit.Workspace.Project

namespace SolidityKit

namespace Failure

/-- The spelling of a path is of no use. -/
def ofPath : Failure → Bool
  | nulCharacter | encoding _ | noHome | linkLoop _ => true
  | _ => false

/-- What is at a path cannot be found out. -/
def ofLooking : Failure → Bool
  | file f => !f.cause.meansAbsent
  | f => f.ofPath

/-- The text of a file cannot be had. -/
def ofReading : Failure → Bool
  | file _ | decoding _ => true
  | f => f.ofPath

/-- A file or a directory cannot be made, or a text cannot be put into it. -/
def ofChanging : Failure → Bool
  | file _ => true
  | f => f.ofPath

variable {f : Failure}

theorem ofLooking_of_ofPath (h : f.ofPath = true) : f.ofLooking = true := by
  cases f <;> first | exact h | cases h

theorem ofChanging_of_ofLooking (h : f.ofLooking = true) : f.ofChanging = true := by
  cases f <;> first | rfl | exact h

theorem ofReading_of_ofChanging (h : f.ofChanging = true) : f.ofReading = true := by
  cases f <;> first | rfl | exact h

theorem ofChanging_of_ofPath (h : f.ofPath = true) : f.ofChanging = true :=
  ofChanging_of_ofLooking (ofLooking_of_ofPath h)

theorem ofReading_of_ofLooking (h : f.ofLooking = true) : f.ofReading = true :=
  ofReading_of_ofChanging (ofChanging_of_ofLooking h)

end Failure

namespace Action

variable {α β : Type}

/-- Every result of the action is good, and every failure is one of the bad ones. -/
def Ends (good : α → Prop) (bad : Failure → Bool) (act : Action α) : Prop :=
  ∀ w w', (∀ a, act.runIn w = (.ok a, w') → good a) ∧ ∀ f, act.runIn w = (.error f, w') → bad f = true

/-- Every failure of the action is one of the bad ones. -/
abbrev Fails (bad : Failure → Bool) (act : Action α) : Prop := Ends (fun _ => True) bad act

namespace Ends

variable {good : α → Prop} {bad bad' : Failure → Bool}

theorem pure {a : α} (h : good a) : Ends good bad (pure a) := by
  intro w w'
  refine ⟨fun b hb => ?_, fun f hf => ?_⟩
  · cases hb
    exact h
  · cases hf

theorem throw {f : Failure} (h : bad f = true) : Ends good bad (throw f) := by
  intro w w'
  refine ⟨fun b hb => ?_, fun g hg => ?_⟩
  · cases hb
  · cases hg
    exact h

theorem mono {act : Action α} (hact : Ends good bad act) (hbad : ∀ f, bad f = true → bad' f = true) :
    Ends good bad' act :=
  fun w w' => ⟨(hact w w').1, fun f hf => hbad f ((hact w w').2 f hf)⟩

theorem weaken {act : Action α} (hact : Ends good bad act) : Fails bad act :=
  fun w w' => ⟨fun _ _ => trivial, (hact w w').2⟩

theorem bind {good' : β → Prop} {act : Action α} {next : α → Action β} (hact : Ends good bad act)
    (hnext : ∀ a, good a → Ends good' bad (next a)) : Ends good' bad (act >>= next) := by
  intro w w'
  refine ⟨fun b hb => ?_, fun f hf => ?_⟩
  · obtain ⟨a, w₁, ha, hb⟩ := runIn_bind_eq_ok hb
    exact (hnext a ((hact w w₁).1 a ha) w₁ w').1 b hb
  · obtain hf | ⟨a, w₁, ha, hf⟩ := runIn_bind_eq_error hf
    · exact (hact w w').2 f hf
    · exact (hnext a ((hact w w₁).1 a ha) w₁ w').2 f hf

/-- What cannot fail adds no failures. -/
theorem runIn_bind_eq_error_iff {act : Action α} {next : α → Action β}
    (hnext : ∀ a, Fails (fun _ => false) (next a))
    {w w' : Workspace} {f : Failure} : (act >>= next).runIn w = (.error f, w') ↔
    act.runIn w = (.error f, w') := by
  refine ⟨fun h => ?_, runIn_bind_error⟩
  rcases runIn_bind_eq_error h with h | ⟨a, w₁, -, h⟩
  · exact h
  · cases (hnext a w₁ w').2 f h

/-- A handler has to deal with the failures of what it guards, and with no others. -/
theorem tryCatch {act : Action α} {handle : Failure → Action α} (hact : Ends good bad act)
    (hhandle : ∀ f, bad f = true → Ends good bad' (handle f)) :
    Ends good bad' (tryCatchThe Failure act handle) := by
  intro w w'
  rw [runIn_tryCatch]
  rcases hrun : act.runIn w with ⟨r, w₁⟩
  cases r with
  | ok a =>
      refine ⟨fun b hb => ?_, fun f hf => ?_⟩
      · cases hb
        exact (hact w w').1 a hrun
      · cases hf
  | error f => exact hhandle f ((hact w w₁).2 f hrun) w₁ w'

theorem ofExcept {ε : Type} {failure : ε → Failure} {r : Except ε α} (hgood : ∀ a, r = .ok a → good a)
    (hbad : ∀ e, r = .error e → bad (failure e) = true) : Ends good bad (ofExcept failure r) := by
  cases r with
  | ok a => exact pure (hgood a rfl)
  | error e => exact throw (hbad e rfl)

theorem ite {c : Prop} [Decidable c] {act act' : Action α} (h : c → Ends good bad act)
    (h' : ¬ c → Ends good bad act') :
    Ends good bad (if c then act else act') := by
  by_cases hc : c
  · rw [if_pos hc]
    exact h hc
  · rw [if_neg hc]
    exact h' hc

theorem foldlM {act : α → β → Action α} {a : α} (ha : good a) (hact : ∀ a b, good a → Ends good bad (act a b))
    (bs : List β) : Ends good bad (bs.foldlM act a) := by
  induction bs generalizing a with
  | nil => exact pure ha
  | cons b rest ih => exact (hact a b ha).bind fun a' ha' => ih ha'

end Ends

/-- A handler deals with the failures that it expects and throws all others again. -/
structure Handles (good : α → Prop) (expected : Failure → Bool) (handle : Failure → Action α) : Prop where
  /-- What is expected comes to a good result. -/
  caught : ∀ f, expected f = true → Ends good (fun _ => false) (handle f)
  /-- What is not expected is thrown again. -/
  thrown : ∀ f, expected f = false → handle f = MonadExcept.throw f

namespace Handles

variable {good : α → Prop} {bad expected : Failure → Bool} {act : Action α} {handle : Failure → Action α}

theorem ends (h : Handles good expected handle) (hact : Ends good bad act) :
    Ends good (fun f => bad f && !expected f) (tryCatchThe Failure act handle) := by
  refine hact.tryCatch fun f hf => ?_
  cases hexpected : expected f with
  | true => exact (h.caught f hexpected).mono fun _ hnone => by cases hnone
  | false =>
      rw [h.thrown f hexpected]
      exact Ends.throw (by rw [hf, hexpected]; rfl)

/-- Just what is not expected gets through. -/
theorem runIn_eq_error_iff (h : Handles good expected handle) {w w' : Workspace} {f : Failure} :
    (tryCatchThe Failure act handle).runIn w = (.error f, w') ↔ act.runIn w = (.error f, w') ∧
    expected f = false := by
  rw [runIn_tryCatch]
  rcases act.runIn w with ⟨r, w₁⟩
  cases r with
  | ok a =>
      refine ⟨fun hf => ?_, fun hf => ?_⟩
      · cases hf
      · cases hf.1
  | error g =>
      dsimp only
      cases hexpected : expected g with
      | true =>
          refine ⟨fun hf => ?_, fun hf => ?_⟩
          · cases (h.caught g hexpected w₁ w').2 f hf
          · cases hf.1
            cases hexpected.symm.trans hf.2
      | false =>
          rw [h.thrown g hexpected]
          refine ⟨fun hf => ?_, fun hf => hf.1⟩
          cases hf
          exact ⟨rfl, hexpected⟩

end Handles

namespace Fails

variable {bad : Failure → Bool}

theorem get : Fails bad (get : Action Workspace) := fun _ _ => ⟨fun _ _ => trivial, fun _ h => (by cases h)⟩

theorem modify (g : Workspace → Workspace) : Fails bad (modify g : Action Unit) :=
  fun _ _ => ⟨fun _ _ => trivial, fun _ h => (by cases h)⟩

theorem notice (level : Level) (words : Points) : Fails bad (notice level words) := modify _

theorem onNetwork (act : StateM Rpc.Network α) : Fails bad (onNetwork act) :=
  fun _ _ => ⟨fun _ _ => trivial, fun _ h => (by cases h)⟩

theorem anyM {act : α → Action Bool} (hact : ∀ a, Fails bad (act a)) (as : List α) :
    Fails bad (as.anyM act) := by
  induction as with
  | nil => exact Ends.pure trivial
  | cons a rest ih =>
      refine (hact a).bind fun b _ => ?_
      cases b
      · exact ih
      · exact Ends.pure trivial

theorem forM {act : α → Action Unit} (hact : ∀ a, Fails bad (act a)) (as : List α) :
    Fails bad (as.forM act) := by
  induction as with
  | nil => exact Ends.pure trivial
  | cons a rest ih => exact (hact a).bind fun _ _ => ih

theorem mapM {act : α → Action β} (hact : ∀ a, Fails bad (act a)) (as : List α) : Fails bad (as.mapM act) := by
  induction as with
  | nil => exact Ends.pure trivial
  | cons a rest ih =>
      rw [List.mapM_cons]
      exact (hact a).bind fun _ _ => ih.bind fun _ _ => Ends.pure trivial

end Fails

/-! ### Paths and files -/

open Files

theorem fails_checkEncodable (allowed : CodePoint → Bool) (cs : Points) :
    Fails Failure.ofPath (checkEncodable allowed cs) := by
  unfold checkEncodable
  split
  · exact Ends.throw rfl
  · exact Ends.pure trivial

theorem fails_checkUsable (cs : Points) : Fails Failure.ofPath (checkUsable cs) :=
  (fails_checkEncodable _ cs).bind fun _ _ => Ends.ite (fun _ => Ends.throw rfl) fun _ => Ends.pure trivial

theorem fails_checkPath (p : Path) : Fails Failure.ofPath (checkPath p) := fails_checkUsable _

theorem fails_resolve (p : Path) : Fails Failure.ofPath (resolve p) := by
  refine (fails_checkPath p).bind fun _ _ => Fails.get.bind fun w _ => ?_
  dsimp only
  split
  · exact Ends.throw rfl
  · exact Ends.pure trivial

theorem fails_homeOf? (name : Files.Name) : Fails Failure.ofPath (homeOf? name) :=
  Fails.get.bind fun _ _ => Ends.ite (fun _ => Ends.pure trivial) fun _ =>
    (fails_checkUsable _).bind fun _ _ => Ends.pure trivial

theorem fails_homeOf (name : Files.Name) : Fails Failure.ofPath (homeOf name) := by
  refine (fails_homeOf? name).bind fun home? _ => ?_
  cases home? with
  | none => exact Ends.throw rfl
  | some home => exact Ends.ite (fun _ => Ends.throw rfl) fun _ => Ends.pure trivial

theorem fails_expandHome (p : Path) : Fails Failure.ofPath (expandHome p) := by
  unfold expandHome
  split
  · split
    · exact (fails_homeOf _).bind fun _ _ => Ends.pure trivial
    · exact Ends.pure trivial
  · exact Ends.pure trivial

theorem fails_node? (p : Path) : Fails Failure.ofLooking (node? p) := by
  refine Ends.ite (fun _ => Ends.pure trivial) fun _ => Fails.get.bind fun w _ => ?_
  split
  · exact Ends.pure trivial
  · refine Ends.ite (fun _ => Ends.pure trivial) fun hpresent => Ends.throw ?_
    simpa [fileFailure, Failure.ofLooking] using hpresent

theorem fails_pathExists (p : Path) : Fails Failure.ofLooking (pathExists p) :=
  (fails_node? p).bind fun _ _ => Ends.pure trivial

theorem fails_isDir (p : Path) : Fails Failure.ofLooking (isDir p) := by
  refine (fails_node? p).bind fun n _ => ?_
  split <;> exact Ends.pure trivial

theorem fails_look (p : Path) (look' : Node → Place → Path → Except Cause α) :
    Fails Failure.ofChanging (look p look') :=
  ((fails_checkPath p).mono fun _ => Failure.ofChanging_of_ofPath).bind fun _ _ => Fails.get.bind fun _ _ =>
    Ends.ofExcept (fun _ _ => trivial) fun _ _ => rfl

theorem fails_readText (p : Path) : Fails Failure.ofReading (readText p) :=
  ((fails_look p Node.readBytes).mono fun _ => Failure.ofReading_of_ofChanging).bind fun _ _ =>
    (Ends.ofExcept (fun _ _ => trivial) fun _ _ => rfl).bind fun _ _ => Ends.pure trivial

theorem fails_change (p : Path) (change' : Node → Place → Path → Except Cause Node) :
    Fails Failure.ofChanging (change p change') :=
  (fails_look p change').bind fun _ _ => Fails.modify _

theorem fails_writePoints (p : Path) (cs : Points) : Fails Failure.ofChanging (writePoints p cs) :=
  (fails_change p _).bind fun _ _ => (Ends.ofExcept (fun _ _ => trivial) fun _ _ => rfl).bind fun _ _ =>
    fails_change p _

theorem fails_tryMakeDir (p : Path) : Fails Failure.ofPath (tryMakeDir p) := by
  refine (fails_checkPath p).bind fun _ _ => Fails.get.bind fun w _ => ?_
  split
  · exact (Fails.modify _).bind fun _ _ => Ends.pure trivial
  · exact Ends.pure trivial

theorem fails_unlessDir (p : Path) (c : Cause) : Fails Failure.ofChanging (unlessDir p c) := by
  refine ((fails_isDir p).mono fun _ => Failure.ofChanging_of_ofLooking).bind fun b _ => ?_
  cases b
  · exact Ends.throw rfl
  · exact Ends.pure trivial

/-- After an attempt to make a directory: it is made, or something above it is missing, or
something is there. -/
theorem fails_tryMakeDir_bind (p : Path) {next : Option Cause → Action Unit} (hmade : next none = pure ())
    (hmissing : Fails Failure.ofChanging (next (some .notFound)))
    (hthere : ∀ c, c ≠ .notFound → next (some c) = unlessDir p c) :
    Fails Failure.ofChanging (tryMakeDir p >>= next) := by
  refine ((fails_tryMakeDir p).mono fun _ => Failure.ofChanging_of_ofPath).bind fun c? _ => ?_
  cases c? with
  | none =>
      rw [hmade]
      exact Ends.pure trivial
  | some c =>
      by_cases hc : c = .notFound
      · rw [hc]
        exact hmissing
      · rw [hthere c hc]
        exact fails_unlessDir p c

theorem fails_makeDir (p : Path) : Fails Failure.ofChanging (makeDir p) :=
  fails_tryMakeDir_bind p rfl (Ends.throw rfl) fun c hc => by cases c <;> first | rfl | exact absurd rfl hc

theorem fails_makeDirsUpTo (missing : Nat) (p : Path) : Fails Failure.ofChanging (makeDirsUpTo missing p) := by
  induction missing generalizing p with
  | zero =>
      unfold makeDirsUpTo
      exact fails_tryMakeDir_bind p rfl (Ends.throw rfl) fun c hc => by
        cases c <;> first | rfl | exact absurd rfl hc
  | succ missing ih =>
      unfold makeDirsUpTo
      exact fails_tryMakeDir_bind p rfl ((ih p.parent).bind fun _ _ => fails_makeDir p) fun c hc => by
        cases c <;> first | rfl | exact absurd rfl hc

theorem fails_makeDirs (p : Path) : Fails Failure.ofChanging (makeDirs p) := fails_makeDirsUpTo _ p

end Action

/-! ### The project -/

namespace Project

open SolidityKit.Action

theorem fails_hasMarker (dir : Path) : Fails Failure.ofLooking (hasMarker dir) :=
  Fails.anyM (fun _ => fails_pathExists _) _

theorem fails_firstMarked? (dirs : List Path) : Fails Failure.ofLooking (firstMarked? dirs) := by
  induction dirs with
  | nil => exact Ends.pure trivial
  | cons dir more ih =>
      refine (fails_hasMarker dir).bind fun b _ => ?_
      cases b
      · exact ih
      · exact Ends.pure trivial

theorem fails_valueOf? {bad : Failure → Bool} (name : String) : Fails bad (valueOf? name) :=
  Fails.get.bind fun _ _ => Ends.pure trivial

theorem fails_nonemptyValueOf? {bad : Failure → Bool} (name : String) : Fails bad (nonemptyValueOf? name) :=
  (fails_valueOf? name).bind fun _ _ => Ends.pure trivial

/-- A path that was given, without links and home directories. -/
theorem fails_resolve_expandHome (p : Path) : Fails Failure.ofPath (do resolve (← expandHome p)) :=
  (fails_expandHome p).bind fun _ _ => fails_resolve _

theorem fails_searchRoot (start : Option Path) : Fails Failure.ofLooking (searchRoot start) := by
  have hresolve (p : Path) : Fails Failure.ofLooking (resolve p) :=
    (fails_resolve p).mono fun _ => Failure.ofLooking_of_ofPath
  refine (fails_nonemptyValueOf? _).bind fun given _ => ?_
  cases given with
  | some g => exact (fails_resolve_expandHome _).mono fun _ => Failure.ofLooking_of_ofPath
  | none =>
      refine Ends.bind (?_ : Fails Failure.ofLooking _) fun start _ => (fails_isDir _).bind fun _ _ =>
        (fails_firstMarked? _).bind fun marked _ => ?_
      · cases start with
        | none => exact Fails.get.bind fun _ _ => hresolve _
        | some s => exact Ends.pure trivial
      · cases marked <;> exact hresolve _

theorem fails_root : Fails Failure.ofLooking root := by
  have hsearch : Fails Failure.ofLooking (rootFrom.search none) :=
    (fails_searchRoot none).bind fun _ _ => (Fails.modify _).bind fun _ _ => Ends.pure trivial
  refine Fails.get.bind fun w _ => ?_
  split
  · exact Ends.ite (fun _ => Ends.pure trivial) fun _ => hsearch
  · exact hsearch

theorem fails_locate (p : Path) (base : Option Path) : Fails Failure.ofLooking (locate p base) := by
  refine ((fails_expandHome p).mono fun _ => Failure.ofLooking_of_ofPath).bind fun q _ => ?_
  refine Ends.ite (fun _ => Ends.pure trivial) fun _ => ?_
  refine Ends.bind (?_ : Fails Failure.ofLooking _) fun _ _ => Ends.pure trivial
  cases base with
  | none => exact fails_root
  | some b => exact Ends.pure trivial

theorem fails_tracefile : Fails Failure.ofLooking tracefile := fails_root.bind fun _ _ => Ends.pure trivial

theorem fails_coverageSummary (dir : Option Path) : Fails Failure.ofLooking (coverageSummary dir) := by
  refine Ends.bind (?_ : Fails Failure.ofLooking _) fun _ _ => Ends.pure trivial
  cases dir with
  | none => exact fails_root.bind fun _ _ => Ends.pure trivial
  | some d => exact Ends.pure trivial

theorem fails_buildOutput : Fails Failure.ofLooking buildOutput := by
  refine (fails_nonemptyValueOf? _).bind fun given _ => ?_
  cases given with
  | some g => exact (fails_resolve_expandHome _).mono fun _ => Failure.ofLooking_of_ofPath
  | none => exact fails_root.bind fun _ _ => Ends.pure trivial

theorem fails_buildArtifact (contract : Points) (dir : Option Path) :
    Fails Failure.ofLooking (buildArtifact contract dir) := by
  refine Ends.bind (?_ : Fails Failure.ofLooking _) fun _ _ => Ends.pure trivial
  cases dir with
  | none => exact fails_buildOutput
  | some d => exact Ends.pure trivial

end Project

end SolidityKit
