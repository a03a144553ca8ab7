/-
Reading and writing as functions of the tree.

Reading only reads, and what it gives depends on the bytes that a path leads to.  Making directories is a
number of single steps (`made_makeDirs`), each of which makes one directory on the way to the path.  A
file is written in two steps, since it is emptied first; `Wrote` says what each way out leaves behind.
Everything that is written lets the tree grow, and does so at one place only.
-/
import SolidityKit.Proofs.Workspace.Actions
import SolidityKit.Proofs.Files.Growth
import SolidityKit.Proofs.Files.Paths
import Mathlib.Logic.Relation

namespace SolidityKit

open Files

/-- The current directory is there, and is one. -/
def Workspace.Grounded (w : Workspace) : Prop := ∃ es, w.tree.at? w.cwd = some (.dir es)

/-- The text of a file, with unified line ends. -/
def Workspace.HasText (w : Workspace) (p : Path) (t : Text) : Prop :=
  ∃ bytes chars, w.tree.readBytes w.cwd p = .ok bytes ∧ Utf8.decode bytes = .ok chars ∧
    t = Text.unifyLineEnds chars

theorem Workspace.Grounded.start {w : Workspace} (h : w.Grounded) (p : Path) (target : Points) :
    w.tree.at? (Node.startOf w.cwd p) ≠ some (.link target) := by
  obtain ⟨es, hes⟩ := h
  intro hlink
  unfold Node.startOf at hlink
  split at hlink
  · by_cases hcwd : w.cwd = []
    · rw [hcwd, hlink] at hes
      cases hes
    · obtain ⟨top, htop⟩ := Node.dir_above (p := []) hcwd hes
      cases hlink.symm.trans htop
  · cases hes.symm.trans hlink

theorem Workspace.Grounded.grows {w : Workspace} (h : w.Grounded) {written : Place → Prop} {tree : Node}
    (hgrows : Node.Grows written w.tree tree) : Workspace.Grounded { w with tree } := by
  obtain ⟨es, hes⟩ := h
  obtain ⟨es', hes', -⟩ := hgrows.dir hes
  exact ⟨es', hes'⟩

namespace Action

variable {α : Type}

/-! ### Reading -/

theorem runIn_checkPath (p : Path) (w : Workspace) :
    (checkPath p).runIn w = (if p.Usable then .ok () else .error p.spelling.refusal, w) :=
  runIn_checkUsable p.spelling w

theorem runIn_look (p : Path) (f : Node → Place → Path → Except Cause α) (w : Workspace) :
    (look p f).runIn w =
      (if p.Usable then (f w.tree w.cwd p).mapError (fileFailure p) else .error p.spelling.refusal, w) := by
  unfold look
  by_cases husable : p.Usable
  · have hcheck : (checkPath p).runIn w = (.ok (), w) := by rw [runIn_checkPath, if_pos husable]
    rw [if_pos husable, runIn_bind_ok hcheck, runIn_bind_ok (runIn_get w), runIn_ofExcept]
  · rw [if_neg husable]
    exact runIn_bind_error (by rw [runIn_checkPath, if_neg husable])

theorem keeps_look (p : Path) (f : Node → Place → Path → Except Cause α) : Keeps id (look p f) := by
  intro w
  rw [runIn_look]

theorem keeps_readText (p : Path) : Keeps id (readText p) :=
  (keeps_look p _).bind fun _ => (Keeps.ofExcept _ _).bind fun _ => Keeps.pure _

theorem keeps_node? (p : Path) : Keeps id (node? p) := by
  intro w
  unfold node?
  cases p.isUsable with
  | false => rfl
  | true =>
      rw [Bool.not_true, if_neg Bool.false_ne_true, runIn_bind_ok (runIn_get w)]
      cases w.tree.get w.cwd p with
      | ok n => rfl
      | error c =>
          dsimp only
          split <;> rfl

theorem keeps_pathExists (p : Path) : Keeps id (pathExists p) :=
  (keeps_node? p).bind fun _ => Keeps.pure _

theorem keeps_isDir (p : Path) : Keeps id (isDir p) := by
  refine (keeps_node? p).bind fun n => ?_
  split <;> exact Keeps.pure _

/-- What an action that only reads gives, it gives in the workspace that it found. -/
theorem runIn_of_reads {act : Action α} (h : Keeps id act) (w : Workspace) :
    act.runIn w = ((act.runIn w).1, w) :=
  Prod.ext rfl (h w)

theorem look_readBytes {p : Path} {w : Workspace} {bytes : ByteArray} (husable : p.Usable)
    (h : w.tree.readBytes w.cwd p = .ok bytes) : (look p Node.readBytes).runIn w = (.ok bytes, w) := by
  rw [runIn_look, if_pos husable, h]
  rfl

/-- A path that can be looked at is one that the system takes. -/
theorem readBytes_of_look {p : Path} {w w' : Workspace} {bytes : ByteArray}
    (h : (look p Node.readBytes).runIn w = (.ok bytes, w')) :
    p.Usable ∧ w.tree.readBytes w.cwd p = .ok bytes := by
  rw [runIn_look] at h
  obtain ⟨hfst, -⟩ := Prod.mk.injEq .. ▸ h
  by_cases husable : p.Usable
  · rw [if_pos husable] at hfst
    refine ⟨husable, ?_⟩
    cases hbytes : w.tree.readBytes w.cwd p with
    | error c => rw [hbytes] at hfst; cases hfst
    | ok content => rw [hbytes] at hfst; cases hfst; rfl
  · rw [if_neg husable] at hfst
    cases hfst

/-- What a file reads as depends on its bytes. -/
theorem runIn_readText {p : Path} (husable : p.Usable) (w : Workspace) :
    (readText p).runIn w =
      (((w.tree.readBytes w.cwd p).mapError (fileFailure p)).bind fun bytes =>
        ((Utf8.decode bytes).mapError Failure.decoding).map Text.unifyLineEnds, w) := by
  have hlook : (look p Node.readBytes).runIn w = ((w.tree.readBytes w.cwd p).mapError (fileFailure p), w) := by
    rw [runIn_look, if_pos husable]
  unfold readText
  rw [runIn_bind, hlook]
  cases w.tree.readBytes w.cwd p with
  | error c => rfl
  | ok bytes =>
      show (ofExcept Failure.decoding (Utf8.decode bytes) >>= fun t => pure (Text.unifyLineEnds t)).runIn w = _
      rw [runIn_bind, runIn_ofExcept]
      show _ = (((Utf8.decode bytes).mapError Failure.decoding).map Text.unifyLineEnds, w)
      cases Utf8.decode bytes <;> rfl

theorem hasText_of_readText {p : Path} {w w' : Workspace} {t : Text} (h : (readText p).runIn w = (.ok t, w')) :
    w' = w ∧ p.Usable ∧ w.HasText p t := by
  have husable : p.Usable := by
    unfold readText at h
    obtain ⟨bytes, w₁, hlook, -⟩ := runIn_bind_eq_ok h
    exact (readBytes_of_look hlook).1
  rw [runIn_readText husable] at h
  obtain ⟨hfst, rfl⟩ := Prod.mk.injEq .. ▸ h
  cases hbytes : w.tree.readBytes w.cwd p with
  | error c => rw [hbytes] at hfst; cases hfst
  | ok bytes =>
      rw [hbytes] at hfst
      cases hchars : Utf8.decode bytes with
      | error f => simp [hchars, Except.mapError, Except.bind, Except.map] at hfst
      | ok chars =>
          simp only [hchars, Except.mapError, Except.bind, Except.map, Except.ok.injEq] at hfst
          exact ⟨rfl, husable, bytes, chars, hbytes, hchars, hfst.symm⟩

theorem runIn_readText_of_hasText {p : Path} {w : Workspace} {t : Text} (husable : p.Usable)
    (h : w.HasText p t) :
    (readText p).runIn w = (.ok t, w) := by
  obtain ⟨bytes, chars, hbytes, hchars, rfl⟩ := h
  rw [runIn_readText husable, hbytes]
  show ((Utf8.decode bytes).mapError Failure.decoding |>.map Text.unifyLineEnds, w) = _
  rw [hchars]
  rfl

/-! ### Making directories -/

/-- One step on the way to a path: a directory is made at the path or above it. -/
def MakesDir (cwd : Place) (p : Path) (before after : Node) : Prop :=
  ∃ q : Path, q.root = p.root ∧ q.names <+: p.names ∧ before.makeDir cwd q = .ok after

/-- What making a directory may do: it makes directories on the way, and if it comes to a result the path
leads to one. -/
structure Made (p : Path) (w : Workspace) (out : Except Failure Unit × Workspace) : Prop where
  /-- Nothing but the tree changes. -/
  same : out.2 = { w with tree := out.2.tree }
  /-- The tree changes in steps on the way to the path. -/
  steps : Relation.ReflTransGen (MakesDir w.cwd p) w.tree out.2.tree
  /-- If there is a result, a directory is at the path. -/
  there : out.1 = .ok () → ∃ place es, out.2.tree.LeadsTo w.cwd p place (.dir es)
  /-- If there is none, the failure is one of files. -/
  failed : ∀ f, out.1 = .error f → ∃ fault, f = .file fault

theorem runIn_tryMakeDir {p : Path} (husable : p.Usable) (w : Workspace) :
    (tryMakeDir p).runIn w =
      match w.tree.makeDir w.cwd p with
      | .ok tree => (.ok none, { w with tree })
      | .error c => (.ok (some c), w) := by
  have hcheck : (checkPath p).runIn w = (.ok (), w) := by
    rw [runIn_checkPath, if_pos husable]
  unfold tryMakeDir
  rw [runIn_bind_ok hcheck, runIn_bind_ok (runIn_get w)]
  cases w.tree.makeDir w.cwd p <;> rfl

theorem runIn_node? {p : Path} (husable : p.Usable) (w : Workspace) :
    (node? p).runIn w =
      (match w.tree.get w.cwd p with
        | .ok n => .ok (some n)
        | .error c => if c.meansAbsent then .ok none else .error (fileFailure p c), w) := by
  unfold node?
  rw [Path.isUsable_iff.mpr husable, Bool.not_true, if_neg Bool.false_ne_true, runIn_bind_ok (runIn_get w)]
  cases w.tree.get w.cwd p with
  | ok n => rfl
  | error c =>
      dsimp only
      split <;> rfl

/-- A file whose bytes can be read is there. -/
theorem runIn_pathExists_of_bytes {p : Path} {w w' : Workspace} {bytes : ByteArray}
    (h : (look p Node.readBytes).runIn w = (.ok bytes, w')) : (pathExists p).runIn w = (.ok true, w) := by
  obtain ⟨husable, hbytes⟩ := readBytes_of_look h
  obtain ⟨place, hleads⟩ := Node.readBytes_eq_ok_iff.mp hbytes
  unfold pathExists
  rw [runIn_bind, runIn_node? husable, Node.get_eq_ok_iff.mpr ⟨place, hleads⟩]
  rfl

theorem runIn_isDir {p : Path} (husable : p.Usable) (w : Workspace) :
    (isDir p).runIn w =
      (match w.tree.get w.cwd p with
        | .ok (.dir _) => .ok true
        | .ok _ => .ok false
        | .error c => if c.meansAbsent then .ok false else .error (fileFailure p c), w) := by
  unfold isDir
  rw [runIn_bind, runIn_node? husable]
  cases w.tree.get w.cwd p with
  | ok n => cases n <;> rfl
  | error c => by_cases hc : c.meansAbsent = true <;> simp [hc]

/-- A cause is ignored where there is a directory anyway. -/
theorem runIn_unlessDir {p : Path} (husable : p.Usable) (c : Cause) (w : Workspace) :
    (unlessDir p c).runIn w =
      (match w.tree.get w.cwd p with
        | .ok (.dir _) => .ok ()
        | .ok _ => .error (fileFailure p c)
        | .error d => .error (fileFailure p (if d.meansAbsent then c else d)), w) := by
  unfold unlessDir
  rw [runIn_bind, runIn_isDir husable]
  cases w.tree.get w.cwd p with
  | ok n => cases n <;> rfl
  | error d => by_cases hd : d.meansAbsent = true <;> simp [hd]

/-- An action that comes to a result only if the path leads to a directory. -/
theorem made_unlessDir {p : Path} (husable : p.Usable) (c : Cause) (w : Workspace) :
    Made p w ((unlessDir p c).runIn w) := by
  rw [runIn_unlessDir husable]
  refine ⟨rfl, .refl, fun h => ?_, fun f h => ?_⟩
  · cases hget : w.tree.get w.cwd p with
    | error d => rw [hget] at h; cases h
    | ok n =>
        rw [hget] at h
        obtain ⟨place, hleads⟩ := Node.get_eq_ok_iff.mp hget
        cases n with
        | dir es => exact ⟨place, es, hleads⟩
        | file c => cases h
        | link target => cases h
  · cases hget : w.tree.get w.cwd p with
    | error d => rw [hget] at h; cases h; exact ⟨_, rfl⟩
    | ok n =>
        rw [hget] at h
        cases n with
        | dir es => cases h
        | file c => cases h; exact ⟨_, rfl⟩
        | link target => cases h; exact ⟨_, rfl⟩

theorem made_of_makeDir {p : Path} {w : Workspace} {tree : Node} (h : w.tree.makeDir w.cwd p = .ok tree) :
    Made p w (.ok (), { w with tree }) where
  same := rfl
  steps := .single ⟨p, rfl, List.prefix_rfl, h⟩
  there _ := by
    obtain ⟨place, hleads, -⟩ := Node.leadsTo_makeDir h
    exact ⟨place, [], hleads⟩
  failed := fun f hf => by cases hf

theorem made_failed (p : Path) (w : Workspace) (fault : Files.Fault) : Made p w (.error (.file fault), w) where
  same := rfl
  steps := .refl
  there h := by cases h
  failed f h := ⟨fault, by cases h; rfl⟩

/-- A directory is tried to be made; where another one is missing, the rest is up to what comes next. -/
theorem made_tryMakeDir {p : Path} (husable : p.Usable) {w : Workspace} {next : Option Cause → Action Unit}
    (hnone : next none = pure ()) (hmissing : Made p w ((next (some .notFound)).runIn w))
    (hother : ∀ c, c ≠ .notFound → next (some c) = unlessDir p c) :
    Made p w ((tryMakeDir p >>= next).runIn w) := by
  rw [runIn_bind, runIn_tryMakeDir husable]
  cases hmake : w.tree.makeDir w.cwd p with
  | ok tree =>
      dsimp only
      rw [hnone]
      exact made_of_makeDir hmake
  | error c =>
      by_cases hc : c = .notFound
      · rwa [hc]
      · dsimp only
        rw [hother c hc]
        exact made_unlessDir husable c w

theorem made_makeDir {p : Path} (husable : p.Usable) (w : Workspace) : Made p w ((makeDir p).runIn w) :=
  made_tryMakeDir husable rfl (made_failed p w _) fun c hc => by cases c <;> first | rfl | exact absurd rfl hc

theorem Made.of_parent {p : Path} {w : Workspace} {out : Except Failure Unit × Workspace}
    (h : Made p.parent w out) : Relation.ReflTransGen (MakesDir w.cwd p) w.tree out.2.tree := by
  have habove : p.parent.names <+: p.names := List.dropLast_prefix p.names
  refine Relation.ReflTransGen.mono ?_ _ _ h.steps
  rintro before after ⟨q, hroot, hnames, hmake⟩
  exact ⟨q, hroot, hnames.trans habove, hmake⟩

theorem Made.andThen {p : Path} (husable : p.Usable) {w : Workspace} {above : Action Unit}
    (h : Made p.parent w (above.runIn w)) : Made p w ((do above; makeDir p).runIn w) := by
  rw [runIn_bind]
  have hsame := h.same
  rcases hrun : above.runIn w with ⟨r, w₁⟩
  rw [hrun] at h hsame
  cases r with
  | error f =>
      obtain ⟨fault, rfl⟩ := h.failed f rfl
      exact ⟨hsame, h.of_parent, (fun h => by cases h), fun f h => ⟨fault, by cases h; rfl⟩⟩
  | ok u =>
      obtain ⟨tree, rfl⟩ : ∃ tree, w₁ = { w with tree } := ⟨_, hsame⟩
      have hlast := made_makeDir husable { w with tree }
      exact ⟨hlast.same, h.of_parent.trans hlast.steps, hlast.there, hlast.failed⟩

theorem made_makeDirsUpTo (missing : Nat) {p : Path} (husable : p.Usable) (w : Workspace) :
    Made p w ((makeDirsUpTo missing p).runIn w) := by
  induction missing generalizing p w with
  | zero =>
      unfold makeDirsUpTo
      exact made_tryMakeDir husable rfl (made_failed p w _) fun c hc => by
        cases c <;> first | rfl | exact absurd rfl hc
  | succ missing ih =>
      unfold makeDirsUpTo
      exact made_tryMakeDir husable rfl (Made.andThen husable (ih husable.parent w)) fun c hc => by
        cases c <;> first | rfl | exact absurd rfl hc

theorem made_makeDirs {p : Path} (husable : p.Usable) (w : Workspace) : Made p w ((makeDirs p).runIn w) :=
  made_makeDirsUpTo _ husable w

theorem grows_of_steps {p : Path} {cwd : Place} {before after : Node}
    (h : Relation.ReflTransGen (MakesDir cwd p) before after) : Node.Grows (fun _ => False) before after := by
  induction h with
  | refl => exact .refl _ _
  | tail _ hstep ih =>
      obtain ⟨q, -, -, hmake⟩ := hstep
      obtain ⟨-, -, -, hgrows⟩ := Node.leadsTo_makeDir hmake
      exact ih.trans hgrows

theorem Made.grows {p : Path} {w : Workspace} {out : Except Failure Unit × Workspace} (h : Made p w out) :
    Node.Grows (fun _ => False) w.tree out.2.tree :=
  grows_of_steps h.steps

/-! ### Writing a file -/

theorem runIn_change {p : Path} (husable : p.Usable) (f : Node → Place → Path → Except Cause Node)
    (w : Workspace) :
    (change p f).runIn w =
      match f w.tree w.cwd p with
      | .ok tree => (.ok (), { w with tree })
      | .error c => (.error (fileFailure p c), w) := by
  unfold change
  rw [runIn_bind, runIn_look, if_pos husable]
  cases f w.tree w.cwd p <;> rfl

/-- What may come of writing code points to a file. -/
inductive Wrote (p : Path) (cs : List CodePoint) (w : Workspace) : Except Failure Unit × Workspace → Prop
  /-- The file cannot be written, and nothing has changed. -/
  | refused {c : Cause} (hfile : w.tree.writeBytes w.cwd p ByteArray.empty = .error c) :
      Wrote p cs w (.error (fileFailure p c), w)
  /-- The code points have no bytes; by then the file has been emptied. -/
  | emptied {place : Place} {tree : Node} {l : Utf8.LoneSurrogates} (hbytes : Utf8.encodePoints cs = .error l)
      (hleads : tree.LeadsTo w.cwd p place (.file ByteArray.empty))
      (hgrows : Node.Grows (· = place) w.tree tree) : Wrote p cs w (.error (.encoding l), { w with tree })
  /-- The file holds the bytes of the code points. -/
  | written {place : Place} {mid tree : Node} {bytes : ByteArray} (hbytes : Utf8.encodePoints cs = .ok bytes)
      (hfirst : w.tree.writeBytes w.cwd p ByteArray.empty = .ok mid)
      (hlast : mid.writeBytes w.cwd p bytes = .ok tree) (hleads : tree.LeadsTo w.cwd p place (.file bytes))
      (hgrows : Node.Grows (· = place) w.tree tree) : Wrote p cs w (.ok (), { w with tree })

theorem wrote_writePoints {p : Path} (husable : p.Usable) {w : Workspace}
    (hstart : ∀ target, w.tree.at? (Node.startOf w.cwd p) ≠ some (.link target)) (cs : List CodePoint) :
    Wrote p cs w ((writePoints p cs).runIn w) := by
  unfold writePoints
  rw [runIn_bind, runIn_change husable]
  cases hempty : w.tree.writeBytes w.cwd p ByteArray.empty with
  | error c => exact .refused hempty
  | ok tree =>
      obtain ⟨place, hleads, hgrows⟩ := Node.leadsTo_writeBytes hstart hempty
      show Wrote p cs w ((ofExcept Failure.encoding (Utf8.encodePoints cs) >>= fun bytes =>
        change p fun tree cwd p => tree.writeBytes cwd p bytes).runIn { w with tree })
      rw [runIn_bind, runIn_ofExcept]
      cases hbytes : Utf8.encodePoints cs with
      | error l => exact .emptied hbytes hleads hgrows
      | ok bytes =>
          show Wrote p cs w ((change p fun tree cwd p => tree.writeBytes cwd p bytes).runIn { w with tree })
          rw [runIn_change husable]
          -- the emptied file can be written, at the same place
          obtain ⟨tree', hwrite⟩ := Node.writeBytes_of_leadsTo hleads bytes
          have hstart' : ∀ target, tree.at? (Node.startOf w.cwd p) ≠ some (.link target) :=
            fun target h => hstart target (hgrows.link.mp h)
          obtain ⟨place', hleads', hgrows'⟩ := Node.leadsTo_writeBytes hstart' hwrite
          obtain ⟨n, hsame⟩ := hleads.grows hgrows'
          obtain ⟨rfl, -⟩ := hsame.unique hleads'
          rw [show ({ w with tree } : Workspace).tree.writeBytes w.cwd p bytes = .ok tree' from hwrite]
          exact .written hbytes hempty hwrite hleads' (hgrows.trans hgrows')

end Action

end SolidityKit
