/-
What becomes of one artifact.

What trimming does to an artifact depends on the bytes that its path leads to and on nothing else.  `Fate` says
what that is: the artifact is missing, or has no metadata, or has metadata whose trimmed text can be written.
Trimming comes to a result exactly if the artifact has a fate (`trimArtifact_of_fate`, `fate_of_trimArtifact`),
and `Leaves` is what a workspace is like afterwards.
-/
import SolidityKit.Proofs.Json.Shown
import SolidityKit.Proofs.Workspace.ArtifactPaths
import SolidityKit.Proofs.Workspace.Rewriting

namespace SolidityKit

open Files SolidityKit.Action

namespace Workspace

/-- A workspace without its files and without what was told. -/
def still (w : Workspace) : Workspace := { w with tree := .dir [], told := [] }

theorem cwd_eq_of_still {w w' : Workspace} (h : w'.still = w.still) : w'.cwd = w.cwd := by
  show w'.still.cwd = w.still.cwd
  rw [h]

theorem outside_eq_of_still {w w' : Workspace} (h : w'.still = w.still) : w'.outside = w.outside := by
  show w'.still.outside = w.still.outside
  rw [h]

theorem knownRoot_eq_of_still {w w' : Workspace} (h : w'.still = w.still) : w'.knownRoot = w.knownRoot := by
  show w'.still.knownRoot = w.still.knownRoot
  rw [h]

/-- The file at a path holds a document. -/
def Reads (w : Workspace) (p : Path) (v : Value) : Prop := ∃ t, w.HasText p t ∧ Json.read t = .ok v

/-- The artifact at a path has metadata. -/
def HasMetadata (w : Workspace) (p : Path) (es : Entries) : Prop :=
  p.Usable ∧ ∃ v, w.Reads p v ∧ Metadata.metadataOf v = some es

section Bytes

variable {w w' : Workspace} {p : Path}

theorem HasText.unique {t t' : Text} (h : w.HasText p t) (h' : w.HasText p t') : t = t' := by
  obtain ⟨bytes, chars, hbytes, hchars, rfl⟩ := h
  obtain ⟨bytes', chars', hbytes', hchars', rfl⟩ := h'
  cases hbytes.symm.trans hbytes'
  cases hchars.symm.trans hchars'
  rfl

theorem Reads.unique {v v' : Value} (h : w.Reads p v) (h' : w.Reads p v') : v = v' := by
  obtain ⟨t, ht, hv⟩ := h
  obtain ⟨t', ht', hv'⟩ := h'
  cases ht.unique ht'
  cases hv.symm.trans hv'
  rfl

theorem HasMetadata.unique {es es' : Entries} (h : w.HasMetadata p es) (h' : w.HasMetadata p es') :
    es = es' := by
  obtain ⟨-, v, hv, hes⟩ := h
  obtain ⟨-, v', hv', hes'⟩ := h'
  cases hv.unique hv'
  cases hes.symm.trans hes'
  rfl

variable (hbytes : w'.tree.readBytes w'.cwd p = w.tree.readBytes w.cwd p)
include hbytes

theorem HasText.of_readBytes_eq {t : Text} (h : w.HasText p t) : w'.HasText p t := by
  unfold HasText at h ⊢
  rwa [hbytes]

theorem HasMetadata.of_readBytes_eq {es : Entries} (h : w.HasMetadata p es) : w'.HasMetadata p es := by
  obtain ⟨husable, v, ⟨t, ht, hv⟩, hes⟩ := h
  exact ⟨husable, v, ⟨t, ht.of_readBytes_eq hbytes, hv⟩, hes⟩

end Bytes

/-- What has just been printed to a file is read from it. -/
theorem HasText.of_print {w : Workspace} {p : Path} {spread : Json.Spread} {v : Value} {t : Text}
    (hprint : Json.print spread v = Points.ofText t) (h : w.tree.readBytes w.cwd p = .ok (Utf8.encode t)) :
    w.HasText p t :=
  ⟨_, t, h, Utf8.decode_encode t, (Json.unifyLineEnds_print hprint).symm⟩

end Workspace

/-! ### Writing over a file -/

theorem Node.writeBytes_overwrites {tree : Node} {cwd place : Place} {p : Path} {old : ByteArray}
    (h : tree.LeadsTo cwd p place (.file old)) (new : ByteArray) :
    ∃ tree', tree.writeBytes cwd p new = .ok tree' ∧ tree'.LeadsTo cwd p place (.file new) ∧
      Overwritten (· = place) tree tree' := by
  have hwrite : tree.writeBytes cwd p new = .ok (tree.put place (.file new)) := by
    rw [writeBytes, find_eq_there_iff.mpr h]
    rfl
  have hover := overwritten_put h.at_there new
  obtain ⟨n, hleads⟩ := h.grows hover.forth
  cases hleads.at_there.symm.trans (at?_put_self (hasRoom_of_at? h.at_there) _)
  exact ⟨_, hwrite, hleads, hover⟩

theorem Action.writePoints_overwrites {p : Path} (husable : p.Usable) {w : Workspace} {place : Place}
    {old : ByteArray} (h : w.tree.LeadsTo w.cwd p place (.file old)) (t : Text) :
    ∃ tree, (writePoints p (Points.ofText t)).runIn w = (.ok (), { w with tree }) ∧
      tree.LeadsTo w.cwd p place (.file (Utf8.encode t)) ∧ Node.Overwritten (· = place) w.tree tree := by
  obtain ⟨mid, hempty, hmid, hover⟩ := Node.writeBytes_overwrites h ByteArray.empty
  obtain ⟨tree, hfull, htree, hover'⟩ := Node.writeBytes_overwrites hmid (Utf8.encode t)
  refine ⟨tree, ?_, htree, hover.trans hover'⟩
  have hfirst : (change p fun tree cwd p => tree.writeBytes cwd p ByteArray.empty).runIn w =
      (.ok (), { w with tree := mid }) := by
    rw [runIn_change husable, hempty]
  have hbytes : (ofExcept Failure.encoding (Utf8.encodePoints (Points.ofText t))).runIn { w with tree := mid } =
      (.ok (Utf8.encode t), { w with tree := mid }) := by
    rw [runIn_ofExcept, Flatten.encodePoints_ofText]
    rfl
  have hlast : (change p fun tree cwd p => tree.writeBytes cwd p (Utf8.encode t)).runIn { w with tree := mid } =
      (.ok (), { w with tree }) := by
    rw [runIn_change husable]
    dsimp only
    rw [hfull]
  unfold writePoints
  rw [runIn_bind_ok hfirst, runIn_bind_ok hbytes, hlast]

theorem Json.isPlain_of_encodePoints {cs : Points} {bytes : ByteArray} (h : Utf8.encodePoints cs = .ok bytes) :
    IsPlain cs := by
  unfold Utf8.encodePoints at h
  split at h
  · cases h
  · next hfirst =>
      rw [Utf8.firstSurrogates_eq_none_iff] at hfirst
      clear h
      induction cs with
      | nil => exact .of_plain []
      | cons c rest ih =>
          cases c with
          | char c => exact (ih fun d hd => hfirst d (List.mem_cons_of_mem _ hd)).cons c
          | surrogate half => cases hfirst _ List.mem_cons_self rfl

/-! ### Fates -/

namespace Metadata

open Project (Settled artifactPath)

/-- What becomes of the artifact at a path, and the text that is written in its place. -/
inductive Fate (p : Path) (w : Workspace) : Status → Option Text → Prop
  /-- Nothing usable is there. -/
  | missing (h : p.Usable → ∃ c, w.tree.readBytes w.cwd p = .error c ∧ c.meansAbsent = true) :
      Fate p w .missing none
  /-- It is a document without metadata. -/
  | noMetadata {v : Value} (husable : p.Usable) (h : w.Reads p v) (hnone : metadataOf v = none) :
      Fate p w .noMetadata none
  /-- It has metadata, and the trimmed metadata is written. -/
  | trimmed {es : Entries} {t : Text} (h : w.HasMetadata p es) (hprint : trimmedText es = Points.ofText t) :
      Fate p w (.trimmed (Utf8.encode t).size) (some t)

section Fate

variable {p : Path} {w w' : Workspace} {s s' : Status} {r r' : Option Text}

theorem Fate.isSkipped_eq (h : Fate p w s r) : s.isSkipped = r.isNone := by cases h <;> rfl

/-- The artifact is trimmed exactly if it has metadata. -/
theorem Fate.trimmed_iff (h : Fate p w s r) : s.isSkipped = false ↔ ∃ es, w.HasMetadata p es := by
  cases h with
  | missing habsent =>
      refine ⟨fun h => (by cases h), fun ⟨es, husable, v, ⟨t, ⟨bytes, _, hbytes, _⟩, _⟩, _⟩ => ?_⟩
      obtain ⟨c, hc, -⟩ := habsent husable
      cases hc.symm.trans hbytes
  | noMetadata husable hv hnone =>
      refine ⟨fun h => (by cases h), fun ⟨es, _, v, hv', hes⟩ => ?_⟩
      cases hv.unique hv'
      cases hnone.symm.trans hes
  | trimmed hes => exact ⟨fun _ => ⟨_, hes⟩, fun _ => rfl⟩

/-- The text in place of the artifact is that of its trimmed metadata. -/
theorem Fate.text_eq {es : Entries} (h : Fate p w s r) (hes : w.HasMetadata p es) :
    ∃ t, r = some t ∧ trimmedText es = Points.ofText t := by
  have htrimmed := h.trimmed_iff.mpr ⟨es, hes⟩
  cases h with
  | missing => cases htrimmed
  | noMetadata => cases htrimmed
  | trimmed hes' hprint =>
      cases hes.unique hes'
      exact ⟨_, rfl, hprint⟩

/-- The fate of an artifact depends on its bytes. -/
theorem Fate.of_readBytes_eq (hbytes : w'.tree.readBytes w'.cwd p = w.tree.readBytes w.cwd p)
    (h : Fate p w s r) :
    Fate p w' s r := by
  cases h with
  | missing habsent => exact .missing (by rwa [hbytes])
  | noMetadata husable hv hnone =>
      obtain ⟨t, ht, hdoc⟩ := hv
      exact .noMetadata husable ⟨t, ht.of_readBytes_eq hbytes, hdoc⟩ hnone
  | trimmed hes hprint => exact .trimmed (hes.of_readBytes_eq hbytes) hprint

end Fate

/-! ### Looking for an artifact -/

section Looking

variable {p : Path} {w w' : Workspace}

theorem pathExists_of_missing (h : p.Usable → ∃ c, w.tree.readBytes w.cwd p = .error c ∧ c.meansAbsent = true)
    (hplain : w.tree.Plain) : (pathExists p).runIn w = (.ok false, w) := by
  unfold pathExists
  by_cases husable : p.Usable
  · obtain ⟨c, hc, habsent⟩ := h husable
    have hget : w.tree.get w.cwd p = .error c := by
      unfold Node.readBytes at hc
      cases hget : w.tree.get w.cwd p with
      | error c' => rw [hget] at hc; cases hc; rfl
      | ok n =>
          rw [hget] at hc
          obtain ⟨place, hleads⟩ := Node.get_eq_ok_iff.mp hget
          cases n with
          | file content => cases hc
          | dir es => cases hc; cases habsent
          | link target => exact absurd hleads.at_there (hplain _ _)
    rw [runIn_bind, runIn_node? husable, hget]
    simp [habsent]
  · have hrefused : p.isUsable = false := Bool.eq_false_iff.mpr fun h => husable (Path.isUsable_iff.mp h)
    rw [node?, hrefused]
    rfl

theorem missing_of_pathExists (h : (pathExists p).runIn w = (.ok false, w')) (husable : p.Usable) :
    ∃ c, w.tree.readBytes w.cwd p = .error c ∧ c.meansAbsent = true := by
  unfold pathExists at h
  obtain ⟨found, w₁, hfound, hnone⟩ := runIn_bind_eq_ok h
  rw [runIn_node? husable] at hfound
  unfold Node.readBytes
  cases hget : w.tree.get w.cwd p with
  | ok n =>
      rw [hget] at hfound
      cases hfound
      cases hnone
  | error c =>
      rw [hget] at hfound
      by_cases habsent : c.meansAbsent = true
      · exact ⟨c, rfl, habsent⟩
      · simp [habsent] at hfound

end Looking

/-! ### Trimming an artifact -/

/-- What a workspace is like after the artifact at a path has been trimmed or left alone. -/
structure Leaves (p : Path) (r : Option Text) (w w' : Workspace) : Prop where
  /-- Nothing but files has changed. -/
  still : w'.still = w.still
  /-- Nothing has been written but the file at the path. -/
  files : Node.Overwritten (fun place => r.isSome ∧ ∃ n, w.tree.LeadsTo w.cwd p place n) w.tree w'.tree
  /-- It holds what has been written. -/
  bytes : ∀ t, r = some t → w'.tree.readBytes w.cwd p = .ok (Utf8.encode t)

theorem Leaves.of_told {p : Path} {w w' : Workspace} (hstill : w'.still = w.still) (htree : w'.tree = w.tree) :
    Leaves p none w w' where
  still := hstill
  files := by
    rw [htree]
    exact .refl _ _
  bytes := fun _ h => by cases h

section Trim

variable {dir : Option Path} {base : Path} {contract : Points} {w w' : Workspace}

theorem buildArtifact_of_settled (h : Settled dir base w) (contract : Points) :
    (Project.buildArtifact contract dir).runIn w = (.ok (artifactPath base contract), w) :=
  Project.buildArtifact_eq_ok_iff.mpr ⟨base, h, rfl⟩

/-- An artifact that has a fate meets it. -/
theorem trimArtifact_of_fate {s : Status} {r : Option Text} (hsettled : Settled dir base w)
    (hplain : w.tree.Plain) (h : Fate (artifactPath base contract) w s r) :
    ∃ w', (trimArtifact dir contract).runIn w = (.ok ⟨contract, artifactPath base contract, s⟩, w') ∧
      Leaves (artifactPath base contract) r w w' := by
  unfold trimArtifact
  rw [runIn_bind_ok (buildArtifact_of_settled hsettled contract)]
  generalize artifactPath base contract = p at h ⊢
  cases h with
  | missing habsent =>
      rw [runIn_bind_ok (pathExists_of_missing habsent hplain)]
      exact ⟨_, rfl, .of_told rfl rfl⟩
  | @noMetadata v husable hv hnone =>
      obtain ⟨t, ht, hdoc⟩ := hv
      rw [runIn_bind_ok (ht.pathExists husable)]
      show ∃ w', (readText p >>= _).runIn w = _ ∧ _
      rw [runIn_bind_ok (runIn_readText_of_hasText husable ht), runIn_bind_ok (runIn_ofExcept_ok hdoc w), hnone]
      exact ⟨_, rfl, .of_told rfl rfl⟩
  | @trimmed es text hes hprint =>
      obtain ⟨husable, v, ⟨t, ht, hdoc⟩, hmeta⟩ := hes
      have hexists := ht.pathExists husable
      have hread := runIn_readText_of_hasText husable ht
      obtain ⟨bytes, chars, hbytes, -, -⟩ := ht
      obtain ⟨place, hleads⟩ := Node.readBytes_eq_ok_iff.mp hbytes
      obtain ⟨tree, hwrite, hleads', hover⟩ := writePoints_overwrites husable hleads text
      have hlook : (look p Node.readBytes).runIn { w with tree } = (.ok (Utf8.encode text), { w with tree }) :=
        look_readBytes husable (Node.readBytes_eq_ok_iff.mpr ⟨place, hleads'⟩)
      rw [runIn_bind_ok hexists]
      show ∃ w', (readText p >>= _).runIn w = _ ∧ _
      rw [runIn_bind_ok hread, runIn_bind_ok (runIn_ofExcept_ok hdoc w), hmeta]
      dsimp only
      rw [hprint, runIn_bind_ok hwrite, runIn_bind_ok hlook]
      refine ⟨_, rfl, rfl, hover.mono ?_, ?_⟩
      · rintro q rfl
        exact ⟨rfl, _, hleads⟩
      · rintro t' ht'
        cases ht'
        exact Node.readBytes_eq_ok_iff.mpr ⟨place, hleads'⟩

/-- An artifact on which trimming comes to a result has a fate. -/
theorem fate_of_trimArtifact {o : Outcome} (hsettled : Settled dir base w)
    (h : (trimArtifact dir contract).runIn w = (.ok o, w')) :
    ∃ s r, Fate (artifactPath base contract) w s r := by
  unfold trimArtifact at h
  rw [runIn_bind_ok (buildArtifact_of_settled hsettled contract)] at h
  generalize artifactPath base contract = p at h ⊢
  obtain ⟨there, w₁, hthere, hrest⟩ := runIn_bind_eq_ok h
  obtain rfl : w₁ = w := (keeps_pathExists p).of_runIn hthere
  cases there with
  | false => exact ⟨_, _, .missing (missing_of_pathExists hthere)⟩
  | true =>
      change (readText p >>= _).runIn w₁ = _ at hrest
      obtain ⟨t, w₂, hread, hparse⟩ := runIn_bind_eq_ok hrest
      obtain ⟨rfl, husable, ht⟩ := hasText_of_readText hread
      obtain ⟨v, w₃, hparsed, hlast⟩ := runIn_bind_eq_ok hparse
      obtain ⟨hdoc, rfl⟩ := runIn_ofExcept_eq_ok hparsed
      cases hmeta : metadataOf v with
      | none => exact ⟨_, _, .noMetadata husable ⟨t, ht, hdoc⟩ hmeta⟩
      | some es =>
          rw [hmeta] at hlast
          obtain ⟨u, w₄, hwrite, -⟩ := runIn_bind_eq_ok hlast
          have hrewrote := rewrote_of_hasText ht hdoc husable rfl (trimmedText es)
          rw [hwrite] at hrewrote
          cases hrewrote with
          | written hbytes _ =>
              obtain ⟨text, hprint⟩ := Json.isPlain_of_encodePoints hbytes
              exact ⟨_, _, .trimmed ⟨husable, v, ⟨t, ht, hdoc⟩, hmeta⟩ hprint⟩

end Trim

end Metadata

end SolidityKit
