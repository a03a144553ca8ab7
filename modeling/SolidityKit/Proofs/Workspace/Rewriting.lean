/-
Documents that are rewritten in place.

A build artifact and a broadcast record are read, changed and written back to the same file.  Every fault but
one comes before the file is touched, and then the tree is as it was: the file may be no text, the text no
document, the document of another shape, and the network may break a round off.  The one that comes later
is a document with a surrogate that stands alone.  JSON can name one, and so it is read; but it has no bytes,
and by the time this is found out the file has been emptied.  `failed_rewrite_iff_torn` says that this is the
only way in which a failure costs the file, and that every such document takes it.

Both rewrites end in the same way, which is `rewrote_of_hasText`; what comes before only reads, tells and
asks, which is `Keeps Workspace.bare`.
-/
import SolidityKit.Metadata.Artifacts
import SolidityKit.Receipts.RecordFile
import SolidityKit.Proofs.Workspace.Locations

namespace SolidityKit

open Files SolidityKit.Action

/-- The file at a path held something and is empty now; every other file is as it was. -/
def Workspace.Emptied (p : Path) (w w' : Workspace) : Prop :=
  ∃ place content, w.tree.LeadsTo w.cwd p place (.file content) ∧ content ≠ ByteArray.empty ∧
    w'.tree.LeadsTo w.cwd p place (.file ByteArray.empty) ∧ Node.Grows (· = place) w.tree w'.tree

/-- The file at a path holds a document, and what is to be written in its place has no bytes. -/
def Workspace.Torn (p : Path) (printed : Value → List CodePoint → Prop) (l : Utf8.LoneSurrogates)
    (w : Workspace) : Prop :=
  p.Usable ∧ ∃ t v cs, w.HasText p t ∧ Json.read t = .ok v ∧ printed v cs ∧ Utf8.encodePoints cs = .error l

/-- What is to be written in place of a build artifact. -/
def Metadata.Prints (v : Value) (cs : List CodePoint) : Prop :=
  ∃ es, metadataOf v = some es ∧ cs = trimmedText es

/-- What is to be written in place of a broadcast record, if the network does not break the round off. -/
def Receipts.Prints (client : Rpc.Client) (network : Rpc.Network) (v : Value) (cs : List CodePoint) : Prop :=
  ∃ report, ((backfill v client.receipt).run network).1.outcome = .ok report ∧
    cs = Json.print (.indented 2) ((backfill v client.receipt).run network).1.record

/-! ### The file is written -/

/-- What may come of writing over a document. -/
inductive Rewrote (p : Path) (cs : List CodePoint) (w : Workspace) : Except Failure Unit × Workspace → Prop
  /-- There are no bytes to write, and the file has been emptied. -/
  | emptied {w' : Workspace} {l : Utf8.LoneSurrogates} (hbytes : Utf8.encodePoints cs = .error l)
      (hempty : w.Emptied p w') : Rewrote p cs w (.error (.encoding l), w')
  /-- The bytes have been written. -/
  | written {w' : Workspace} {bytes : ByteArray} {place : Place} (hbytes : Utf8.encodePoints cs = .ok bytes)
      (hleads : w'.tree.LeadsTo w'.cwd p place (.file bytes)) : Rewrote p cs w (.ok (), w')

/-- A file that holds a document can be opened, so that writing over it fails only for want of bytes. -/
theorem rewrote_of_hasText {p : Path} {w w₀ : Workspace} {t : Text} {v : Value} (htext : w.HasText p t)
    (hdoc : Json.read t = .ok v) (husable : p.Usable) (hbare : w₀.bare = w.bare) (cs : List CodePoint) :
    Rewrote p cs w ((writePoints p cs).runIn w₀) := by
  obtain ⟨bytes, chars, hbytes, hchars, rfl⟩ := htext
  obtain ⟨place, hleads⟩ := Node.readBytes_eq_ok_iff.mp hbytes
  have hfull : bytes ≠ ByteArray.empty := by
    rintro rfl
    have hnone : Utf8.decode ByteArray.empty = .ok [] := Utf8.decode_encode []
    cases hnone.symm.trans hchars
    cases hdoc
  have htree := tree_eq_of_bare hbare
  have hcwd := cwd_eq_of_bare hbare
  have hstart : ∀ target, w₀.tree.at? (Node.startOf w₀.cwd p) ≠ some (.link target) := by
    rw [htree, hcwd]
    exact hleads.start_not_link (by simp)
  have hwrote := wrote_writePoints husable hstart cs
  generalize (writePoints p cs).runIn w₀ = out at hwrote
  cases hwrote with
  | refused hfile =>
      obtain ⟨tree', hwrite⟩ := Node.writeBytes_of_leadsTo hleads ByteArray.empty
      rw [htree, hcwd, hwrite] at hfile
      cases hfile
  | emptied hnone hempty hgrows =>
      rw [hcwd] at hempty
      rw [htree] at hgrows
      obtain ⟨n, hsame⟩ := hleads.grows hgrows
      obtain ⟨rfl, -⟩ := hsame.unique hempty
      exact .emptied hnone ⟨_, bytes, hleads, hfull, hempty, hgrows⟩
  | written hsome _ _ hwritten _ => exact .written hsome hwritten

/-! ### Before the file is written -/

/-- What a failed rewrite of the file at a path leaves behind: everything as it was, or an empty file in place
of a document whose successor has no bytes. -/
def RewriteFailed (p : Path) (printed : Value → List CodePoint → Prop) (w : Workspace) (f : Failure)
    (w' : Workspace) : Prop :=
  w'.tree = w.tree ∨ ∃ l, f = .encoding l ∧ w.Torn p printed l ∧ w.Emptied p w'

section Steps

variable {α β : Type} {p : Path} {printed : Value → List CodePoint → Prop} {w w₀ w' : Workspace} {f : Failure}

/-- Before the file is written, a failure finds everything as it was. -/
theorem RewriteFailed.of_bind {act : Action α} {next : α → Action β} (hact : Keeps Workspace.bare act)
    (hbare : w₀.bare = w.bare) (h : (act >>= next).runIn w₀ = (.error f, w'))
    (hnext : ∀ a w₁, act.runIn w₀ = (.ok a, w₁) → w₁.bare = w.bare → (next a).runIn w₁ = (.error f, w') →
      RewriteFailed p printed w f w') : RewriteFailed p printed w f w' := by
  rcases runIn_bind_eq_error h with hfail | ⟨a, w₁, hok, hrest⟩
  · exact Or.inl (tree_eq_of_bare ((hact.of_runIn hfail).trans hbare))
  · exact hnext a w₁ hok ((hact.of_runIn hok).trans hbare) hrest

/-- The file is written, and what comes after does not fail. -/
theorem RewriteFailed.of_writing {t : Text} {v : Value} {cs : List CodePoint} {finish : Unit → Action α}
    (htext : w.HasText p t) (hdoc : Json.read t = .ok v) (hprinted : printed v cs) (husable : p.Usable)
    (hbare : w₀.bare = w.bare) (h : (writePoints p cs >>= finish).runIn w₀ = (.error f, w'))
    (hfinish : ∀ w₁ place bytes g w₂, w₁.tree.LeadsTo w₁.cwd p place (.file bytes) →
      (finish ()).runIn w₁ ≠ (.error g, w₂)) : RewriteFailed p printed w f w' := by
  have hrewrote := rewrote_of_hasText htext hdoc husable hbare cs
  rcases runIn_bind_eq_error h with hfail | ⟨u, w₁, hok, hrest⟩
  · rw [hfail] at hrewrote
    cases hrewrote with
    | emptied hnone hempty => exact Or.inr ⟨_, rfl, ⟨husable, t, v, cs, htext, hdoc, hprinted, hnone⟩, hempty⟩
  · rw [hok] at hrewrote
    cases hrewrote with
    | written _ hleads => exact absurd hrest (hfinish _ _ _ _ _ hleads)

/-- What a path reads as, it read as before, as far as everything is kept. -/
theorem Workspace.HasText.of_bare {t : Text} (h : w₀.HasText p t) (hbare : w₀.bare = w.bare) :
    w.HasText p t := by
  unfold Workspace.HasText at h ⊢
  rwa [tree_eq_of_bare hbare, cwd_eq_of_bare hbare] at h

end Steps

theorem Receipts.runIn_tellNotices (ns : List Notice) (w : Workspace) :
    ∃ w', (ns.forM tellNotice).runIn w = (.ok (), w') ∧ w'.bare = w.bare := by
  induction ns generalizing w with
  | nil => exact ⟨w, rfl, rfl⟩
  | cons n rest ih =>
      obtain ⟨w', hrest, hbare⟩ := ih ((tellNotice n).runIn w).2
      refine ⟨w', ?_, hbare.trans (by cases n <;> rfl)⟩
      show (tellNotice n >>= fun _ => rest.forM tellNotice).runIn w = _
      have htold : (tellNotice n).runIn w = (.ok (), ((tellNotice n).runIn w).2) := by cases n <;> rfl
      rw [runIn_bind_ok htold, hrest]

theorem completeFile_failed {p : Path} {client : Rpc.Client} {w w' : Workspace} {f : Failure}
    (h : (Receipts.completeFile p client).runIn w = (.error f, w')) :
    RewriteFailed p (Receipts.Prints client w.network) w f w' := by
  unfold Receipts.completeFile at h
  refine .of_bind (keeps_readText p).of_reads rfl h fun t w₁ hread _ hfail => ?_
  obtain ⟨rfl, husable, htext⟩ := hasText_of_readText hread
  refine .of_bind (Keeps.ofExcept _ _) rfl hfail fun v w₂ hparse _ hparsed => ?_
  obtain ⟨hdoc, rfl⟩ := runIn_ofExcept_eq_ok hparse
  rw [runIn_bind_ok (runIn_onNetwork _ _)] at hparsed
  have htell (ns : List Receipts.Notice) : Keeps Workspace.bare (ns.forM Receipts.tellNotice) := by
    intro w
    obtain ⟨w', hrun, hbare⟩ := Receipts.runIn_tellNotices ns w
    rwa [hrun]
  refine .of_bind (htell _) (by rfl) hparsed fun _ w₃ _ hbare htold => ?_
  refine .of_bind (Keeps.ofExcept _ _) hbare htold fun report w₄ hcheck hbare hwrite => ?_
  obtain ⟨hreport, -⟩ := runIn_ofExcept_eq_ok hcheck
  refine .of_writing htext hdoc ⟨report, hreport, rfl⟩ husable hbare hwrite ?_
  intro w₆ place bytes g w₇ _ hfail
  cases hfail

/-- Trimming fails at the path of the artifact, unless that path cannot even be found. -/
theorem trimArtifact_failed {dir : Option Path} {contract : Points} {w w' : Workspace} {f : Failure}
    (h : (Metadata.trimArtifact dir contract).runIn w = (.error f, w')) :
    w'.tree = w.tree ∨
      ∃ p w₁, (Project.buildArtifact contract dir).runIn w = (.ok p, w₁) ∧
        RewriteFailed p Metadata.Prints w f w' := by
  unfold Metadata.trimArtifact at h
  have hbare := Project.keeps_buildArtifact contract dir w
  rcases runIn_bind_eq_error h with hfail | ⟨p, w₁, hpath, hrest⟩
  · rw [hfail] at hbare
    exact Or.inl (tree_eq_of_bare hbare)
  rw [hpath] at hbare
  refine Or.inr ⟨p, w₁, hpath, ?_⟩
  refine .of_bind (keeps_pathExists p).of_reads hbare hrest fun there w₂ _ hbare h => ?_
  cases there with
  | false => cases h
  | true =>
      refine .of_bind (keeps_readText p).of_reads hbare h fun t w₃ htext hbare' h => ?_
      obtain ⟨-, husable, htext⟩ := hasText_of_readText htext
      refine .of_bind (Keeps.ofExcept _ _) hbare' h fun v w₄ hdoc hbare' h => ?_
      obtain ⟨hdoc, -⟩ := runIn_ofExcept_eq_ok hdoc
      cases hmeta : Metadata.metadataOf v with
      | none =>
          rw [hmeta] at h
          cases h
      | some es =>
          rw [hmeta] at h
          refine .of_writing (htext.of_bare hbare) hdoc ⟨es, hmeta, rfl⟩ husable hbare' h ?_
          intro w₅ place bytes g w₆ hleads hfail
          -- what has just been written can be looked at
          have hlook : (look p Node.readBytes).runIn w₅ = (.ok bytes, w₅) :=
            look_readBytes husable (Node.readBytes_eq_ok_iff.mpr ⟨place, hleads⟩)
          rw [runIn_bind_ok hlook] at hfail
          cases hfail

/-! ### Documents that cannot be written back -/

theorem Workspace.HasText.pathExists {p : Path} {w : Workspace} {t : Text} (husable : p.Usable)
    (h : w.HasText p t) :
    (pathExists p).runIn w = (.ok true, w) := by
  obtain ⟨bytes, -, hbytes, -⟩ := h
  exact runIn_pathExists_of_bytes (look_readBytes husable hbytes)

theorem emptied_of_writing {α : Type} {p : Path} {w w₀ : Workspace} {t : Text} {v : Value} {cs : List CodePoint}
    {l : Utf8.LoneSurrogates} {finish : Unit → Action α} (htext : w.HasText p t) (hdoc : Json.read t = .ok v)
    (husable : p.Usable) (hbare : w₀.bare = w.bare) (hnone : Utf8.encodePoints cs = .error l) :
    ∃ w', (writePoints p cs >>= finish).runIn w₀ = (.error (.encoding l), w') ∧ w.Emptied p w' := by
  have hrewrote := rewrote_of_hasText htext hdoc husable hbare cs
  cases hrun : (writePoints p cs).runIn w₀ with
  | mk r w₁ =>
      rw [hrun] at hrewrote
      cases hrewrote with
      | emptied hnone' hempty =>
          cases hnone'.symm.trans hnone
          exact ⟨w₁, runIn_bind_error hrun, hempty⟩
      | written hsome _ => cases hsome.symm.trans hnone

theorem completeFile_of_torn {p : Path} {client : Rpc.Client} {w : Workspace} {l : Utf8.LoneSurrogates}
    (h : w.Torn p (Receipts.Prints client w.network) l) :
    ∃ w', (Receipts.completeFile p client).runIn w = (.error (.encoding l), w') ∧ w.Emptied p w' := by
  obtain ⟨husable, t, v, cs, htext, hdoc, ⟨report, hreport, rfl⟩, hnone⟩ := h
  unfold Receipts.completeFile
  rw [runIn_bind_ok (runIn_readText_of_hasText husable htext), runIn_bind_ok (runIn_ofExcept_ok hdoc _),
    runIn_bind_ok (runIn_onNetwork _ _)]
  obtain ⟨w₁, htold, hbare⟩ := Receipts.runIn_tellNotices
    ((Receipts.backfill v client.receipt).run w.network).1.notices
    { w with network := ((Receipts.backfill v client.receipt).run w.network).2 }
  rw [runIn_bind_ok htold, runIn_bind_ok (runIn_ofExcept_ok hreport _)]
  exact emptied_of_writing htext hdoc husable hbare hnone

theorem trimArtifact_of_torn {dir : Option Path} {contract : Points} {p : Path} {w w₁ : Workspace}
    {l : Utf8.LoneSurrogates} (hpath : (Project.buildArtifact contract dir).runIn w = (.ok p, w₁))
    (h : w.Torn p Metadata.Prints l) :
    ∃ w', (Metadata.trimArtifact dir contract).runIn w = (.error (.encoding l), w') ∧ w.Emptied p w' := by
  obtain ⟨husable, t, v, cs, htext, hdoc, ⟨es, hmeta, rfl⟩, hnone⟩ := h
  have hbare : w₁.bare = w.bare := (Project.keeps_buildArtifact contract dir).of_runIn hpath
  have htext₁ : w₁.HasText p t := htext.of_bare hbare.symm
  unfold Metadata.trimArtifact
  rw [runIn_bind_ok hpath, runIn_bind_ok (htext₁.pathExists husable)]
  show ∃ w', (readText p >>= _).runIn w₁ = _ ∧ _
  rw [runIn_bind_ok (runIn_readText_of_hasText husable htext₁), runIn_bind_ok (runIn_ofExcept_ok hdoc _), hmeta]
  exact emptied_of_writing htext hdoc husable hbare hnone

/-! ### What a failure costs -/

/-- A failed rewrite has changed no file, unless the document that is to be written has no bytes; and where it
has none, the rewrite always fails, with the file emptied. -/
theorem failed_rewrite_iff_torn (w : Workspace) :
    (∀ p client f w', (Receipts.completeFile p client).runIn w = (.error f, w') →
      w'.tree = w.tree ∨
        ∃ l, f = .encoding l ∧ w.Torn p (Receipts.Prints client w.network) l ∧ w.Emptied p w') ∧
    (∀ p client l, w.Torn p (Receipts.Prints client w.network) l →
      ∃ w', (Receipts.completeFile p client).runIn w = (.error (.encoding l), w') ∧ w.Emptied p w') ∧
    (∀ dir contract f w', (Metadata.trimArtifact dir contract).runIn w = (.error f, w') →
      w'.tree = w.tree ∨
        ∃ p w₁, (Project.buildArtifact contract dir).runIn w = (.ok p, w₁) ∧
          ∃ l, f = .encoding l ∧ w.Torn p Metadata.Prints l ∧ w.Emptied p w') ∧
    ∀ dir contract p w₁ l, (Project.buildArtifact contract dir).runIn w = (.ok p, w₁) →
      w.Torn p Metadata.Prints l →
        ∃ w', (Metadata.trimArtifact dir contract).runIn w = (.error (.encoding l), w') ∧ w.Emptied p w' := by
  refine ⟨fun p client f w' h => completeFile_failed h, fun p client l h => completeFile_of_torn h,
    fun dir contract f w' h => ?_, fun dir contract p w₁ l hpath h => trimArtifact_of_torn hpath h⟩
  rcases trimArtifact_failed h with hsame | ⟨p, w₁, hpath, hsame | ⟨l, hl⟩⟩
  · exact Or.inl hsame
  · exact Or.inl hsame
  · exact Or.inr ⟨p, w₁, hpath, l, hl⟩

/-- A build artifact of a contract `F` at the top of the tree, with nothing else there. -/
def loneArtifact (t : Text) : Workspace :=
  { tree := .dir [("F.sol", .dir [("F.json", .file (Utf8.encode t))])] }

/-- The path of that artifact. -/
def loneArtifactPath : Path := ⟨.top, ["F.sol", "F.json"]⟩

/-- Metadata with a surrogate that stands alone. -/
def tornMetadata : Text := "\x7b\"metadata\":\x7b\"s\":\"\\ud800\"\x7d\x7d".toList

theorem hasText_loneArtifact {t : Text} (h : Text.unifyLineEnds t = t) :
    (loneArtifact t).HasText loneArtifactPath t :=
  ⟨Utf8.encode t, t, rfl, Utf8.decode_encode t, h.symm⟩

theorem buildArtifact_loneArtifact (t : Text) :
    (Project.buildArtifact "F" (some ⟨.top, []⟩)).runIn (loneArtifact t) =
      (.ok loneArtifactPath, loneArtifact t) := by
  have hrun (contract : Points) (d : Path) : (Project.buildArtifact contract (some d)).runIn (loneArtifact t) =
      (.ok (d / (contract ++ (".sol" : Points)) / (contract ++ (".json" : Points))), loneArtifact t) := rfl
  have hpath : (⟨.top, []⟩ : Path) / (("F" : Points) ++ (".sol" : Points)) / (("F" : Points) ++
    (".json" : Points)) =
      loneArtifactPath := by decide
  rw [hrun, hpath]

theorem torn_loneArtifact :
    (loneArtifact tornMetadata).Torn loneArtifactPath Metadata.Prints ⟨9, 0xd800, 1⟩ := by
  have hfirst : ((Json.read tornMetadata).toOption.bind Metadata.metadataOf).bind
      (fun es => Utf8.firstSurrogates (fun _ => false) 0 (Metadata.trimmedText es)) = some ⟨9, 0xd800, 1⟩ := by
    decide +kernel
  obtain ⟨es, hes, hfirst⟩ := Option.bind_eq_some_iff.mp hfirst
  obtain ⟨v, hv, hmeta⟩ := Option.bind_eq_some_iff.mp hes
  have hdoc : Json.read tornMetadata = .ok v := by
    cases hread : Json.read tornMetadata with
    | error e => rw [hread] at hv; cases hv
    | ok u => rw [hread] at hv; cases hv; rfl
  refine ⟨by decide, tornMetadata, v, _, hasText_loneArtifact (by decide), hdoc,
    ⟨es, hmeta, rfl⟩, ?_⟩
  unfold Utf8.encodePoints
  rw [hfirst]

/-- An artifact that is no document stays as it is; one with a surrogate that stands alone is emptied. -/
theorem failed_rewrite_loneArtifact :
    (∃ w', (Metadata.trimArtifact (some ⟨.top, []⟩) "F").runIn (loneArtifact tornMetadata) =
        (.error (.encoding ⟨9, 0xd800, 1⟩), w') ∧ (loneArtifact tornMetadata).Emptied loneArtifactPath w') ∧
      ∃ f w', (Receipts.completeFile loneArtifactPath ⟨[], []⟩).runIn (loneArtifact []) =
        (.error (.json f), w') ∧
        w'.tree = (loneArtifact []).tree := by
  obtain ⟨-, -, -, htorn⟩ := failed_rewrite_iff_torn (loneArtifact tornMetadata)
  refine ⟨htorn _ _ _ _ _ (buildArtifact_loneArtifact _) torn_loneArtifact, ?_⟩
  have hread := runIn_readText_of_hasText (p := loneArtifactPath) (by decide)
    (hasText_loneArtifact (t := []) rfl)
  have hrun : ∃ f, (Receipts.completeFile loneArtifactPath ⟨[], []⟩).runIn (loneArtifact []) =
      (.error (.json f), loneArtifact []) := ⟨_, runIn_bind_ok hread⟩
  obtain ⟨f, hrun⟩ := hrun
  obtain ⟨hfailed, -⟩ := failed_rewrite_iff_torn (loneArtifact [])
  rcases hfailed _ _ _ _ hrun with hsame | ⟨l, hl, -⟩
  · exact ⟨f, _, hrun, hsame⟩
  · cases hl

/-- The bytes of an artifact are not the same after every failure. -/
theorem trimArtifact_empties_torn :
    ¬ ∀ (dir : Option Path) (contract : Points) (p : Path) (w w₁ w' : Workspace) (f : Failure),
      (Project.buildArtifact contract dir).runIn w = (.ok p, w₁) →
        (Metadata.trimArtifact dir contract).runIn w = (.error f, w') →
          w'.tree.readBytes w.cwd p = w.tree.readBytes w.cwd p := by
  intro h
  have hpath := buildArtifact_loneArtifact tornMetadata
  obtain ⟨w', hrun, place, content, hbefore, hfull, hafter, -⟩ := trimArtifact_of_torn hpath torn_loneArtifact
  have hsame := h _ _ _ _ _ _ _ hpath hrun
  rw [Node.readBytes_eq_ok_iff.mpr ⟨place, hbefore⟩, Node.readBytes_eq_ok_iff.mpr ⟨place, hafter⟩] at hsame
  cases hsame
  exact hfull rfl

end SolidityKit
