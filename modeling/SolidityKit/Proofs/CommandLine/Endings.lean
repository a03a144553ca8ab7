/-
How tools end, and that they miss nothing.

A tool that can make sense of its arguments ends with one of its codes, or a failure escapes from it
(`work_ends`).  The handlers are for what a user gets wrong; besides, a tool looks whether a file is there
before it needs it, so that a file that is missing is never a failure.  A path of no use, a file of the wrong
kind and a text that is no document go through all of this (`work_escapes`).
-/
import SolidityKit.Yaml.Document
import SolidityKit.Proofs.CommandLine.Codes
import Mathlib

namespace SolidityKit

open SolidityKit.Action Files

/-! ### Files that are rewritten -/

theorem Metadata.stays_trimArtifact (dir : Option Path) (contract : Points) :
    Stays (trimArtifact dir contract) := by
  refine Stays.bind (.of_keeps (Project.keeps_buildArtifact contract dir)) fun p => ?_
  refine Stays.bind (.of_keeps (keeps_pathExists p).of_reads) fun there => ?_
  cases there
  · exact Stays.bind (.notice _ _) fun _ => .pure _
  refine Stays.bind (.of_keeps (keeps_readText p).of_reads) fun t => ?_
  refine Stays.bind (.of_keeps (Keeps.ofExcept _ _)) fun v => ?_
  split
  · exact Stays.bind (.notice _ _) fun _ => .pure _
  · exact Stays.bind (stays_writePoints _ _) fun _ => Stays.bind (.of_keeps (keeps_look _ _).of_reads) fun _ =>
      Stays.bind (.notice _ _) fun _ => .pure _

theorem Metadata.finds_trimArtifact (dir : Option Path) (contract : Points) :
    Finds (trimArtifact dir contract) := by
  refine (Project.looks_buildArtifact contract dir).andThen fun p => ?_
  intro w w' f hw hf
  rcases runIn_bind_eq_error hf with hf | ⟨there, w₁, hthere, hf⟩
  · exact Finds.of_looking (fails_pathExists p) w w' f hw hf
  cases there with
  | false => cases hf
  | true =>
      refine cause_of_reading hw hthere hf fun t husable htext hf => ?_
      obtain ⟨v, hdoc, hf⟩ := ok_of_file (fun _ h => by cases h) hf
      cases hmeta : metadataOf v with
      | none =>
          rw [hmeta] at hf
          cases hf
      | some es =>
          rw [hmeta] at hf
          have hrewrote := rewrote_of_hasText htext hdoc husable rfl (trimmedText es)
          rcases runIn_bind_eq_error hf with hf | ⟨u, w₃, hwrite, hf⟩
          · rw [hf] at hrewrote
            cases hrewrote
          · rw [hwrite] at hrewrote
            cases hrewrote with
            | @written _ bytes place hbytes hleads =>
                -- what has just been written can be looked at
                have hlook : (look p Node.readBytes).runIn w₃ = (.ok bytes, w₃) :=
                  look_readBytes husable (Node.readBytes_eq_ok_iff.mpr ⟨place, hleads⟩)
                rw [runIn_bind_ok hlook] at hf
                cases hf

theorem Receipts.cause_of_completeFile {path : Path} {client : Rpc.Client} {w w₁ w' : Workspace}
    {f : Files.Fault} (hw : w.Grounded) (hthere : (pathExists path).runIn w = (.ok true, w₁))
    (hf : (completeFile path client).runIn w₁ = (.error (.file f), w')) : f.cause ≠ .notFound := by
  refine cause_of_reading hw hthere hf fun t husable htext hf => ?_
  obtain ⟨v, hdoc, hf⟩ := ok_of_file (fun _ h => by cases h) hf
  rw [runIn_bind_ok (runIn_onNetwork _ _)] at hf
  obtain ⟨w₂, htold, hbare⟩ := runIn_tellNotices ((backfill v client.receipt).run w.network).1.notices
    { w with network := ((backfill v client.receipt).run w.network).2 }
  rw [runIn_bind_ok htold] at hf
  obtain ⟨report, -, hf⟩ := ok_of_file (fun _ h => by cases h) hf
  have hrewrote := rewrote_of_hasText htext hdoc husable (hbare.trans rfl)
    (Json.print (.indented 2) ((backfill v client.receipt).run w.network).1.record)
  rcases runIn_bind_eq_error hf with hf | ⟨u, w₃, -, hf⟩
  · rw [hf] at hrewrote
    cases hrewrote
  · cases hf

namespace CommandLine

section Reader

variable (reader : Settings.Reader) (g : Given) (root : Path)

theorem FlattenTool.finds_work : Finds (work reader g root) := by
  refine (Tool.looks_settings? reader _ _).andThen fun s? => ?_
  cases s? with
  | none => exact .pure _
  | some s =>
      refine (Tool.looks_givenPath? _ g).andThen fun base => ?_
      exact fun w w' f _ hf => of_decide_eq_false (runJobs_eq_error_iff.mp hf).2

theorem TrimTool.finds_work : Finds (work reader g root) := by
  refine (looks_contracts? reader g).andThen fun contracts? => ?_
  cases contracts? with
  | none => exact .pure _
  | some contracts =>
      refine Finds.ite (.of_never ((Tool.fails_complain _ _).bind fun _ _ => Ends.pure trivial)) ?_
      refine (Tool.looks_givenPath? _ g).andThen fun dir => ?_
      refine (Finds.mapM (Metadata.finds_trimArtifact dir) (Metadata.stays_trimArtifact dir) _).bind_path
        fun os => ?_
      exact (Fails.forM (fun _ => Tool.fails_tellResult _) _).bind fun _ _ => Ends.pure trivial

theorem BackfillTool.complete_eq_error_iff {target : Path} {client : Rpc.Client} {w w' : Workspace}
    {f : Failure} :
    (complete target client).runIn w = (.error f, w') ↔
      (Receipts.completeFile target client).runIn w = (.error f, w') := by
  refine Ends.runIn_bind_eq_error_iff fun r => ?_
  exact (Fails.forM (fun _ => Tool.fails_tell _) _).bind fun _ _ => Ends.pure trivial

theorem BackfillTool.finds_work : Finds (work reader g root) := by
  refine (looks_given? _ _ g : Looks Failure.ofPath _).andThen fun address? => ?_
  cases address? with
  | none => exact .of_never ((Tool.fails_complain _ _).bind fun _ _ => Ends.pure trivial)
  | some address =>
      refine (looks_target? reader g).andThen fun target? => ?_
      cases target? with
      | none => exact .pure _
      | some target =>
          intro w w' f hw hf
          rcases runIn_bind_eq_error hf with hf | ⟨there, w₁, hthere, hf⟩
          · exact Finds.of_looking (fails_pathExists target) w w' f hw hf
          cases there with
          | false => cases hf
          | true =>
              generalize Rpc.Client.ofAddress address ((timeout g).toText .plain) = client? at hf
              cases client? with
              | error f => cases hf
              | ok client => exact Receipts.cause_of_completeFile hw hthere (complete_eq_error_iff.mp hf)

theorem CoverageTool.finds_work : Finds (work g root) :=
  .of_fails (ends_work g root).weaken fun f hf => by cases hf

theorem finds_tool {t : Tool} (ht : t ∈ tools reader) : Finds (t.work g root) := by
  simp only [tools, List.mem_cons, List.not_mem_nil, or_false] at ht
  obtain rfl | rfl | rfl | rfl := ht
  · exact FlattenTool.finds_work reader g root
  · exact TrimTool.finds_work reader g root
  · exact BackfillTool.finds_work reader g root
  · exact CoverageTool.finds_work g root

end Reader

/--
**How the tools end.**

Whatever there is in a workspace and however settings files are read, a tool that can make sense of its
arguments ends with one of its codes, or with a failure that none of its handlers is for.  No refusal of
settings escapes, no failed job, no unknown job or order, no address that names no node, and no file that keeps
a tracefile from being summed up.  What may escape are texts that are of no use as a path or as a result, files
that are there and cannot be read or written, and texts that are not what they should be; but no tool fails
because something is missing.
-/
theorem work_ends (reader : Settings.Reader) (args : List Points) (given : Given) (root : Path) :
    (Arguments.read (flattenTool reader).switches args = .options given →
      Ends (· ∈ [0, 1, 2]) Failure.ofLoading ((flattenTool reader).work given root)) ∧
    Ends (· ∈ [0, 2]) Failure.ofTrimming ((trimTool reader).work given root) ∧
    Ends (· ∈ [0, 1, 2]) Failure.ofBackfilling ((backfillTool reader).work given root) ∧
    Ends (· ∈ [0, 1]) Failure.ofTracefile (coverageTool.work given root) ∧
    ∀ t ∈ tools reader, Finds (t.work given root) :=
  ⟨fun h => FlattenTool.ends_work reader (FlattenTool.known_of_read h) root,
    TrimTool.ends_work reader given root, BackfillTool.ends_work reader given root,
    CoverageTool.ends_work given root, fun _ ht => finds_tool reader given root ht⟩

theorem work_ends_only :
    Arguments.read (flattenTool Yaml.read).switches ["--only", "tests"] = .options [("only", "tests")] ∧
      Ends (· ∈ [0, 1, 2]) Failure.ofLoading ((flattenTool Yaml.read).work [("only", "tests")] ⟨.top, []⟩) :=
  ⟨by decide,
    (work_ends Yaml.read ["--only", "tests"] [("only", "tests")] ⟨.top, []⟩).1 (by decide)⟩

/-- A workspace with a file where a source directory should be; the project root is the top. -/
def fileForSources : Workspace :=
  { tree := .dir [("contracts", .file ByteArray.empty), ("test", .dir [])],
    knownRoot := some (none, ⟨.top, []⟩) }

/-- An artifact that is no JSON text and a source directory that is a file are more than the tools are
prepared for. -/
theorem work_escapes :
    (Arguments.read (trimTool Yaml.read).switches ["--out", "/", "--contract", "F"] =
        .options [("out", "/"), ("contract", "F")] ∧
      ∃ f w', ((trimTool Yaml.read).work [("out", "/"), ("contract", "F")] ⟨.top, []⟩).runIn
        (loneArtifact ['[']) =
        (.error (.json f), w')) ∧
    Arguments.read (flattenTool Yaml.read).switches [] = .options [] ∧
      ∃ w', ((flattenTool Yaml.read).work [] ⟨.top, []⟩).runIn fileForSources =
        (.error (.file ⟨.notDirectory, "/contracts"⟩), w') :=
  ⟨⟨by decide, _, _, by cbv⟩, by decide, _, by cbv⟩

end CommandLine

end SolidityKit
