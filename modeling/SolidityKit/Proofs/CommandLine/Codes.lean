/-
What may escape from a tool.

This is put together from the bottom.  Each part of the library has its failures, and there is one lemma for
each function that says which they are.  A tool takes away those that it has a handler for (`Handles`); what
is left is in its `ends_work`, together with the codes that it may end with.  The reader of settings files is
any; whatever it cannot read is one more failure.
-/
import SolidityKit.CommandLine.Help
import SolidityKit.Proofs.CommandLine.Values
import SolidityKit.Proofs.Flatten.Outputs
import SolidityKit.Proofs.Json.Printing
import SolidityKit.Proofs.Settings.Loading
import Mathlib

namespace SolidityKit

open SolidityKit.Action Files

namespace Failure

/-- A document was refused as settings. -/
def isRefusal : Failure → Bool
  | settings f => f.isRefusal
  | _ => false

/-- Nothing is at a path. -/
def isMissing : Failure → Bool
  | file f => f.cause = .notFound
  | _ => false

/-- The files of a tracefile cannot be used, or it has no records. -/
def isUnusable : Failure → Bool
  | file _ => true
  | coverage f => f = .noRecords
  | _ => false

/-- The settings cannot be had, but they were not refused. -/
def ofLoading (f : Failure) : Bool := f.ofSettings && !f.isRefusal

/-- A job failed, or a path of it is of no use. -/
def ofJob : Failure → Bool
  | job _ => true
  | f => f.ofPath

/-- What is there is not what a job needs, but it is not that nothing is there. -/
def ofObstacle (f : Failure) : Bool := f.ofChanging && !f.isMissing

/-- A file with a JSON document cannot be read, or not be written anew. -/
def ofRewriting : Failure → Bool
  | json _ => true
  | f => f.ofReading

/-- Artifacts cannot be trimmed. -/
def ofTrimming (f : Failure) : Bool := f.ofLoading || f.ofRewriting

/-- A record cannot be completed. -/
def ofBackfilling : Failure → Bool
  | receipts _ => true
  | f => f.ofTrimming

/-- A tracefile cannot be summed up. -/
def ofSummary : Failure → Bool
  | coverage _ => true
  | f => f.ofReading

/-- A tracefile cannot be summed up, though its files can be used and it has records. -/
def ofTracefile (f : Failure) : Bool := f.ofSummary && !f.isUnusable

variable {f : Failure}

theorem ofLoading_of_ofLooking (h : f.ofLooking = true) : f.ofLoading = true := by
  cases f <;> first | rfl | cases h

theorem ofLoading_of_ofObstacle (h : f.ofObstacle = true) : f.ofLoading = true := by
  cases f <;> first | rfl | cases h

theorem ofLoading_of_ofPath (h : f.ofPath = true) : f.ofLoading = true :=
  ofLoading_of_ofLooking (ofLooking_of_ofPath h)

theorem ofRewriting_of_ofReading (h : f.ofReading = true) : f.ofRewriting = true := by
  cases f <;> first | rfl | exact h

theorem ofRewriting_of_ofChanging (h : f.ofChanging = true) : f.ofRewriting = true :=
  ofRewriting_of_ofReading (ofReading_of_ofChanging h)

theorem ofSummary_of_ofReading (h : f.ofReading = true) : f.ofSummary = true := by
  cases f <;> first | rfl | exact h

theorem ofTrimming_of_ofLoading (h : f.ofLoading = true) : f.ofTrimming = true := by
  rw [ofTrimming, h, Bool.true_or]

theorem ofTrimming_of_ofRewriting (h : f.ofRewriting = true) : f.ofTrimming = true := by
  rw [ofTrimming, h, Bool.or_true]

theorem ofBackfilling_of_ofTrimming (h : f.ofTrimming = true) : f.ofBackfilling = true := by
  cases f <;> first | rfl | exact h

theorem ofTracefile_of_ofPath (h : f.ofPath = true) : f.ofTracefile = true := by
  cases f <;> first | rfl | exact h | cases h

end Failure

/-! ### Jobs -/

namespace Flatten

theorem fails_discover (dir : Path) {q : Query} (horder : q.order ∈ Settings.listingOrders) :
    Fails Failure.ofChanging (discover dir q) := by
  unfold discover
  rw [if_pos horder]
  refine ((fails_checkPath dir).mono fun _ => Failure.ofChanging_of_ofPath).bind fun _ _ => Fails.get.bind
    fun w _ => ?_
  exact Ends.bind (Ends.ofExcept (fun _ _ => trivial) fun _ _ => rfl) fun _ _ => Ends.pure trivial

theorem fails_readSource (p : Path) : Fails Failure.ofJob (readSource p) := by
  refine (fails_readText p).tryCatch fun f hf => ?_
  cases f <;> first | exact Ends.throw rfl | exact Ends.throw hf

theorem fails_write (a : Artifact) : Fails Failure.ofJob (write a) := by
  have hwrite : Fails Failure.ofChanging (do makeDirs a.output.parent; writeText a.output a.text) :=
    (fails_makeDirs _).bind fun _ _ => fails_writePoints _ _
  refine hwrite.tryCatch fun f hf => ?_
  cases f <;> first | exact Ends.throw rfl | exact Ends.throw hf

theorem fails_tellMerged {bad : Failure → Bool} (name : Points) (a : Artifact) (s : MergeState) :
    Fails bad (tellMerged name a s) := by
  intro w w'
  obtain ⟨told, htold⟩ := runIn_tellMerged name a s w
  refine ⟨fun _ _ => trivial, fun f hf => ?_⟩
  rw [htold] at hf
  cases hf

theorem Job.fails_run (j : Job) : Fails Failure.ofJob j.run := by
  rw [j.run_eq]
  exact (Fails.mapM fails_readSource _).bind fun _ _ => (fails_write _).bind fun _ _ =>
    (fails_tellMerged _ _ _).bind fun _ _ => Ends.pure trivial

/-- A job that fails is reported, so that only the paths of a job are left to fail for. -/
theorem fails_addTo (r : Report) (j : Job) : Fails Failure.ofPath (addTo r j) := by
  refine Ends.tryCatch (j.fails_run.bind fun _ _ => Ends.pure trivial) fun f hf => ?_
  cases f with
  | job f => exact (Fails.notice _ _).bind fun _ _ => Ends.pure trivial
  | _ => exact Ends.throw hf

theorem fails_jobs {settings : Settings} (horder : settings.listingOrder ∈ Settings.listingOrders)
    (base : Option Path) :
    Fails Failure.ofChanging (jobs settings base) := by
  have hlocate (cs : Points) (b : Path) : Fails Failure.ofChanging (Project.locatePoints cs b) :=
    (Project.fails_locate _ _).mono fun _ => Failure.ofChanging_of_ofLooking
  rw [jobs_eq]
  refine Ends.bind (?_ : Fails Failure.ofChanging _) fun b _ => ?_
  · cases base with
    | none => exact Project.fails_root.mono fun _ => Failure.ofChanging_of_ofLooking
    | some b => exact Ends.pure trivial
  · exact (hlocate _ b).bind fun _ _ => (hlocate _ _).bind fun _ _ =>
      (hlocate _ _).bind fun _ _ => (fails_discover _ horder).bind fun _ _ =>
      (Fails.mapM (fun _ => hlocate _ _) _).bind fun _ _ => (fails_discover _ horder).bind fun _ _ =>
      (fails_discover _ horder).bind fun _ _ => Ends.pure trivial

theorem fails_run {settings : Settings} (horder : settings.listingOrder ∈ Settings.listingOrders)
    (base : Option Path)
    {only : List Points} (hknown : Known only) : Fails Failure.ofChanging (run settings base only) := by
  rw [run_of_known hknown]
  exact (fails_jobs horder base).bind fun js _ =>
    (Ends.foldlM trivial (fun r j _ => fails_addTo r j) _).mono fun _ => Failure.ofChanging_of_ofPath

end Flatten

/-! ### Files that are rewritten -/

theorem Metadata.fails_trimArtifact (dir : Option Path) (contract : Points) :
    Fails Failure.ofRewriting (trimArtifact dir contract) := by
  have hreading {f : Failure} (h : f.ofReading = true) : f.ofRewriting = true :=
    Failure.ofRewriting_of_ofReading h
  refine ((Project.fails_buildArtifact _ _).mono fun _ h => hreading (Failure.ofReading_of_ofLooking h)).bind
    fun p _ => ?_
  refine ((fails_pathExists p).mono fun _ h => hreading (Failure.ofReading_of_ofLooking h)).bind
    fun there _ => ?_
  cases there
  · exact (Fails.notice _ _).bind fun _ _ => Ends.pure trivial
  refine ((fails_readText p).mono fun _ => hreading).bind fun t _ => ?_
  refine Ends.bind (Ends.ofExcept (fun _ _ => trivial) fun _ _ => rfl) fun v _ => ?_
  split
  · exact (Fails.notice _ _).bind fun _ _ => Ends.pure trivial
  · exact ((fails_writePoints _ _).mono fun _ => Failure.ofRewriting_of_ofChanging).bind fun _ _ =>
      ((fails_look _ _).mono fun _ h => hreading (Failure.ofReading_of_ofChanging h)).bind fun _ _ =>
      (Fails.notice _ _).bind fun _ _ => Ends.pure trivial

theorem Receipts.fails_completeFile (path : Path) (client : Rpc.Client) :
    Fails Failure.ofBackfilling (completeFile path client) := by
  have hrewriting {f : Failure} (h : f.ofRewriting = true) : f.ofBackfilling = true :=
    Failure.ofBackfilling_of_ofTrimming (Failure.ofTrimming_of_ofRewriting h)
  refine ((fails_readText path).mono fun _ h => hrewriting (Failure.ofRewriting_of_ofReading h)).bind
    fun t _ => ?_
  refine Ends.bind (Ends.ofExcept (fun _ _ => trivial) fun _ _ => rfl) fun record _ => ?_
  refine (Fails.onNetwork _).bind fun round _ => (Fails.forM (fun n => ?_) _).bind fun _ _ => ?_
  · cases n <;> exact Fails.notice _ _
  refine Ends.bind (Ends.ofExcept (fun _ _ => trivial) fun _ _ => rfl) fun report _ => ?_
  exact ((fails_writePoints _ _).mono fun _ h => hrewriting (Failure.ofRewriting_of_ofChanging h)).bind
    fun _ _ =>
    (Fails.notice _ _).bind fun _ _ => Ends.pure trivial

/-! ### Summaries -/

namespace Coverage

theorem Tally.whole_document (t : Tally) : t.document.Whole := by
  have hpercent : (Value.scalar ((t.percent.map Scalar.float).getD .null)).Whole := by
    cases t.percent <;> exact .scalar fun cs h => by cases h
  have hint (n : Int) : (Value.int n).Whole := .scalar fun cs h => by cases h
  have hentries : ∀ e ∈ [("total", Value.int t.total), ("covered", .int t.covered), ("skipped", .int 0),
      ("pct", .scalar ((t.percent.map Scalar.float).getD .null))], e.2.Whole := by
    simpa using ⟨hint _, hint _, hint _, hpercent⟩
  exact .of_texts hentries

/-- Nothing of a tracefile gets into its summary but numbers. -/
theorem Summary.whole_document (s : Summary) : s.document.Whole := by
  have hcategories : ∀ e ∈ s.categories.map fun c => (c.1, c.2.document), e.2.Whole := by
    rw [List.forall_mem_map]
    exact fun c _ => c.2.whole_document
  have htotal : ∀ e ∈ [("total", Value.map (s.categories.map fun c => (.text c.1, c.2.document)))],
    e.2.Whole := by
    rw [List.forall_mem_singleton]
    exact .of_texts hcategories
  exact .of_texts htotal

theorem Summary.bytes_of_text {s : Summary} {cs : List CodePoint} (h : s.text = .ok cs) :
    ∃ bytes, Utf8.encodePoints cs = .ok bytes := by
  unfold Summary.text at h
  split at h
  · cases h
    obtain ⟨t, ht⟩ := Json.plain_printAt s.whole_document (.indented 2) 0
    refine ⟨Utf8.encode t, ?_⟩
    rw [Json.print, ht]
    exact Flatten.encodePoints_ofText t
  · cases h

theorem fails_writeSummary (tracefile dir : Option Path) :
    Fails Failure.ofSummary (writeSummary tracefile dir) := by
  have hlooking {f : Failure} (h : f.ofLooking = true) : f.ofSummary = true :=
    Failure.ofSummary_of_ofReading (Failure.ofReading_of_ofLooking h)
  have hchanging {f : Failure} (h : f.ofChanging = true) : f.ofSummary = true :=
    Failure.ofSummary_of_ofReading (Failure.ofReading_of_ofChanging h)
  refine Ends.bind (?_ : Fails Failure.ofSummary _) fun source _ => ?_
  · cases tracefile with
    | none => exact Project.fails_tracefile.mono fun _ => hlooking
    | some p => exact Ends.pure trivial
  refine ((fails_readText source).mono fun _ => Failure.ofSummary_of_ofReading).bind fun t _ => ?_
  refine Ends.bind (Ends.ofExcept (fun _ _ => trivial) fun _ _ => rfl) fun records _ => ?_
  refine Ends.bind (Ends.ofExcept (fun _ _ => trivial) fun _ _ => rfl) fun summary _ => ?_
  refine ((Project.fails_coverageSummary dir).mono fun _ => hlooking).bind fun target _ => ?_
  refine ((fails_makeDirs _).mono fun _ => hchanging).bind fun _ _ => ?_
  have hprint : Fails Failure.ofSummary (Action.ofExcept Failure.coverage summary.text) :=
    Ends.ofExcept (fun _ _ => trivial) fun _ _ => rfl
  exact hprint.bind fun _ _ => ((fails_writePoints _ _).mono fun _ => hchanging).bind fun _ _ =>
    (Fails.notice _ _).bind fun _ _ => Ends.pure trivial

end Coverage

namespace CommandLine

namespace Tool

theorem fails_tell {bad : Failure → Bool} (l : Line) : Fails bad (Action.tell l) := Fails.modify _

/-- A stream that does not take a line of the result is no worse than a path that the system does not take. -/
theorem fails_tellResult (words : Points) : Fails Failure.ofPath (Action.tellResult words) :=
  Fails.get.bind fun _ _ => (fails_checkEncodable _ words).bind fun _ _ => fails_tell _

theorem fails_complain {bad : Failure → Bool} (name : String) (words : Points) :
    Fails bad (complain name words) := fails_tell _

theorem looks_complain {bad : Failure → Bool} (name : String) (words : Points) :
    Looks bad (complain name words) :=
  .of_never (fails_complain name words) fun _ => rfl

theorem looks_givenPath? (option : String) (g : Given) : Looks Failure.ofPath (givenPath? option g) := by
  have hresolve (p : Path) : Looks Failure.ofPath (resolve p) :=
    ⟨(keeps_resolve p).of_reads, fails_resolve p, .of_path (fails_resolve p)⟩
  have hexpand (p : Path) : Looks Failure.ofPath (expandHome p) :=
    ⟨(keeps_expandHome p).of_reads, fails_expandHome p, .of_path (fails_expandHome p)⟩
  unfold givenPath?
  split
  · exact .pure _
  · exact (hexpand _).bind fun _ => (hresolve _).bind fun _ => .pure _

/-- What is done about settings that cannot be had: a refusal is complained about. -/
def onRefusal (name : String) : Failure → Action (Option Settings)
  | .settings f =>
    if f.isRefusal then do
      complain name ("config error: " ++ f.message)
      return none
    else throw (.settings f)
  | f => throw f

variable (reader : Settings.Reader)

theorem settings?_eq (name : String) (path : Option Points) :
    settings? reader name path =
      tryCatchThe Failure (Settings.load reader path >>= fun s => pure (some s)) (onRefusal name) := by
  unfold settings?
  rw [map_eq_pure_bind]
  rfl

theorem handles_onRefusal (name : String) :
    Handles (fun s? => ∀ s, s? = some s → s.listingOrder ∈ Settings.listingOrders) Failure.isRefusal
      (onRefusal name) where
  caught f hf := by
    cases f with
    | settings f =>
        rw [onRefusal, if_pos (show f.isRefusal = true from hf)]
        exact (fails_complain _ _).bind fun _ _ => Ends.pure fun s h => by cases h
    | _ => cases hf
  thrown f hf := by
    cases f with
    | settings f => rw [onRefusal, if_neg (Bool.eq_false_iff.mp (show f.isRefusal = false from hf))]
    | _ => rfl

theorem ends_settings? (name : String) (path : Option Points) :
    Ends (fun s? => ∀ s, s? = some s → s.listingOrder ∈ Settings.listingOrders) Failure.ofLoading
      (settings? reader name path) := by
  rw [settings?_eq]
  exact (handles_onRefusal name).ends ((Settings.ends_load reader path).bind fun s hs =>
    Ends.pure fun s' h => Option.some.inj h ▸ hs)

/-- Settings that are refused are the only ones that the tool knows what to do about. -/
theorem settings?_eq_error_iff {name : String} {path : Option Points} {w w' : Workspace} {f : Failure} :
    (settings? reader name path).runIn w = (.error f, w') ↔
      (Settings.load reader path).runIn w = (.error f, w') ∧ f.isRefusal = false := by
  rw [settings?_eq, (handles_onRefusal name).runIn_eq_error_iff, Ends.runIn_bind_eq_error_iff
    fun _ => Ends.pure trivial]

theorem looks_settings? (name : String) (path : Option Points) :
    Looks Failure.ofLoading (settings? reader name path) where
  keeps := by
    rw [settings?_eq]
    refine ((Settings.looks_load reader path).keeps.bind fun _ => Keeps.pure _).tryCatch fun f => ?_
    cases f with
    | settings f => exact Keeps.ite (Keeps.bind (fun _ => rfl) fun _ => Keeps.pure _) (Keeps.throw _)
    | _ => exact Keeps.throw _
  fails := (ends_settings? reader name path).weaken
  finds w w' f hw hf :=
    (Settings.looks_load reader path).finds w w' f hw ((settings?_eq_error_iff reader).mp hf).1

end Tool

/-! ### The tools -/

theorem ends_code {ok : Bool} {bad : Failure → Bool} :
    Ends (· ∈ [0, 1, 2]) bad (pure (if ok then 0 else 1) : Action Nat) :=
  Ends.pure (by cases ok <;> decide)

namespace FlattenTool

/-- Runs the jobs and tells which ones failed. -/
def tellJobs (s : Settings) (base : Path) (only : List Points) : Action Nat := do
  let report ← Flatten.run s base only
  tellFailures report
  return if report.ok then 0 else 1

/-- What is done about jobs that cannot be planned: a directory that is missing is complained about. -/
def onMissing : Failure → Action Nat
  | .file ⟨.notFound, path⟩ => do
    Tool.complain name s!"source root missing: {(Files.Fault.mk .notFound path).message}"
    return 2
  | f => throw f

theorem runJobs_eq (s : Settings) (base : Path) (only : List Points) :
    runJobs s base only = tryCatchThe Failure (tellJobs s base only) onMissing := rfl

theorem handles_onMissing : Handles (· ∈ [0, 1, 2]) Failure.isMissing onMissing where
  caught f hf := by
    unfold onMissing
    split
    · exact (Tool.fails_complain _ _).bind fun _ _ => Ends.pure (by decide)
    · next hother =>
        cases f with
        | file f =>
            obtain ⟨cause, path⟩ := f
            obtain rfl : cause = .notFound := of_decide_eq_true hf
            exact absurd rfl (hother path)
        | _ => cases hf
  thrown f hf := by
    unfold onMissing
    split
    · cases hf
    · rfl

theorem fails_tellFailures {bad : Failure → Bool} (r : Flatten.Report) : Fails bad (tellFailures r) :=
  Fails.forM (fun _ => Tool.fails_complain _ _) _

/-- Only a directory that is missing is complained about. -/
theorem runJobs_eq_error_iff {s : Settings} {base : Path} {only : List Points} {w w' : Workspace}
    {f : Failure} :
    (runJobs s base only).runIn w = (.error f, w') ↔
      (Flatten.run s base only).runIn w = (.error f, w') ∧ f.isMissing = false := by
  rw [runJobs_eq, handles_onMissing.runIn_eq_error_iff, tellJobs, Ends.runIn_bind_eq_error_iff fun r =>
    (fails_tellFailures r).bind fun _ _ => Ends.pure trivial]

theorem ends_tellJobs {s : Settings} (horder : s.listingOrder ∈ Settings.listingOrders) (base : Path)
    {only : List Points} (hknown : Flatten.Known only) :
    Ends (· ∈ [0, 1, 2]) Failure.ofChanging (tellJobs s base only) :=
  (Flatten.fails_run horder _ hknown).bind fun r _ => (fails_tellFailures r).bind fun _ _ => ends_code

theorem ends_work (reader : Settings.Reader) {g : Given} (hknown : Flatten.Known (Given.all "only" g))
    (root : Path) :
    Ends (· ∈ [0, 1, 2]) Failure.ofLoading (work reader g root) := by
  refine (Tool.ends_settings? reader _ _).bind fun s? hs => ?_
  cases s? with
  | none => exact Ends.pure (by decide)
  | some s =>
      refine ((Tool.looks_givenPath? _ g).fails.mono fun _ => Failure.ofLoading_of_ofPath).bind fun base _ => ?_
      rw [runJobs_eq]
      exact (handles_onMissing.ends (ends_tellJobs (hs s rfl) _ hknown)).mono fun _ =>
        Failure.ofLoading_of_ofObstacle

/-- Nothing but known jobs can be asked for. -/
theorem known_of_read {reader : Settings.Reader} {args : List Points} {g : Given}
    (h : Arguments.read (flattenTool reader).switches args = .options g) :
    Flatten.Known (Given.all "only" g) := by
  intro n hn
  obtain ⟨e, he, rfl⟩ := List.mem_map.mp hn
  obtain ⟨hmem, hname⟩ := List.mem_filter.mp he
  obtain ⟨s, hs, hsame, hadmits⟩ := Arguments.read_admits h e hmem
  have hs' : s.name = "only" := hsame.trans (of_decide_eq_true hname)
  have honly : ∀ s ∈ Switch.help :: (flattenTool reader).switches, s.name = "only" →
      s.role = .choice Flatten.jobNames :=
    (by decide : ∀ s ∈ Switch.help :: (flattenTool fun _ => .ok none).switches, s.name = "only" →
      s.role = .choice Flatten.jobNames)
  rw [honly s hs hs'] at hadmits
  exact List.contains_iff_mem.mp (hadmits rfl)

end FlattenTool

section Trim

variable (reader : Settings.Reader)

theorem TrimTool.looks_contracts? (g : Given) : Looks Failure.ofLoading (contracts? reader g) := by
  unfold contracts?
  split
  · exact (Tool.looks_settings? reader _ _).bind fun _ => .pure _
  · exact .pure _

theorem TrimTool.ends_work (g : Given) (root : Path) :
    Ends (· ∈ [0, 2]) Failure.ofTrimming (TrimTool.work reader g root) := by
  refine ((looks_contracts? reader g).fails.mono fun _ => Failure.ofTrimming_of_ofLoading).bind
    fun contracts? _ => ?_
  cases contracts? with
  | none => exact Ends.pure (by decide)
  | some contracts =>
      refine Ends.ite (fun _ => (Tool.fails_complain _ _).bind fun _ _ => Ends.pure (by decide)) fun _ => ?_
      refine ((Tool.looks_givenPath? _ g).fails.mono fun _ h => Failure.ofTrimming_of_ofLoading
        (Failure.ofLoading_of_ofPath h)).bind fun dir _ => ?_
      refine ((Fails.mapM (Metadata.fails_trimArtifact dir) _).mono
        fun _ => Failure.ofTrimming_of_ofRewriting).bind
        fun outcomes _ => ?_
      exact ((Fails.forM (fun _ => Tool.fails_tellResult _) _).mono fun _ h => Failure.ofTrimming_of_ofLoading
        (Failure.ofLoading_of_ofPath h)).bind fun _ _ => Ends.pure (by decide)

end Trim

namespace BackfillTool

variable (reader : Settings.Reader)

theorem looks_given? {bad : Failure → Bool} (option name : String) (g : Given) :
    Looks bad (given? option name g) := by
  unfold given?
  split
  · exact .pure _
  · exact .of_never (Project.fails_nonemptyValueOf? _) (keeps_nonemptyValueOf? _).of_reads

theorem looks_script? (g : Given) : Looks Failure.ofLoading (script? reader g) := by
  unfold script?
  split
  · exact .pure _
  · exact (Tool.looks_settings? reader _ _).bind fun _ => .pure _

theorem looks_target? (g : Given) : Looks Failure.ofLoading (target? reader g) := by
  refine ((Tool.looks_givenPath? _ g).mono fun _ => Failure.ofLoading_of_ofPath).bind fun path? => ?_
  cases path? with
  | some path => exact .pure _
  | none =>
      refine (looks_given? _ _ g).bind fun network? => ?_
      cases network? with
      | none => exact (Tool.looks_complain _ _).bind fun _ => .pure _
      | some network =>
          refine (looks_script? reader g).bind fun script? => ?_
          cases script? with
          | none => exact .pure _
          | some script =>
              exact ((Project.looks_broadcastRecord _ _).mono fun _ => Failure.ofLoading_of_ofLooking).bind
                fun _ => .pure _

theorem ends_work (g : Given) (root : Path) :
    Ends (· ∈ [0, 1, 2]) Failure.ofBackfilling (work reader g root) := by
  have hsettings {f : Failure} (h : f.ofLoading = true) : f.ofBackfilling = true :=
    Failure.ofBackfilling_of_ofTrimming (Failure.ofTrimming_of_ofLoading h)
  have hcomplain (words : Points) : Ends (· ∈ [0, 1, 2]) Failure.ofBackfilling (do
      Tool.complain name words
      return 2) := (Tool.fails_complain _ _).bind fun _ _ => Ends.pure (by decide)
  refine (looks_given? _ _ g).fails.bind fun address? _ => ?_
  cases address? with
  | none => exact hcomplain _
  | some address =>
      refine ((looks_target? reader g).fails.mono fun _ => hsettings).bind fun target? _ => ?_
      cases target? with
      | none => exact Ends.pure (by decide)
      | some target =>
          refine ((fails_pathExists target).mono fun _ h => hsettings (Failure.ofLoading_of_ofLooking h)).bind
            fun there _ => ?_
          refine Ends.ite (fun _ => hcomplain _) fun _ => ?_
          split
          · exact hcomplain _
          · exact (Receipts.fails_completeFile target _).bind fun r _ =>
              (Fails.forM (fun _ => Tool.fails_tell _) _).bind fun _ _ => ends_code

end BackfillTool

namespace CoverageTool

/-- Writes the summary and tells it. -/
def tellSummary (tracefile dir : Option Path) : Action Nat := do
  let summary ← Coverage.writeSummary tracefile dir
  Action.tellResult (Json.print (.indented 2) summary.document)
  return 0

/-- What is done about a summary that cannot be written: files and the lack of records are complained about. -/
def onUnusable : Failure → Action Nat
  | .file f => do
    Tool.complain name f.message
    return 1
  | .coverage .noRecords => do
    Tool.complain name (Coverage.Fault.message .noRecords)
    return 1
  | f => throw f

theorem summarize_eq (tracefile dir : Option Path) :
    summarize tracefile dir = tryCatchThe Failure (tellSummary tracefile dir) onUnusable := rfl

theorem handles_onUnusable : Handles (· ∈ [0, 1]) Failure.isUnusable onUnusable where
  caught f hf := by
    have hcomplain (words : Points) : Ends (· ∈ [0, 1]) (fun _ => false) (do
        Tool.complain name words
        return 1) := (Tool.fails_complain _ _).bind fun _ _ => Ends.pure (by decide)
    cases f with
    | file f => exact hcomplain _
    | coverage f =>
        obtain rfl : f = .noRecords := of_decide_eq_true hf
        exact hcomplain _
    | _ => cases hf
  thrown f hf := by
    unfold onUnusable
    split <;> first | rfl | cases hf

theorem ends_work (g : Given) (root : Path) : Ends (· ∈ [0, 1]) Failure.ofTracefile (work g root) := by
  have hpath (option : String) : Fails Failure.ofTracefile (Tool.givenPath? option g) :=
    (Tool.looks_givenPath? option g).fails.mono fun _ => Failure.ofTracefile_of_ofPath
  have hsummary {f : Failure} (h : f.ofPath = true) : f.ofSummary = true :=
    Failure.ofSummary_of_ofReading (Failure.ofReading_of_ofLooking (Failure.ofLooking_of_ofPath h))
  refine (hpath _).bind fun tracefile _ => (hpath _).bind fun dir _ => ?_
  rw [summarize_eq]
  exact handles_onUnusable.ends ((Coverage.fails_writeSummary _ _).bind fun _ _ =>
    ((Tool.fails_tellResult _).mono fun _ => hsummary).bind fun _ _ => Ends.pure (by decide))

end CoverageTool

end CommandLine

end SolidityKit
