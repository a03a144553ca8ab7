/-
The fields of settings.

A document is asked for eleven values and for nothing else: each field has a key, in a section or at the top
(`Field.raw`), and is read from the value there alone (`Field.reads`).  `ofEntries_eq_ok_iff` takes accepted
settings apart field by field.  What becomes of a document that is refused depends on the same values, and of a
map only on its being one, because a map is no value of any field (`ofEntries_congr`).
-/
import SolidityKit.Settings.Basic
import SolidityKit.Proofs.Results
import SolidityKit.Proofs.Value.Entries
import Mathlib.Data.List.Nodup

namespace SolidityKit

namespace Settings

/-- A field of settings. -/
inductive Field where
  /-- The directory of contract sources. -/
  | contractsDir
  /-- The directory of test sources. -/
  | testsDir
  /-- The further sources that tests need. -/
  | testExtraPaths
  /-- How the file name of a source ends. -/
  | sourceSuffix
  /-- What the file name of a mock contains. -/
  | mockMarker
  /-- The order in which a directory is read. -/
  | listingOrder
  /-- The directory of artifacts. -/
  | outputDir
  /-- The artifact of the contract sources. -/
  | contractsArtifact
  /-- The artifact of the test sources. -/
  | testsArtifact
  /-- The contracts whose build metadata is trimmed. -/
  | metadataTargets
  /-- The script whose broadcast record is completed. -/
  | broadcastScript
deriving DecidableEq

/-- The names of the sections. -/
def sectionNames : List String := ["sources", "output", "broadcast"]

/-- A document without the sections that it has, or with maps there. -/
def SectionsAreMaps (es : Entries) : Prop :=
  ∀ part ∈ sectionNames, ∀ v, es.field? part = some v → v.isMap = true

instance (es : Entries) : Decidable (SectionsAreMaps es) :=
  decidable_of_iff (∀ part ∈ sectionNames, (es.field? part).all Value.isMap = true)
    (by simp [SectionsAreMaps, Option.all_eq_true])

/-- The entries of a section; a section that is not there has none. -/
def sectionOf (es : Entries) (part : String) : Entries := ((es.field? part).bind Value.entries?).getD []

/-- A document that has one value at most. -/
def alone (key : String) (v : Option Value) : Entries := (v.map fun v => (.text key, v)).toList

namespace Field

/-- All fields. -/
def all : List Field :=
  [contractsDir, testsDir, testExtraPaths, sourceSuffix, mockMarker, listingOrder, outputDir, contractsArtifact,
    testsArtifact, metadataTargets, broadcastScript]

theorem mem_all (f : Field) : f ∈ all := by
  cases f <;> decide

/-- The section of a field; `metadata_targets` is in none. -/
def part? : Field → Option String
  | contractsDir | testsDir | testExtraPaths | sourceSuffix | mockMarker | listingOrder => some "sources"
  | outputDir | contractsArtifact | testsArtifact => some "output"
  | metadataTargets => none
  | broadcastScript => some "broadcast"

theorem part_mem (f : Field) {part : String} (h : f.part? = some part) : part ∈ sectionNames := by
  cases f <;> cases h <;> decide

/-- The key of a field. -/
def key : Field → String
  | contractsDir => "contracts_dir"
  | testsDir => "tests_dir"
  | testExtraPaths => "test_extra_paths"
  | sourceSuffix => "suffix"
  | mockMarker => "mock_marker"
  | listingOrder => "listing_order"
  | outputDir => "dir"
  | contractsArtifact => "contracts"
  | testsArtifact => "tests"
  | metadataTargets => "metadata_targets"
  | broadcastScript => "script"

theorem key_injective {f g : Field} (h : f.key = g.key) : f = g := by
  have hnodup : (all.map key).Nodup := by decide
  exact List.inj_on_of_nodup_map hnodup f.mem_all g.mem_all h

theorem key_not_section (f : Field) : f.key ∉ sectionNames := by
  cases f <;> decide

/-- What a document has at the key of a field. -/
def raw (f : Field) (es : Entries) : Option Value :=
  (f.part?.elim es (sectionOf es)).field? f.key

/-- What settings have in a field, as a list of texts. -/
def value : Field → Settings → List Points
  | contractsDir, s => [s.contractsDir]
  | testsDir, s => [s.testsDir]
  | testExtraPaths, s => s.testExtraPaths
  | sourceSuffix, s => [s.sourceSuffix]
  | mockMarker, s => [s.mockMarker]
  | listingOrder, s => [s.listingOrder]
  | outputDir, s => [s.outputDir]
  | contractsArtifact, s => [s.contractsArtifact]
  | testsArtifact, s => [s.testsArtifact]
  | metadataTargets, s => s.metadataTargets
  | broadcastScript, s => [s.broadcastScript]

/-- Whether a field is a list. -/
def isList : Field → Bool
  | testExtraPaths | metadataTargets => true
  | _ => false

/-- The text of a field that is no list, read from a value alone. -/
def readText (f : Field) (v : Option Value) : Except Fault Points :=
  textField (alone f.key v) f.key ((f.value {}).headD [])

/-- What becomes of the text of a field; the name of an order is trimmed and in lower case. -/
def finish : Field → Points → Points
  | listingOrder, cs => Points.lower (Text.trim cs)
  | _, cs => cs

/-- A field, read from a value alone. -/
def reads (f : Field) (v : Option Value) : Except Fault (List Points) :=
  match f with
  | testExtraPaths => do (← extraPathValues (alone "test_extra_paths" v)).mapM asText
  | metadataTargets => metadataTargetsOf (alone "metadata_targets" v)
  | f => return [f.finish (← f.readText v)]

end Field

/-! ### One value at a time -/

@[simp] theorem field?_alone (key : String) (v : Option Value) : (alone key v).field? key = v := by
  cases v with
  | none => rfl
  | some v => exact Entries.field?_cons_self key v []

theorem asText_text (t : String) : asText (.text t) = .ok (Points.ofString t) := rfl

/-- A field that is nowhere has its default. -/
theorem Field.reads_none (f : Field) : f.reads none = .ok (f.value {}) := by
  cases f with
  | testExtraPaths => exact congrArg (· >>= fun t => pure [t]) (asText_text "script/LibDeploy.sol")
  | listingOrder =>
      have hfinish : Field.listingOrder.finish "sorted" = "sorted" := by decide
      exact congrArg (fun t => Except.ok [t]) hfinish
  | _ => rfl

/-- So has a field that is no list and is there with the absent value. -/
theorem Field.reads_null {f : Field} (hf : f.isList = false) : f.reads (some .null) = .ok (f.value {}) := by
  rw [← f.reads_none]
  cases f <;> first | rfl | cases hf

/-- The chosen values of some fields, each at its key. -/
def gather (fs : List Field) (chosen : Field → Option Value) : Entries :=
  fs.flatMap fun f => alone f.key (chosen f)

/-- A document that has the chosen values and nothing else. -/
def documentOf (chosen : Field → Option Value) : Entries :=
  sectionNames.map (fun part =>
    (.text part, .map (gather (Field.all.filter fun f => f.part? = some part) chosen))) ++
    gather (Field.all.filter fun f => f.part? = none) chosen

theorem field?_gather (chosen : Field → Option Value) (f : Field) (fs : List Field) :
    Entries.field? f.key (gather fs chosen) = if f ∈ fs then chosen f else none := by
  unfold gather
  induction fs with
  | nil => rfl
  | cons g rest ih =>
      rw [List.flatMap_cons]
      by_cases hfg : f = g
      · subst hfg
        rw [if_pos List.mem_cons_self]
        cases hv : chosen f with
        | none =>
            show Entries.field? f.key (rest.flatMap fun f => alone f.key (chosen f)) = none
            rw [ih, hv, ite_self]
        | some v => exact Entries.field?_cons_self f.key v _
      · have hmem : (f ∈ g :: rest) = (f ∈ rest) := by simp [hfg]
        have hkey : Scalar.text g.key ≠ .text f.key := fun h =>
          hfg (Field.key_injective (Scalar.text.inj h).symm)
        simp only [hmem]
        rw [← ih]
        cases chosen g with
        | none => rfl
        | some v => exact Entries.field?_cons_of_ne hkey v _

theorem field?_documentOf (chosen : Field → Option Value) {part : String} (hpart : part ∈ sectionNames) :
    (documentOf chosen).field? part =
      some (.map (gather (Field.all.filter fun f => f.part? = some part) chosen)) := by
  simp only [sectionNames, List.mem_cons, List.not_mem_nil, or_false] at hpart
  rcases hpart with rfl | rfl | rfl <;> rfl

theorem sectionsAreMaps_documentOf (chosen : Field → Option Value) : SectionsAreMaps (documentOf chosen) := by
  intro part hpart v hv
  rw [field?_documentOf chosen hpart] at hv
  cases hv
  rfl

/-- What the document has for a field is what was chosen for it. -/
theorem Field.raw_documentOf (chosen : Field → Option Value) (f : Field) :
    f.raw (documentOf chosen) = chosen f := by
  unfold Field.raw
  cases hpart : f.part? with
  | none =>
      have hkey (part : String) (h : part ∈ sectionNames) : Scalar.text part ≠ .text f.key := fun heq =>
        f.key_not_section (Scalar.text.inj heq ▸ h)
      have htop : (documentOf chosen).field? f.key =
          Entries.field? f.key (gather (Field.all.filter fun f => f.part? = none) chosen) := by
        unfold documentOf sectionNames
        simp only [List.map_cons, List.map_nil, List.cons_append, List.nil_append]
        rw [Entries.field?_cons_of_ne (hkey _ (by decide)), Entries.field?_cons_of_ne (hkey _ (by decide)),
          Entries.field?_cons_of_ne (hkey _ (by decide))]
      rw [Option.elim_none, htop, field?_gather, if_pos]
      exact List.mem_filter.mpr ⟨f.mem_all, by simpa using hpart⟩
  | some part =>
      have hsection : part ∈ sectionNames := f.part_mem hpart
      have hentries : sectionOf (documentOf chosen) part =
          gather (Field.all.filter fun f => f.part? = some part) chosen := by
        unfold sectionOf
        rw [field?_documentOf chosen hsection]
        rfl
      rw [Option.elim_some, hentries, field?_gather, if_pos]
      exact List.mem_filter.mpr ⟨f.mem_all, by simpa using hpart⟩

/-- What is read at a key depends on what is there, and of a map only on its being one. -/
def Alike (v w : Option Value) : Prop := v = w ∨ ∃ es fs, v = some (.map es) ∧ w = some (.map fs)

namespace Alike

theorem refl (v : Option Value) : Alike v v := Or.inl rfl

theorem trans {u v w : Option Value} (huv : Alike u v) (hvw : Alike v w) : Alike u w := by
  obtain rfl | ⟨es, fs, hu, hv⟩ := huv
  · exact hvw
  · obtain rfl | ⟨es', fs', -, hw⟩ := hvw
    · exact Or.inr ⟨es, fs, hu, hv⟩
    · exact Or.inr ⟨es, fs', hu, hw⟩

theorem or {v v' w w' : Option Value} (hv : Alike v v') (hw : Alike w w') : Alike (v.or w) (v'.or w') := by
  obtain rfl | ⟨es, fs, rfl, rfl⟩ := hv
  · cases v with
    | none => exact hw
    | some v => exact refl _
  · exact Or.inr ⟨es, fs, rfl, rfl⟩

section Readers

variable {es fs : Entries} {name : String}

theorem textField (h : Alike (es.field? name) (fs.field? name)) (dflt : Points) :
    Settings.textField es name dflt = Settings.textField fs name dflt := by
  unfold Settings.textField
  obtain heq | ⟨_, _, hes, hfs⟩ := h
  · rw [heq]
  · rw [hes, hfs]
    rfl

theorem extraPathValues (h : Alike (es.field? "test_extra_paths") (fs.field? "test_extra_paths")) :
    Settings.extraPathValues es = Settings.extraPathValues fs := by
  unfold Settings.extraPathValues
  obtain heq | ⟨_, _, hes, hfs⟩ := h
  · rw [heq]
  · rw [hes, hfs]

theorem metadataTargetsOf (h : Alike (es.field? "metadata_targets") (fs.field? "metadata_targets")) :
    Settings.metadataTargetsOf es = Settings.metadataTargetsOf fs := by
  unfold Settings.metadataTargetsOf
  obtain heq | ⟨_, _, hes, hfs⟩ := h
  · rw [heq]
  · rw [hes, hfs]

end Readers

end Alike

/-! ### All fields of a document -/

/-- What settings must satisfy as a whole. -/
theorem validate_eq_ok_iff {s settings : Settings} :
    validate s = .ok settings ↔ s = settings ∧ s.sourceSuffix ≠ [] ∧ s.mockMarker ≠ [] ∧
      s.listingOrder ∈ listingOrders ∧ s.contractsArtifact ≠ s.testsArtifact := by
  unfold validate
  by_cases hsuffix : s.sourceSuffix = []
  · simp [hsuffix]
  by_cases hmarker : s.mockMarker = []
  · simp [hsuffix, hmarker]
  by_cases horder : s.listingOrder ∈ listingOrders
  · by_cases hsame : s.contractsArtifact = s.testsArtifact <;> simp [hsuffix, hmarker, horder, hsame]
  · simp [hsuffix, hmarker, horder]

/-- Sections that are maps or absent are read without a refusal. -/
theorem sections_eq {es : Entries} (h : SectionsAreMaps es) :
    ∀ part ∈ sectionNames, section? es part = .ok (sectionOf es part) := by
  intro part hpart
  unfold section? sectionOf
  cases hv : es.field? part with
  | none => rfl
  | some v =>
      have hmap := h part hpart v hv
      cases v with
      | scalar s => cases hmap
      | list items => cases hmap
      | map fs => cases fs <;> rfl

/-- Documents that have the same values for the fields have the same outcome, be they accepted or refused. -/
theorem ofEntries_congr {es fs : Entries} (hes : SectionsAreMaps es) (hfs : SectionsAreMaps fs)
    (h : ∀ f : Field, Alike (f.raw es) (f.raw fs)) : ofEntries es = ofEntries fs := by
  have htext (f : Field) (part key : String) (hpart : f.part? = some part) (hkey : f.key = key)
    (dflt : Points) :
      textField (sectionOf es part) key dflt = textField (sectionOf fs part) key dflt := by
    refine Alike.textField ?_ dflt
    have hf := h f
    unfold Field.raw at hf
    rwa [hpart, hkey] at hf
  have hextra : extraPathValues (sectionOf es "sources") = extraPathValues (sectionOf fs "sources") :=
    (h .testExtraPaths).extraPathValues
  have htargets : metadataTargetsOf es = metadataTargetsOf fs := (h .metadataTargets).metadataTargetsOf
  unfold ofEntries
  rw [sections_eq hes "sources" (by decide), sections_eq hes "output" (by decide),
    sections_eq hes "broadcast" (by decide), sections_eq hfs "sources" (by decide),
    sections_eq hfs "output" (by decide), sections_eq hfs "broadcast" (by decide)]
  dsimp only [bind, Except.bind]
  rw [hextra, htargets, htext .contractsDir "sources" "contracts_dir" rfl rfl,
    htext .testsDir "sources" "tests_dir" rfl rfl, htext .sourceSuffix "sources" "suffix" rfl rfl,
    htext .mockMarker "sources" "mock_marker" rfl rfl, htext .listingOrder "sources" "listing_order" rfl rfl,
    htext .outputDir "output" "dir" rfl rfl, htext .contractsArtifact "output" "contracts" rfl rfl,
    htext .testsArtifact "output" "tests" rfl rfl, htext .broadcastScript "broadcast" "script" rfl rfl]

/-- A field that is no list has one text, which is read at its key. -/
theorem Field.reads_eq_ok_iff {f : Field} (hf : f.isList = false) {es : Entries} {u : Points} :
    f.reads (f.raw es) = .ok [u] ↔
      ∃ t, textField (f.part?.elim es (sectionOf es)) f.key ((f.value {}).headD []) = .ok t ∧
        f.finish t = u := by
  have hraw : f.readText (f.raw es) =
    textField (f.part?.elim es (sectionOf es)) f.key ((f.value {}).headD []) := by
    refine Alike.textField ?_ _
    rw [field?_alone]
    exact Alike.refl _
  have hreads : f.reads (f.raw es) = f.readText (f.raw es) >>= fun t => pure [f.finish t] := by
    cases f <;> first | rfl | cases hf
  rw [hreads, hraw, bind_eq_ok_iff]
  refine exists_congr fun t => and_congr_right fun _ => ?_
  constructor
  · intro h
    cases h
    rfl
  · rintro rfl
    rfl

/--
**Accepted settings, field by field.**

A document is accepted exactly if each field can be read from its value alone and what has been read satisfies
what settings must satisfy as a whole; and then the settings are what has been read.
-/
theorem ofEntries_eq_ok_iff {es : Entries} (hes : SectionsAreMaps es) {s : Settings} :
    ofEntries es = .ok s ↔ (∀ f : Field, f.reads (f.raw es) = .ok (f.value s)) ∧ validate s = .ok s := by
  have hextra : Field.testExtraPaths.reads (Field.testExtraPaths.raw es) =
      extraPathValues (sectionOf es "sources") >>= fun vs => vs.mapM asText := by
    refine congrArg (· >>= fun vs : List Value => vs.mapM asText) (Alike.extraPathValues ?_)
    rw [field?_alone]
    exact Alike.refl _
  have htargets : Field.metadataTargets.reads (Field.metadataTargets.raw es) = metadataTargetsOf es := by
    refine Alike.metadataTargetsOf ?_
    rw [field?_alone]
    exact Alike.refl _
  unfold ofEntries
  simp only [sections_eq hes "sources" (by decide), sections_eq hes "output" (by decide),
    sections_eq hes "broadcast" (by decide), bind_eq_ok_iff, Except.ok.injEq, exists_eq_left']
  constructor
  · rintro ⟨extra, hvalues, contractsDir, hcontractsDir, testsDir, htestsDir, paths, hpaths, suffix,
      hsuffix, marker, hmarker, order, horder, outputDir, houtputDir, contracts, hcontracts, tests, htests,
      targets, hnames, script, hscript, hvalid⟩
    obtain ⟨rfl, -⟩ := validate_eq_ok_iff.mp hvalid
    refine ⟨fun f => ?_, hvalid⟩
    cases f with
    | testExtraPaths => exact hextra.trans (bind_eq_ok_iff.mpr ⟨extra, hvalues, hpaths⟩)
    | metadataTargets => exact htargets.trans hnames
    | contractsDir => exact (Field.reads_eq_ok_iff rfl).mpr ⟨_, hcontractsDir, rfl⟩
    | testsDir => exact (Field.reads_eq_ok_iff rfl).mpr ⟨_, htestsDir, rfl⟩
    | sourceSuffix => exact (Field.reads_eq_ok_iff rfl).mpr ⟨_, hsuffix, rfl⟩
    | mockMarker => exact (Field.reads_eq_ok_iff rfl).mpr ⟨_, hmarker, rfl⟩
    | listingOrder => exact (Field.reads_eq_ok_iff rfl).mpr ⟨_, horder, rfl⟩
    | outputDir => exact (Field.reads_eq_ok_iff rfl).mpr ⟨_, houtputDir, rfl⟩
    | contractsArtifact => exact (Field.reads_eq_ok_iff rfl).mpr ⟨_, hcontracts, rfl⟩
    | testsArtifact => exact (Field.reads_eq_ok_iff rfl).mpr ⟨_, htests, rfl⟩
    | broadcastScript => exact (Field.reads_eq_ok_iff rfl).mpr ⟨_, hscript, rfl⟩
  · rintro ⟨hreads, hvalid⟩
    obtain ⟨extra, hvalues, hpaths⟩ := bind_eq_ok_iff.mp (hextra.symm.trans (hreads .testExtraPaths))
    have hnames := htargets.symm.trans (hreads .metadataTargets)
    cases s
    obtain ⟨contractsDir, hcontractsDir, rfl⟩ := (Field.reads_eq_ok_iff rfl).mp (hreads .contractsDir)
    obtain ⟨testsDir, htestsDir, rfl⟩ := (Field.reads_eq_ok_iff rfl).mp (hreads .testsDir)
    obtain ⟨suffix, hsuffix, rfl⟩ := (Field.reads_eq_ok_iff rfl).mp (hreads .sourceSuffix)
    obtain ⟨marker, hmarker, rfl⟩ := (Field.reads_eq_ok_iff rfl).mp (hreads .mockMarker)
    obtain ⟨order, horder, rfl⟩ := (Field.reads_eq_ok_iff rfl).mp (hreads .listingOrder)
    obtain ⟨outputDir, houtputDir, rfl⟩ := (Field.reads_eq_ok_iff rfl).mp (hreads .outputDir)
    obtain ⟨contracts, hcontracts, rfl⟩ := (Field.reads_eq_ok_iff rfl).mp (hreads .contractsArtifact)
    obtain ⟨tests, htests, rfl⟩ := (Field.reads_eq_ok_iff rfl).mp (hreads .testsArtifact)
    obtain ⟨script, hscript, rfl⟩ := (Field.reads_eq_ok_iff rfl).mp (hreads .broadcastScript)
    exact ⟨extra, hvalues, contractsDir, hcontractsDir, testsDir, htestsDir, _, hpaths, suffix, hsuffix, marker,
      hmarker, order, horder, outputDir, houtputDir, contracts, hcontracts, tests, htests, _, hnames, script,
      hscript, hvalid⟩

end Settings

end SolidityKit
