/-
Layers of settings.

Settings come from up to four layers: the project's document, one developer's document laid over it, and two
variables of the environment laid over both.  Each field is chosen alone: the uppermost layer that has the key
decides, whatever else the layers say (`Layers.chosen`).  The settings are those of a document with the chosen
values and nothing else.

One step of laying over is `raw_overlay`; the documents, and each variable as a document of one field, are
cases of it.  Where two layers have a map at the key of a field, the maps are laid over each other and another
map comes out.  This is the one thing that is not chosen alone, and it makes no difference, because a map is
refused there whatever is in it.

A document can be laid over another one if it has each key once.  Of what is found in files this follows from
the reader, which is to read a map as one (`Reader.IsOrderly`).
-/
import SolidityKit.Proofs.Settings.Fields
import SolidityKit.Proofs.Settings.Loading
import SolidityKit.Proofs.Workspace.Rewriting
import SolidityKit.Proofs.Yaml.Keys
import Mathlib

namespace SolidityKit

open SolidityKit.Action

namespace Settings

/-! ### Laying over, field by field -/

/-- A document that can be laid over another one: its sections are maps, and each key is there once. -/
structure IsLayer (es : Entries) : Prop where
  /-- Sections are maps or absent. -/
  maps : SectionsAreMaps es
  /-- At the top, each key is there once. -/
  distinct : es.Distinct
  /-- So it is in each section. -/
  sections : ∀ part ∈ sectionNames, (sectionOf es part).Distinct

theorem alike_overlay (old : Option Value) (v : Value) : Alike (some (Value.overlay old v)) (some v) := by
  cases v with
  | scalar s => exact Alike.refl _
  | list items => exact Alike.refl _
  | map new =>
      match old with
      | some (.map es) => exact Or.inr ⟨_, new, rfl, rfl⟩
      | some (.scalar s) => exact Alike.refl _
      | some (.list items) => exact Alike.refl _
      | none => exact Alike.refl _

theorem alike_field?_overlay (base : Entries) {new : Entries} (hnew : new.Distinct) (name : String) :
    Alike ((Entries.overlay base new).field? name) ((new.field? name).or (base.field? name)) := by
  rw [Entries.field?_overlay base hnew]
  cases new.field? name with
  | none => exact Alike.refl _
  | some v => exact alike_overlay _ v

theorem field?_eq_map {es : Entries} (hes : SectionsAreMaps es) {part : String} (hpart : part ∈ sectionNames) :
    es.field? part = none ∧ sectionOf es part = [] ∨ es.field? part = some (.map (sectionOf es part)) := by
  unfold sectionOf
  cases hv : es.field? part with
  | none => exact Or.inl ⟨rfl, rfl⟩
  | some v =>
      have hmap := hes part hpart v hv
      cases v with
      | scalar s => cases hmap
      | list items => cases hmap
      | map fs => exact Or.inr rfl

section Overlay

variable {base new : Entries} (hbase : SectionsAreMaps base) (hnew : IsLayer new)

include hbase hnew

/-- A section is laid over what was there before. -/
theorem field?_overlay_section {part : String} (hpart : part ∈ sectionNames) :
    (Entries.overlay base new).field? part = base.field? part ∧ sectionOf new part = [] ∨
      (Entries.overlay base new).field? part = some (.map (sectionOf new part)) ∧ sectionOf base part = [] ∨
      (Entries.overlay base new).field? part =
        some (.map (Entries.overlay (sectionOf base part) (sectionOf new part))) := by
  rw [Entries.field?_overlay base hnew.distinct]
  rcases field?_eq_map hnew.maps hpart with ⟨hnone, hempty⟩ | hsome
  · rw [hnone]
    exact Or.inl ⟨rfl, hempty⟩
  · rw [hsome]
    rcases field?_eq_map hbase hpart with ⟨hnone, hempty⟩ | hsome'
    · rw [hnone]
      exact Or.inr (Or.inl ⟨rfl, hempty⟩)
    · rw [hsome']
      exact Or.inr (Or.inr rfl)

theorem sectionsAreMaps_overlay : SectionsAreMaps (Entries.overlay base new) := by
  intro part hpart v hv
  rcases field?_overlay_section hbase hnew hpart with ⟨h, -⟩ | ⟨h, -⟩ | h
  · exact hbase part hpart v (h.symm.trans hv)
  · cases h.symm.trans hv
    rfl
  · cases h.symm.trans hv
    rfl

/-- **A field is taken from the upper document if that has it, and else from the lower one.** -/
theorem raw_overlay (f : Field) :
    Alike (f.raw (Entries.overlay base new)) ((f.raw new).or (f.raw base)) := by
  unfold Field.raw
  cases hpart : f.part? with
  | none => exact alike_field?_overlay base hnew.distinct f.key
  | some part =>
      have hsection : part ∈ sectionNames := f.part_mem hpart
      simp only [Option.elim_some]
      rcases field?_overlay_section hbase hnew hsection with ⟨h, hempty⟩ | ⟨h, hempty⟩ | h
      · rw [hempty]
        unfold sectionOf
        rw [h]
        exact Alike.refl _
      · have hover : sectionOf (Entries.overlay base new) part = sectionOf new part := by
          show ((Entries.overlay base new).field? part |>.bind Value.entries?).getD [] = _
          rw [h]
          rfl
        rw [hover, hempty]
        show Alike _ (Option.or _ none)
        rw [Option.or_none]
        exact Alike.refl _
      · have hover : sectionOf (Entries.overlay base new) part =
            Entries.overlay (sectionOf base part) (sectionOf new part) := by
          show ((Entries.overlay base new).field? part |>.bind Value.entries?).getD [] = _
          rw [h]
          rfl
        rw [hover]
        exact alike_field?_overlay _ (hnew.sections part hsection) f.key

end Overlay

/-! ### Variables of the environment -/

/-- The value that a variable forces: its text, trimmed, unless it is blank. -/
def forced (value : Option Points) : Option Value :=
  match Text.trim (value.getD []) with
  | [] => none
  | cs => some (.ofPoints cs)

/-- A document of one field. -/
def single (part key : String) (v : Value) : Entries := [(.text part, .map [(.text key, v)])]

theorem field?_single_of_ne {part other key : String} (hne : part ≠ other) (v : Value) :
    (single part key v).field? other = none :=
  Entries.field?_cons_of_ne (fun h => hne (Scalar.text.inj h)) _ []

theorem sectionOf_single (part key : String) (v : Value) :
    sectionOf (single part key v) part = alone key (some v) := by
  have hself : (single part key v).field? part = some (.map [(.text key, v)]) :=
    Entries.field?_cons_self part _ []
  unfold sectionOf
  rw [hself]
  rfl

theorem isLayer_single (part key : String) (v : Value) : IsLayer (single part key v) where
  maps other _ w hw := by
    by_cases hother : part = other
    · subst hother
      rw [show (single part key v).field? part = some (.map [(.text key, v)]) from
        Entries.field?_cons_self part _ []] at hw
      cases hw
      rfl
    · rw [field?_single_of_ne hother] at hw
      cases hw
  distinct := List.pairwise_singleton _ _
  sections other _ := by
    by_cases hother : part = other
    · subst hother
      rw [sectionOf_single]
      exact List.pairwise_singleton _ _
    · unfold sectionOf
      rw [field?_single_of_ne hother]
      exact List.Pairwise.nil

theorem raw_single {g : Field} {part : String} (hg : g.part? = some part) (v : Value) (f : Field) :
    f.raw (single part g.key v) = if f = g then some v else none := by
  unfold Field.raw
  by_cases hfg : f = g
  · subst hfg
    rw [hg, if_pos rfl, Option.elim_some, sectionOf_single, field?_alone]
  · have hkey : g.key ≠ f.key := fun h => hfg (Field.key_injective h.symm)
    rw [if_neg hfg]
    cases hpart : f.part? with
    | none =>
        have hne : part ≠ f.key := fun h => f.key_not_section (h ▸ g.part_mem hg)
        exact field?_single_of_ne hne v
    | some other =>
        rw [Option.elim_some]
        by_cases hother : part = other
        · subst hother
          rw [sectionOf_single]
          exact Entries.field?_cons_of_ne (fun h => hkey (Scalar.text.inj h)) v []
        · unfold sectionOf
          rw [field?_single_of_ne hother]
          rfl

theorem overrideField_eq (es : Entries) (part key : String) (value : Option Points) :
    overrideField es part key value = (forced value).elim es fun v => es.overlay (single part key v) := by
  unfold overrideField forced
  cases Text.trim (value.getD []) <;> rfl

/-- A variable is laid over its own field and over no other. -/
theorem raw_overrideField {es : Entries} (hes : SectionsAreMaps es) {g : Field} {part : String}
    (hg : g.part? = some part) (value : Option Points) (f : Field) :
    Alike (f.raw (overrideField es part g.key value))
      ((if f = g then forced value else none).or (f.raw es)) := by
  rw [overrideField_eq]
  cases forced value with
  | none =>
      rw [ite_self]
      exact Alike.refl _
  | some v =>
      have hover := raw_overlay hes (isLayer_single part g.key v) f
      rwa [raw_single hg] at hover

theorem sectionsAreMaps_overrideField {es : Entries} (hes : SectionsAreMaps es) (part key : String)
    (value : Option Points) : SectionsAreMaps (overrideField es part key value) := by
  rw [overrideField_eq]
  cases forced value with
  | none => exact hes
  | some v => exact sectionsAreMaps_overlay hes (isLayer_single part key v)

/-! ### All layers -/

/-- The layers that settings come from. -/
structure Layers where
  /-- The project's document. -/
  base : Entries
  /-- The document of one developer. -/
  own : Entries
  /-- The variable for the directory of artifacts. -/
  outputDir : Option Points
  /-- The variable for the listing order. -/
  listingOrder : Option Points

namespace Layers

/-- The layers as one document. -/
def merged (l : Layers) : Entries :=
  overrideField (overrideField (Entries.overlay l.base l.own) "output" "dir" l.outputDir) "sources"
    "listing_order"
    l.listingOrder

/-- The variable for a field, if the environment has one for it. -/
def forcing? (l : Layers) : Field → Option Points
  | .outputDir => l.outputDir
  | .listingOrder => l.listingOrder
  | _ => none

/-- The value of a field, chosen alone: the variable forces it, or else the upper document that has
the key has it. -/
def chosen (l : Layers) (f : Field) : Option Value :=
  (forced (l.forcing? f)).or ((f.raw l.own).or (f.raw l.base))

/-- The layers can be laid over each other: sections are maps or absent, and the upper document has
each key once. -/
structure Proper (l : Layers) : Prop where
  /-- The project's document has maps for sections. -/
  base : SectionsAreMaps l.base
  /-- The developer's document is a layer. -/
  own : IsLayer l.own

/-- The layers are what there is to load in a workspace, which ends up as another one that
remembers the root. -/
structure FoundIn (l : Layers) (reader : Reader) (w w' : Workspace) : Prop where
  /-- The documents are those of the two files. -/
  documents : ∃ w₁, (Project.settingsFile >>= readEntries reader).runIn w = (.ok l.base, w₁) ∧
    (Project.localSettingsFile >>= readEntries reader).runIn w₁ = (.ok l.own, w')
  /-- The variable for the directory of artifacts. -/
  outputDir : l.outputDir = w'.environment.lookup "FLAT_OUTPUT_DIR"
  /-- The variable for the listing order. -/
  listingOrder : l.listingOrder = w'.environment.lookup "FLAT_LISTING_ORDER"

variable {l : Layers}

/-- What the layers come to has the chosen value for each field, maps apart that are refused there. -/
theorem raw_merged (hl : l.Proper) (f : Field) : Alike (f.raw l.merged) (l.chosen f) := by
  have hdocuments := sectionsAreMaps_overlay hl.base hl.own
  have hfirst := sectionsAreMaps_overrideField hdocuments "output" "dir" l.outputDir
  refine (raw_overrideField (g := .listingOrder) hfirst rfl l.listingOrder f).trans ?_
  refine ((Alike.refl _).or ((raw_overrideField (g := .outputDir) hdocuments rfl l.outputDir f).trans
    ((Alike.refl _).or (raw_overlay hl.base hl.own f)))).trans ?_
  -- at most one of the two variables is for the field
  cases f <;> exact Alike.refl _

theorem sectionsAreMaps_merged (hl : l.Proper) : SectionsAreMaps l.merged :=
  sectionsAreMaps_overrideField
    (sectionsAreMaps_overrideField (sectionsAreMaps_overlay hl.base hl.own) "output" "dir" l.outputDir) _ _ _

/-- The outcome is that of a document that has the chosen values and nothing else. -/
theorem ofEntries_merged (hl : l.Proper) : ofEntries l.merged = ofEntries (documentOf l.chosen) := by
  refine ofEntries_congr (sectionsAreMaps_merged hl) (sectionsAreMaps_documentOf l.chosen) fun f => ?_
  rw [Field.raw_documentOf]
  exact raw_merged hl f

theorem ofEntries_merged_eq_ok_iff (hl : l.Proper) {s : Settings} :
    ofEntries l.merged = .ok s ↔ (∀ f : Field, f.reads (l.chosen f) = .ok (f.value s)) ∧
    validate s = .ok s := by
  rw [ofEntries_merged hl, ofEntries_eq_ok_iff (sectionsAreMaps_documentOf l.chosen)]
  simp only [Field.raw_documentOf]

end Layers

/-! ### Loading -/

/-- The reader gives documents in which each map has each key once. -/
def Reader.IsOrderly (reader : Reader) : Prop := ∀ t v, reader t = .ok (some v) → v.Orderly

theorem isOrderly_read : Reader.IsOrderly Yaml.read := fun _ _ => Yaml.orderly_read

variable {reader : Reader}

theorem readEntries_cases {p : Path} {w w' : Workspace} {es : Entries}
    (h : (readEntries reader p).runIn w = (.ok es, w')) :
    (Action.pathExists p).runIn w = (.ok false, w) ∧ es = [] ∧ w' = w ∨
      (Action.pathExists p).runIn w = (.ok true, w) ∧ (es = [] ∨ ∃ t, reader t = .ok (some (.map es))) := by
  rw [readEntries_eq] at h
  obtain ⟨there, w₁, hthere, h⟩ := runIn_bind_eq_ok h
  obtain rfl : w₁ = w := (keeps_pathExists p).of_runIn hthere
  cases there with
  | false =>
      cases h
      exact Or.inl ⟨hthere, rfl, rfl⟩
  | true =>
      refine Or.inr ⟨hthere, ?_⟩
      obtain ⟨t, w₂, -, h⟩ := runIn_bind_eq_ok h
      obtain ⟨v?, w₃, hread, h⟩ := runIn_bind_eq_ok h
      obtain ⟨hdocument, -⟩ := runIn_ofExcept_eq_ok hread
      unfold entriesOf at h
      split at h
      · cases h
        exact Or.inl rfl
      · cases h
        exact Or.inl rfl
      · cases h
        exact Or.inr ⟨t, hdocument⟩
      · cases h

/-- The entries of a file that holds a map. -/
theorem runIn_readEntries {p : Path} {w : Workspace} {t : Text} {es : Entries} (husable : p.Usable)
    (htext : w.HasText p t) (hes : reader t = .ok (some (.map es))) :
    (readEntries reader p).runIn w = (.ok es, w) := by
  have hdocument : (readDocument p).runIn w = (.ok t, w) := by
    unfold readDocument
    rw [show tryCatch (readText p) = tryCatchThe Failure (readText p) from rfl, runIn_tryCatch,
      runIn_readText_of_hasText husable htext]
  rw [readEntries_eq, runIn_bind_ok (htext.pathExists husable)]
  refine (runIn_bind_ok hdocument).trans ?_
  rw [hes]
  rfl

theorem orderly_readEntries (hreader : reader.IsOrderly) {p : Path} {w w' : Workspace} {es : Entries}
    (h : (readEntries reader p).runIn w = (.ok es, w')) : (Value.map es).Orderly := by
  have hempty : (Value.map []).Orderly := .map List.Pairwise.nil fun e he => by cases he
  rcases readEntries_cases h with ⟨-, rfl, -⟩ | ⟨-, rfl | ⟨t, ht⟩⟩
  · exact hempty
  · exact hempty
  · exact hreader t _ ht

theorem isLayer_of_orderly {es : Entries} (hes : (Value.map es).Orderly) (hmaps : SectionsAreMaps es) :
    IsLayer es where
  maps := hmaps
  distinct := by
    cases hes with
    | map hkeys hvalues => exact hkeys
  sections part hpart := by
    rcases field?_eq_map hmaps hpart with ⟨-, hempty⟩ | hsome
    · rw [hempty]
      exact List.Pairwise.nil
    · cases hes.of_field? hsome with
      | map hkeys hvalues => exact hkeys

namespace Layers

variable {l : Layers} {w w' : Workspace}

/-- Documents that were found have each key once. -/
theorem FoundIn.proper (h : l.FoundIn reader w w') (hreader : reader.IsOrderly) (hbase : SectionsAreMaps l.base)
    (hown : SectionsAreMaps l.own) : l.Proper := by
  obtain ⟨w₁, -, hread⟩ := h.documents
  obtain ⟨p, w₂, -, hread⟩ := runIn_bind_eq_ok hread
  exact ⟨hbase, isLayer_of_orderly (orderly_readEntries hreader hread) hown⟩

theorem FoundIn.projectEntries (h : l.FoundIn reader w w') :
    (Settings.projectEntries reader).runIn w = (.ok (Entries.overlay l.base l.own), w') := by
  obtain ⟨w₁, hbase, hown⟩ := h.documents
  obtain ⟨p, w₂, hp, hbase⟩ := runIn_bind_eq_ok hbase
  obtain ⟨q, w₃, hq, hown⟩ := runIn_bind_eq_ok hown
  refine (runIn_bind_ok hp).trans ((runIn_bind_ok hbase).trans ((runIn_bind_ok hq).trans ?_))
  rcases readEntries_cases hown with ⟨hthere, hempty, rfl⟩ | ⟨hthere, -⟩
  · rw [hempty]
    exact runIn_bind_ok hthere
  · refine (runIn_bind_ok hthere).trans ?_
    exact runIn_bind_ok hown

/-- Loading settings lays over each other what was found. -/
theorem FoundIn.load (h : l.FoundIn reader w w') :
    (Settings.load reader none).runIn w = ((ofEntries l.merged).mapError .settings, w') := by
  have hvalue (name : String) : (Action.valueOf? name).runIn w' = (.ok (w'.environment.lookup name), w') := rfl
  refine (runIn_bind_ok h.projectEntries).trans ?_
  refine (runIn_bind_ok (hvalue "FLAT_OUTPUT_DIR")).trans
    ((runIn_bind_ok (hvalue "FLAT_LISTING_ORDER")).trans ?_)
  rw [← h.outputDir, ← h.listingOrder]
  exact runIn_ofExcept _ _ _

end Layers

/--
**Each field is chosen alone.**

The settings of the layers are those of a document that has the chosen values and nothing else, and a refusal
is a refusal of that document.  They are accepted exactly if each field can be read from its chosen value and
what has been read satisfies what settings must satisfy as a whole.  A field that no layer has keeps its
default, and so does a text that the deciding layer has with the absent value.

Loading settings in a workspace is this, whatever reads the documents.  Where sections are maps, layers that
were found can be laid over each other, if only the reader gives each key once.
-/
theorem load_chosen_alone (l : Layers) :
    (l.Proper → ofEntries l.merged = ofEntries (documentOf l.chosen) ∧
      ∀ s, ofEntries l.merged = .ok s ↔
        (∀ f : Field, f.reads (l.chosen f) = .ok (f.value s)) ∧ validate s = .ok s) ∧
      (∀ f : Field, f.reads none = .ok (f.value {})) ∧
      (∀ f : Field, f.isList = false → f.reads (some .null) = .ok (f.value {})) ∧
      ∀ (reader : Reader) w w', l.FoundIn reader w w' →
        (load reader none).runIn w = ((ofEntries l.merged).mapError .settings, w') ∧
          (reader.IsOrderly → SectionsAreMaps l.base → SectionsAreMaps l.own → l.Proper) :=
  ⟨fun hl => ⟨Layers.ofEntries_merged hl, fun _ => Layers.ofEntries_merged_eq_ok_iff hl⟩, Field.reads_none,
    fun _ => Field.reads_null, fun _ _ _ h => ⟨h.load, h.proper⟩⟩

/-- Layers that disagree about a field, in all ways that there are to. -/
def mixedLayers : Layers where
  base := [
    (.text "sources", .map [(.text "contracts_dir", .text "src"), (.text "listing_order", .text " Native "),
      (.text "test_extra_paths", .list [.text "a.sol", .text "b.sol"])]),
    (.text "output", .map [(.text "dir", .text "build"), (.text "tests", .text "t.sol")]),
    (.text "metadata_targets", .list [.text " A "])]
  own := [
    (.text "sources", .map [(.text "contracts_dir", .null), (.text "test_extra_paths", .list [.text "c.sol"])]),
    (.text "output", .map [(.text "dir", .map [])])]
  outputDir := some (" dist " : Points)
  listingOrder := some (" " : Points)

/-- The settings that come of them. -/
def mixedSettings : Settings :=
  { testExtraPaths := ["c.sol"], outputDir := "dist", testsArtifact := "t.sol", listingOrder := "native",
    metadataTargets := ["A"] }

/-- The project's document in a sample. -/
def sampleBase : Text := "output: {dir: a, tests: t.sol}".toList

/-- The document of one developer in it. -/
def sampleOwn : Text := "output: {dir: {}}".toList

/-- A project with two documents and a variable. -/
def layeredProject : Workspace :=
  { tree := .dir [("configs", .dir [("flatten.local.yaml", .file (Utf8.encode sampleOwn)),
      ("flatten.yaml", .file (Utf8.encode sampleBase))])],
    environment := [("FLAT_OUTPUT_DIR", " dist ")], knownRoot := some (none, ⟨.top, []⟩) }

/-- The entries of a text that holds a map. -/
def entriesRead (t : Text) : Option Entries := (Yaml.read t).toOption.join.bind Value.entries?

theorem read_of_isSome_entriesRead {t : Text} (h : (entriesRead t).isSome = true) :
    Yaml.read t = .ok (some (.map ((entriesRead t).getD []))) := by
  unfold entriesRead at h ⊢
  cases hread : Yaml.read t with
  | error f => rw [hread] at h; cases h
  | ok v? =>
      rw [hread] at h
      match v? with
      | none => cases h
      | some (.scalar s) => cases h
      | some (.list items) => cases h
      | some (.map es) => rfl

/-- What there is to load in it. -/
def layeredProjectLayers : Layers where
  base := (entriesRead sampleBase).getD []
  own := (entriesRead sampleOwn).getD []
  outputDir := some (" dist " : Points)
  listingOrder := none

theorem hasText_layeredProject :
    layeredProject.HasText ⟨.top, ["configs", "flatten.yaml"]⟩ sampleBase ∧
      layeredProject.HasText ⟨.top, ["configs", "flatten.local.yaml"]⟩ sampleOwn :=
  ⟨⟨Utf8.encode sampleBase, sampleBase, by rfl, Utf8.decode_encode sampleBase, by decide⟩,
    Utf8.encode sampleOwn, sampleOwn, by rfl, Utf8.decode_encode sampleOwn, by decide⟩

theorem foundIn_layeredProject : layeredProjectLayers.FoundIn Yaml.read layeredProject layeredProject := by
  obtain ⟨hbaseText, hownText⟩ := hasText_layeredProject
  have hfiles : Project.settingsFile.runIn layeredProject =
        (.ok ⟨.top, ["configs", "flatten.yaml"]⟩, layeredProject) ∧
      Project.localSettingsFile.runIn layeredProject =
        (.ok ⟨.top, ["configs", "flatten.local.yaml"]⟩, layeredProject) := ⟨by rfl, by rfl⟩
  have hbase := runIn_readEntries (by decide) hbaseText
    (read_of_isSome_entriesRead (by decide +kernel))
  have hown := runIn_readEntries (by decide) hownText (read_of_isSome_entriesRead (by decide +kernel))
  refine ⟨⟨layeredProject, ?_, ?_⟩, by decide, by decide⟩
  · rw [runIn_bind_ok hfiles.1, hbase]
    simp only [layeredProjectLayers]
  · rw [runIn_bind_ok hfiles.2, hown]
    simp only [layeredProjectLayers]

/-- A variable hides a map that would have been refused, and a null makes the lower value a default. -/
theorem load_chosen_alone_mixed :
    mixedLayers.Proper ∧ ofEntries mixedLayers.merged = .ok mixedSettings ∧
      layeredProjectLayers.Proper ∧
        (load Yaml.read none).runIn layeredProject =
          (.ok { outputDir := "dist", testsArtifact := "t.sol" }, layeredProject) := by
  have hmixed : mixedLayers.Proper := ⟨by decide, ⟨by decide, by decide, by decide⟩⟩
  have haccepted : ofEntries layeredProjectLayers.merged =
    .ok { outputDir := "dist", testsArtifact := "t.sol" } := by
    decide +kernel
  obtain ⟨hall, -⟩ := load_chosen_alone mixedLayers
  obtain ⟨-, -, -, hload⟩ := load_chosen_alone layeredProjectLayers
  obtain ⟨hload, hproper⟩ := hload _ _ _ foundIn_layeredProject
  refine ⟨hmixed, ((hall hmixed).2 mixedSettings).mpr ⟨fun f => ?_, rfl⟩,
    hproper isOrderly_read (by decide +kernel) (by decide +kernel), ?_⟩
  · cases f <;> rfl
  · rw [hload, haccepted]
    rfl

end Settings

end SolidityKit
