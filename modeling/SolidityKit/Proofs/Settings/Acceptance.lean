/-
Which documents are accepted as settings.

A step of reading settings has a condition: under it the step has a result that can be told in advance, and
otherwise the document is refused (`Decides`).  Steps that are done one after the other have their conditions
together (`Decides.bind`), so that the whole document is accepted on a condition, too (`Acceptable`), and the
settings are those that it comes to (`resulting`).

The only other way for a reading to fail is a number that is too long to be written out.  A JSON text does not
have one, and thus JSON documents are either accepted or refused (`ofEntries_exact`).
-/
import SolidityKit.Proofs.CommandLine.Codes
import SolidityKit.Proofs.Json.Reading
import SolidityKit.Proofs.Settings.Fields

namespace SolidityKit

namespace Settings

/-! ### Steps that have a condition -/

section Decides

variable {α β : Type} {r : Except Fault α} {c c' : Prop} {a : α}

/-- On a condition there is a result, and otherwise a refusal. -/
structure Decides (r : Except Fault α) (c : Prop) (a : α) : Prop where
  /-- The result on the condition. -/
  accepted : c → r = .ok a
  /-- The refusal without it. -/
  refused : ¬ c → ∃ f, r = .error f ∧ f.isRefusal = true

namespace Decides

theorem accept (hc : c) (h : r = .ok a) : Decides r c a := ⟨fun _ => h, fun hnot => absurd hc hnot⟩

theorem refuse {f : Fault} (hf : f.isRefusal = true) (hc : ¬ c) (a : α) : Decides (.error f) c a :=
  ⟨fun h => absurd h hc, fun _ => ⟨f, rfl, hf⟩⟩

theorem congr (h : Decides r c a) (hc : c ↔ c') : Decides r c' a :=
  ⟨fun h' => h.accepted (hc.mpr h'), fun h' => h.refused fun hc' => h' (hc.mp hc')⟩

theorem bind {next : α → Except Fault β} {b : β} (h : Decides r c a) (hnext : Decides (next a) c' b) :
    Decides (r >>= next) (c ∧ c') b where
  accepted := by
    rintro ⟨hc, hc'⟩
    rw [h.accepted hc]
    exact hnext.accepted hc'
  refused hnot := by
    by_cases hc : c
    · rw [h.accepted hc]
      exact hnext.refused fun hc' => hnot ⟨hc, hc'⟩
    · obtain ⟨f, hf, hrefusal⟩ := h.refused hc
      exact ⟨f, by rw [hf]; rfl, hrefusal⟩

theorem eq_ok_iff (h : Decides r c a) {b : α} : r = .ok b ↔ c ∧ b = a := by
  constructor
  · intro hb
    by_cases hc : c
    · rw [h.accepted hc] at hb
      exact ⟨hc, (Except.ok.inj hb).symm⟩
    · obtain ⟨f, hf, -⟩ := h.refused hc
      cases hf.symm.trans hb
  · rintro ⟨hc, rfl⟩
    exact h.accepted hc

end Decides

end Decides

/-! ### What may be in a document -/

/-- What a section may be: nothing, something that counts as false, or a map. -/
def isSection (v? : Option Value) : Bool := v?.all fun v => !v.isTruthy || v.isMap

/-- What a field that has one text may be given: nothing, null, a text, a number or a truth value. -/
def isTextual : Option Value → Bool
  | none => true
  | some (.scalar (.date _)) | some (.scalar (.moment ..)) | some (.scalar (.other _)) => false
  | some (.scalar _) => true
  | some _ => false

/-- What a field that has a list of texts may be given: nothing, null, one text, or a list of anything. -/
def isListing : Option Value → Bool
  | none | some (.scalar .null) | some (.scalar (.text _)) | some (.scalar (.torn _)) | some (.list _) => true
  | some _ => false

/-- The text that a field is given, as it is shown; nothing and null stand for the default. -/
def textAt (dflt : Points) : Option Value → Points
  | none | some (.scalar .null) => dflt
  | some v => v.display

/-- The values that a field is given as a list; one text is a list of itself, and nothing stands
for the default. -/
def itemsAt (dflt : List Value) : Option Value → List Value
  | none => dflt
  | some (.scalar .null) => []
  | some (.list vs) => vs
  | some v => [v]

/-- The texts of values, trimmed, without blank ones. -/
def trimmedNames (vs : List Value) : List Points := (vs.map fun v => Text.trim v.display).filter (· ≠ [])

/-- The text that a field of a document comes to. -/
def Field.text (f : Field) (es : Entries) : Points := f.finish (textAt ((f.value {}).headD []) (f.raw es))

/-- The settings that a document comes to, if it is accepted. -/
def resulting (es : Entries) : Settings where
  contractsDir := Field.contractsDir.text es
  testsDir := Field.testsDir.text es
  testExtraPaths :=
    (itemsAt (({} : Settings).testExtraPaths.map .ofPoints) (Field.testExtraPaths.raw es)).map Value.display
  sourceSuffix := Field.sourceSuffix.text es
  mockMarker := Field.mockMarker.text es
  outputDir := Field.outputDir.text es
  contractsArtifact := Field.contractsArtifact.text es
  testsArtifact := Field.testsArtifact.text es
  listingOrder := Field.listingOrder.text es
  metadataTargets := trimmedNames (itemsAt [] (Field.metadataTargets.raw es))
  broadcastScript := Field.broadcastScript.text es

/-- What is asked of a document. -/
structure Acceptable (es : Entries) : Prop where
  /-- Each section is absent, counts as false or is a map. -/
  sections : ∀ part ∈ sectionNames, isSection (es.field? part) = true
  /-- Each field that has one text is absent, null, a text, a number or a truth value. -/
  texts : ∀ f : Field, f.isList = false → isTextual (f.raw es) = true
  /-- Each of the other two is absent, null, a text or a list. -/
  listings : ∀ f : Field, f.isList = true → isListing (f.raw es) = true
  /-- The suffix of sources is not empty. -/
  suffix : (resulting es).sourceSuffix ≠ []
  /-- The marker of mocks is not empty. -/
  marker : (resulting es).mockMarker ≠ []
  /-- The listing order, trimmed and in lower case, is known. -/
  order : (resulting es).listingOrder = "sorted" ∨ (resulting es).listingOrder = "native"
  /-- The artifacts have two names. -/
  artifacts : (resulting es).contractsArtifact ≠ (resulting es).testsArtifact

/-! ### Step by step -/

theorem decides_section (es : Entries) (part : String) :
    Decides (section? es part) (isSection (es.field? part) = true) (sectionOf es part) := by
  unfold section? sectionOf
  cases es.field? part with
  | none => exact .accept rfl rfl
  | some v =>
      dsimp only
      cases htruthy : v.isTruthy with
      | false =>
          rw [if_neg Bool.false_ne_true]
          have hsection : isSection (some v) = true := by simp [isSection, htruthy]
          cases v with
          | map es =>
              obtain rfl : es = [] := by simpa [Value.isTruthy] using htruthy
              exact .accept hsection rfl
          | _ => exact .accept hsection rfl
      | true =>
          rw [if_pos rfl]
          cases v with
          | map es => exact .accept (by simp [isSection, Value.isMap]) rfl
          | _ => exact .refuse rfl (by simp [isSection, htruthy, Value.isMap]) _

theorem asText_eq {v : Value} (hv : v.isWritable = true) : asText v = .ok v.display := if_pos hv

theorem mapM_asText_eq {vs : List Value} (hvs : ∀ v ∈ vs, v.isWritable = true) :
    vs.mapM asText = .ok (vs.map Value.display) := by
  induction vs with
  | nil => rfl
  | cons v rest ih =>
      obtain ⟨hv, hrest⟩ := List.forall_mem_cons.mp hvs
      exact mapM_cons_eq_ok_iff.mpr ⟨_, _, asText_eq hv, ih hrest, rfl⟩

theorem decides_textField {es : Entries} (h : (Value.map es).isWritable = true) (name : String)
    (dflt : Points) :
    Decides (textField es name dflt) (isTextual (es.field? name) = true) (textAt dflt (es.field? name)) := by
  unfold textField
  cases hraw : es.field? name with
  | none => exact .accept rfl rfl
  | some v =>
      have hv := Value.isWritable_of_field? h hraw
      cases v with
      | list vs => exact .refuse rfl Bool.false_ne_true _
      | map fs => exact .refuse rfl Bool.false_ne_true _
      | scalar s =>
          cases s with
          | null => exact .accept rfl rfl
          | date d => exact .refuse rfl Bool.false_ne_true _
          | moment d c => exact .refuse rfl Bool.false_ne_true _
          | other v => exact .refuse rfl Bool.false_ne_true _
          | _ => exact .accept rfl (asText_eq hv)

theorem isWritable_sectionOf {es : Entries} (h : (Value.map es).isWritable = true) (part : String) :
    (Value.map (sectionOf es part)).isWritable = true := by
  unfold sectionOf
  cases hv : es.field? part with
  | none => rfl
  | some v =>
      cases v with
      | map fs => exact Value.isWritable_of_field? h hv
      | _ => rfl

theorem isWritable_itemsAt {es : Entries} (h : (Value.map es).isWritable = true) (name : String)
    (dflt : List Value)
    (hdflt : ∀ v ∈ dflt, v.isWritable = true) : ∀ v ∈ itemsAt dflt (es.field? name), v.isWritable = true := by
  cases hraw : es.field? name with
  | none => exact hdflt
  | some v =>
      have hv := Value.isWritable_of_field? h hraw
      cases v with
      | list vs => exact Value.isWritable_list.mp hv
      | map fs => exact List.forall_mem_singleton.mpr hv
      | scalar s =>
          cases s with
          | null => exact fun v hv => by cases hv
          | _ => exact List.forall_mem_singleton.mpr hv

theorem targetNames_eq {vs : List Value} (hvs : ∀ v ∈ vs, v.isWritable = true) :
    targetNames vs = .ok (trimmedNames vs) := by
  unfold targetNames trimmedNames
  rw [mapM_asText_eq hvs]
  show Except.ok _ = _
  rw [List.map_map]
  rfl

theorem decides_extraPathValues (es : Entries) :
    Decides (extraPathValues es) (isListing (es.field? "test_extra_paths") = true)
      (itemsAt (({} : Settings).testExtraPaths.map .ofPoints) (es.field? "test_extra_paths")) := by
  unfold extraPathValues
  cases es.field? "test_extra_paths" with
  | none => exact .accept rfl rfl
  | some v =>
      cases v with
      | list vs => exact .accept rfl rfl
      | map fs => exact .refuse rfl Bool.false_ne_true _
      | scalar s =>
          cases s with
          | null => exact .accept rfl rfl
          | text t => exact .accept rfl rfl
          | torn cs => exact .accept rfl rfl
          | _ => exact .refuse rfl Bool.false_ne_true _

theorem decides_metadataTargets {es : Entries} (h : (Value.map es).isWritable = true) :
    Decides (metadataTargetsOf es) (isListing (es.field? "metadata_targets") = true)
      (trimmedNames (itemsAt [] (es.field? "metadata_targets"))) := by
  have hitems := isWritable_itemsAt h "metadata_targets" [] (by simp)
  unfold metadataTargetsOf
  cases hraw : es.field? "metadata_targets" with
  | none => exact .accept rfl rfl
  | some v =>
      rw [hraw] at hitems
      cases v with
      | list vs => exact .accept rfl (targetNames_eq hitems)
      | map fs => exact .refuse rfl Bool.false_ne_true _
      | scalar s =>
          cases s with
          | null => exact .accept rfl rfl
          | text t => exact .accept rfl (targetNames_eq hitems)
          | torn cs => exact .accept rfl (targetNames_eq hitems)
          | _ => exact .refuse rfl Bool.false_ne_true _

theorem decides_validate (s : Settings) :
    Decides (validate s) (s.sourceSuffix ≠ [] ∧ s.mockMarker ≠ [] ∧ s.listingOrder ∈ listingOrders ∧
      s.contractsArtifact ≠ s.testsArtifact) s := by
  refine ⟨fun h => validate_eq_ok_iff.mpr ⟨rfl, h⟩, fun h => ?_⟩
  unfold validate
  by_cases hsuffix : s.sourceSuffix = []
  · exact ⟨.emptySuffix, if_pos hsuffix, rfl⟩
  by_cases hmarker : s.mockMarker = []
  · exact ⟨.emptyMarker, by rw [if_neg hsuffix, if_pos hmarker], rfl⟩
  by_cases horder : s.listingOrder ∈ listingOrders
  · by_cases hsame : s.contractsArtifact = s.testsArtifact
    · refine ⟨.sameArtifacts, ?_, rfl⟩
      rw [if_neg hsuffix, if_neg hmarker, if_neg (not_not_intro horder), if_pos hsame]
    · exact absurd ⟨hsuffix, hmarker, horder, hsame⟩ h
  · refine ⟨.unknownOrder s.listingOrder, ?_, rfl⟩
    rw [if_neg hsuffix, if_neg hmarker, if_pos horder]

/-! ### The whole document -/

theorem decides_ofEntries {es : Entries} (h : (Value.map es).isWritable = true) :
    Decides (ofEntries es) (Acceptable es) (resulting es) := by
  have hsection (part : String) := isWritable_sectionOf h part
  have htext (part name : String) (dflt : Points) := decides_textField (hsection part) name dflt
  have hextra := isWritable_itemsAt (hsection "sources") "test_extra_paths"
    (({} : Settings).testExtraPaths.map .ofPoints) (by decide)
  unfold ofEntries
  -- the steps in their order; all of them together ask for what is acceptable
  refine Decides.congr ((decides_section es "sources").bind <| (decides_section es "output").bind <|
    (decides_section es "broadcast").bind <| (decides_extraPathValues _).bind <|
    (htext "sources" "contracts_dir" _).bind <| (htext "sources" "tests_dir" _).bind <|
    (Decides.accept trivial (mapM_asText_eq hextra)).bind <| (htext "sources" "suffix" _).bind <|
    (htext "sources" "mock_marker" _).bind <| (htext "sources" "listing_order" _).bind <|
    (htext "output" "dir" _).bind <| (htext "output" "contracts" _).bind <| (htext "output" "tests" _).bind <|
    (decides_metadataTargets h).bind <| (htext "broadcast" "script" _).bind <|
      decides_validate (resulting es)) ?_
  constructor
  · rintro ⟨hsources, houtput, hbroadcast, hextraPaths, hcontractsDir, htestsDir, -, hsuffix, hmarker, horder,
      houtputDir, hcontracts, htests, htargets, hscript, hchecks⟩
    refine ⟨?_, fun f hf => ?_, fun f hf => ?_, hchecks.1, hchecks.2.1, ?_, hchecks.2.2.2⟩
    · simp only [sectionNames, List.forall_mem_cons]
      exact ⟨hsources, houtput, hbroadcast, fun _ hpart => by cases hpart⟩
    · cases f <;> first | assumption | cases hf
    · cases f <;> first | assumption | cases hf
    · simpa [listingOrders] using hchecks.2.2.1
  · intro h
    exact ⟨h.sections _ (by decide), h.sections _ (by decide), h.sections _ (by decide),
      h.listings .testExtraPaths rfl, h.texts .contractsDir rfl, h.texts .testsDir rfl, trivial,
      h.texts .sourceSuffix rfl, h.texts .mockMarker rfl, h.texts .listingOrder rfl, h.texts .outputDir rfl,
      h.texts .contractsArtifact rfl, h.texts .testsArtifact rfl, h.listings .metadataTargets rfl,
      h.texts .broadcastScript rfl, h.suffix, h.marker, by simpa [listingOrders] using h.order, h.artifacts⟩

theorem trimmed_of_mem_trimmedNames {vs : List Value} {name : Points} (h : name ∈ trimmedNames vs) :
    name ≠ [] ∧ Text.trim name = name := by
  obtain ⟨hmem, hne⟩ := List.mem_filter.mp h
  obtain ⟨v, -, rfl⟩ := List.mem_map.mp hmem
  exact ⟨of_decide_eq_true hne, (Text.trimmed_trim _).trim_eq⟩

/--
**Acceptance is exact.**

Every JSON document can be written out.  A document that can be gives settings or is refused, and it gives
settings exactly if it is acceptable, namely those that it comes to.  No jobs are made of such settings that
fail for an unknown listing order, and no metadata target among them is blank or has blanks around it.
-/
theorem ofEntries_exact (es : Entries) :
    (∀ t, Json.read t = .ok (.map es) → (Value.map es).isWritable = true) ∧
      ((Value.map es).isWritable = true →
        ((∃ s, ofEntries es = .ok s) ∨ ∃ f, ofEntries es = .error f ∧ f.isRefusal = true) ∧
        ((∃ s, ofEntries es = .ok s) ↔ Acceptable es) ∧
        ∀ s, ofEntries es = .ok s →
          s = resulting es ∧
          (∀ base w w' order, (Flatten.jobs s base).runIn w ≠ (.error (.unknownOrder order), w')) ∧
          ∀ name ∈ s.metadataTargets, name ≠ [] ∧ Text.trim name = name) := by
  refine ⟨fun t ht => Json.isWritable_read ht, fun hwritable => ?_⟩
  have hdecides := decides_ofEntries hwritable
  refine ⟨?_, ?_, fun s hs => ?_⟩
  · by_cases h : Acceptable es
    · exact Or.inl ⟨_, hdecides.accepted h⟩
    · exact Or.inr (hdecides.refused h)
  · simp only [hdecides.eq_ok_iff, exists_and_left, exists_eq, and_true]
  · obtain ⟨hacceptable, rfl⟩ := hdecides.eq_ok_iff.mp hs
    have horder : (resulting es).listingOrder ∈ listingOrders := by
      simpa [listingOrders] using hacceptable.order
    refine ⟨rfl, fun base w w' order hjobs => ?_, fun name hname => trimmed_of_mem_trimmedNames hname⟩
    cases (Flatten.fails_jobs horder base w w').2 _ hjobs

/-- A document that is accepted, although a section is no map and a number stands for a text. -/
def oddText : Text :=
  "\x7b\"sources\":\x7b\"suffix\":0,\"listing_order\":\" NATIVE \"\x7d,\"output\":[]\x7d".toList

/-- What the document holds. -/
def oddEntries : Entries :=
  [(.text "sources", .map [(.text "suffix", .int 0), (.text "listing_order", .text " NATIVE ")]),
    (.text "output", .list [])]

/-- A document that is accepted: the names of the artifacts are two surrogates that stand alone. -/
def tornText : Text := "\x7b\"output\":\x7b\"contracts\":\"\\ud800\",\"tests\":\"\\ud801\"\x7d\x7d".toList

/-- What the document holds. -/
def tornEntries : Entries :=
  [(.text "output", .map [(.text "contracts", .ofPoints [.surrogate 0]),
    (.text "tests", .ofPoints [.surrogate 1])])]

/-- A document that is refused, because an artifact is given the name that the other one has by default. -/
def clashingText : Text := "\x7b\"output\":\x7b\"tests\":\"contracts.sol\"\x7d\x7d".toList

/-- What the document holds. -/
def clashingEntries : Entries := [(.text "output", .map [(.text "tests", .text "contracts.sol")])]

theorem ofEntries_exact_odd :
    (Json.read oddText = .ok (.map oddEntries) ∧
        ofEntries oddEntries = .ok { sourceSuffix := "0", listingOrder := "native" }) ∧
      (Json.read tornText = .ok (.map tornEntries) ∧
        ofEntries tornEntries = .ok { contractsArtifact := [.surrogate 0], testsArtifact := [.surrogate 1] }) ∧
      Json.read clashingText = .ok (.map clashingEntries) ∧
        ∃ f, ofEntries clashingEntries = .error f ∧ f.isRefusal = true := by
  have haccepted {t : Text} {es : Entries} {s : Settings} (ht : Json.read t = .ok (.map es))
      (hes : Acceptable es) (hs : resulting es = s) : ofEntries es = .ok s := by
    obtain ⟨hwritable, hexact⟩ := ofEntries_exact es
    obtain ⟨-, hiff, hall⟩ := hexact (hwritable t ht)
    obtain ⟨s', hs'⟩ := hiff.mpr hes
    rw [hs', (hall s' hs').1, hs]
  have hodd : Json.read oddText = .ok (.map oddEntries) := by cbv
  have htorn : Json.read tornText = .ok (.map tornEntries) := by cbv
  have hclashing : Json.read clashingText = .ok (.map clashingEntries) := by cbv
  refine ⟨⟨hodd, haccepted hodd ?_ (by decide)⟩, ⟨htorn, haccepted htorn ?_ (by decide)⟩, hclashing, ?_⟩
  · refine ⟨by decide, fun f hf => ?_, fun f hf => ?_, by decide, by decide, by decide, by decide⟩ <;>
      cases f <;> first | rfl | cases hf
  · refine ⟨by decide, fun f hf => ?_, fun f hf => ?_, by decide, by decide, by decide, by decide⟩ <;>
      cases f <;> rfl
  · obtain ⟨hwritable, hexact⟩ := ofEntries_exact clashingEntries
    obtain ⟨hone, hiff, -⟩ := hexact (hwritable _ hclashing)
    exact hone.resolve_left fun h => (hiff.mp h).artifacts (by decide)

end Settings

end SolidityKit
