/-
Trimming, and trimming again.

The next run finds the trimmed metadata where the artifacts were, and takes it for an artifact.  What it makes
of it depends on what trimming keeps: metadata that has metadata of its own is trimmed again, and all the rest
is left alone.  It does not fail, because the text of a part can be written if the text of the whole could
(`trimAll_twice`).
-/
import SolidityKit.Proofs.Files.Frames
import SolidityKit.Proofs.Metadata.Trimmed
import SolidityKit.Proofs.Metadata.TrimRuns
import Mathlib

namespace SolidityKit

open Files SolidityKit.Action

/-! ### Reading back -/

/-- Reading the text of a document gives the document back, if it has a text. -/
def Json.ReadsBack (v : Value) : Prop := ∀ t, print (.indented 1) v = Points.ofText t → read t = .ok v

namespace Metadata

open Project (Settled artifactPath)

/-! ### What trimmed metadata shows -/

section Shows

variable {c : CodePoint}

theorem shows_of_dropKeys {names : List String} {v : Value} (h : (dropKeys names v).Shows c) : v.Shows c := by
  cases v with
  | map es => exact h.of_subset (List.filter_subset_self _)
  | scalar s => exact h
  | list items => exact h

theorem shows_of_trimEntry {e : Scalar × Value} (h : (trimEntry e).2.Shows c) : e.2.Shows c := by
  unfold trimEntry at h
  split_ifs at h
  · cases hv : e.2 with
    | map es =>
        rw [hv] at h
        obtain ⟨f, hf, hshows⟩ := Value.shows_map.mp h
        obtain ⟨g, hg, rfl⟩ := List.mem_map.mp hf
        exact Value.shows_map.mpr ⟨g, hg, hshows.imp_right shows_of_dropKeys⟩
    | scalar s => rwa [hv] at h
    | list items => rwa [hv] at h
  · exact shows_of_dropKeys h
  · exact h

theorem shows_of_trim {es : Entries} (h : (Value.map (trim es)).Shows c) : (Value.map es).Shows c := by
  obtain ⟨e, he, hshows⟩ := Value.shows_map.mp h
  obtain ⟨f, hf, rfl⟩ := List.mem_map.mp he
  rw [trimEntry_fst] at hshows
  exact Value.shows_map.mpr ⟨f, (List.mem_filter.mp hf).1, hshows.imp_right shows_of_trimEntry⟩

/-- Trimmed metadata has the metadata that the metadata has. -/
theorem metadataOf_trim (es : Entries) : metadataOf (.map (trim es)) = metadataOf (.map es) := by
  show (Entries.field? "metadata" (trim es)).bind _ = (Entries.field? "metadata" es).bind _
  rw [field?_trim (by decide) (by decide) (by decide)]

theorem metadataOf_eq_some_iff {es inner : Entries} :
    metadataOf (.map es) = some inner ↔ Entries.field? "metadata" es = some (.map inner) := by
  show (Entries.field? "metadata" es).bind Value.entries? = some inner ↔ _
  cases Entries.field? "metadata" es with
  | none => simp
  | some v => cases v <;> simp [Value.entries?]

/-- If trimmed metadata can be written, then so can be what is left of the metadata in it. -/
theorem isPlain_inner {es inner : Entries} (h : Json.IsPlain (trimmedText es))
    (hinner : metadataOf (.map (trim es)) = some inner) : Json.IsPlain (trimmedText inner) := by
  refine h.of_shows fun c hc => ?_
  have hmem := Entries.mem_of_field? (metadataOf_eq_some_iff.mp hinner)
  exact .value hmem (shows_of_trim hc)

end Shows

/-! ### The second run -/

section Again

variable {p : Path} {w w' : Workspace} {es : Entries} {t : Text}

/-- A trimmed artifact reads as the trimmed metadata. -/
theorem reads_of_trimmed (hprint : trimmedText es = Points.ofText t)
    (hbytes : w'.tree.readBytes w'.cwd p = .ok (Utf8.encode t)) (hback : Json.ReadsBack (.map (trim es))) :
    w'.Reads p (.map (trim es)) :=
  ⟨t, .of_print hprint hbytes, hback t hprint⟩

/-- It has the metadata that its metadata had. -/
theorem hasMetadata_of_reads {inner : Entries} (husable : p.Usable) (h : w'.Reads p (.map (trim es))) :
    w'.HasMetadata p inner ↔ Entries.field? "metadata" es = some (.map inner) := by
  rw [← metadataOf_eq_some_iff, ← metadataOf_trim]
  constructor
  · rintro ⟨-, v, hv, hinner⟩
    rwa [hv.unique h] at hinner
  · exact fun hinner => ⟨husable, _, h, hinner⟩

/-- And it has a fate. -/
theorem exists_fate_of_reads (husable : p.Usable) (h : w'.Reads p (.map (trim es)))
    (hplain : Json.IsPlain (trimmedText es)) : ∃ s r, Fate p w' s r := by
  cases hinner : metadataOf (.map (trim es)) with
  | none => exact ⟨_, _, .noMetadata husable h hinner⟩
  | some inner =>
      obtain ⟨u, hu⟩ := isPlain_inner hplain hinner
      exact ⟨_, _, .trimmed ⟨husable, _, h, hinner⟩ hu⟩

end Again

section Twice

variable {dir : Option Path} {contracts : List Points} {w w' : Workspace} {outcomes : List Outcome}

/-- After a run every artifact has a fate. -/
theorem TrimsAll.exists_fate (h : TrimsAll dir contracts w outcomes w') {o : Outcome} (ho : o ∈ outcomes)
    {r : Option Text} (hfate : Fate o.path w o.status r)
    (hreads : ∀ es, w.HasMetadata o.path es → w'.Reads o.path (.map (trim es))) :
    ∃ s r, Fate o.path w' s r := by
  cases hskipped : o.status.isSkipped with
  | true => exact ⟨_, _, hfate.of_readBytes_eq (h.skipped o ho hskipped)⟩
  | false =>
      obtain ⟨es, hes⟩ := (h.trimmed o ho).mp hskipped
      obtain ⟨t, hprint, -⟩ := h.written o ho es hes
      exact exists_fate_of_reads hes.1 (hreads es hes) ⟨t, hprint⟩

/-- After a run an artifact has metadata exactly if it had metadata that had metadata of its own. -/
theorem TrimsAll.hasMetadata_iff (h : TrimsAll dir contracts w outcomes w') {o : Outcome} (ho : o ∈ outcomes)
    (hreads : ∀ es, w.HasMetadata o.path es → w'.Reads o.path (.map (trim es))) :
    (∃ inner, w'.HasMetadata o.path inner) ↔
      ∃ es inner, w.HasMetadata o.path es ∧ Entries.field? "metadata" es = some (.map inner) := by
  constructor
  · rintro ⟨inner, hinner⟩
    cases hskipped : o.status.isSkipped with
    | true =>
        have hbefore := (h.trimmed o ho).mpr ⟨inner, hinner.of_readBytes_eq (h.skipped o ho hskipped).symm⟩
        cases hskipped.symm.trans hbefore
    | false =>
        obtain ⟨es, hes⟩ := (h.trimmed o ho).mp hskipped
        exact ⟨es, inner, hes, (hasMetadata_of_reads hes.1 (hreads es hes)).mp hinner⟩
  · rintro ⟨es, inner, hes, hinner⟩
    exact ⟨inner, (hasMetadata_of_reads hes.1 (hreads es hes)).mpr hinner⟩

/-- A second run comes to its end, over the same artifacts. -/
theorem Runs.again {base : Path} {w₁ : Workspace} (h : Runs base contracts.eraseDups w₁ outcomes w')
    (hsettled : contracts ≠ [] → Settled dir base w₁) (hplain : w₁.tree.Plain)
    (hnames : ∀ c ∈ contracts, .char '/' ∉ c) (hfates : ∀ o ∈ outcomes, ∃ s r, Fate o.path w' s r) :
    ∃ again w'', (trimAll dir contracts).runIn w' = (.ok again, w'') ∧ TrimsAll dir contracts w' again w'' ∧
      (again.map fun o => (o.contract, o.path)) = outcomes.map fun o => (o.contract, o.path) := by
  have hsettled' (hne : contracts ≠ []) : Settled dir base w' :=
    (hsettled hne).again hplain (Workspace.outside_eq_of_still h.still)
    (Workspace.knownRoot_eq_of_still h.still) h.files
  have hplain' : w'.tree.Plain := h.files.plain hplain
  have hall (c : Points) (hc : c ∈ contracts.eraseDups) : ∃ s r, Fate (artifactPath base c) w' s r := by
    rw [← h.contracts] at hc
    obtain ⟨o, ho, rfl⟩ := List.mem_map.mp hc
    rw [← h.located o ho]
    exact hfates o ho
  have hsettled'' (hne : contracts.eraseDups ≠ []) : Settled dir base w' :=
    hsettled' (by rintro rfl; exact hne rfl)
  obtain ⟨again, w'', hrun, hagain⟩ := runs_of_fates (nodup_eraseDups contracts)
    (fun c hc => hnames c (List.mem_eraseDups.mp hc)) hsettled'' hplain' hall
  exact ⟨again, w'', hrun, hagain.trimsAll hsettled' rfl hplain' hnames, hagain.places.trans h.places.symm⟩

/--
**Trimming a project twice.**

Where there are no links, a run that comes to its end has trimmed each artifact that has metadata, and
nothing else (`TrimsAll`).  If the texts it has written can be read back, each trimmed artifact now is its
own trimmed metadata.  A second run then comes to its end, and trims just the artifacts whose metadata had
metadata of its own.
-/
theorem trimAll_twice (hplain : w.tree.Plain) (hnames : ∀ c ∈ contracts, .char '/' ∉ c)
    (hback : ∀ c ∈ contracts, ∀ p w₁ es, (Project.buildArtifact c dir).runIn w = (.ok p, w₁) →
      w.HasMetadata p es → Json.ReadsBack (.map (trim es)))
    (h : (trimAll dir contracts).runIn w = (.ok outcomes, w')) :
    TrimsAll dir contracts w outcomes w' ∧
      (∀ o ∈ outcomes, ∀ es, w.HasMetadata o.path es → w'.Reads o.path (.map (trim es))) ∧
      ∃ again w'', (trimAll dir contracts).runIn w' = (.ok again, w'') ∧
        TrimsAll dir contracts w' again w'' ∧
        (again.map fun o => (o.contract, o.path)) = (outcomes.map fun o => (o.contract, o.path)) ∧
        ∀ o ∈ again, (o.status.isSkipped = false ↔
          ∃ es inner, w.HasMetadata o.path es ∧ Entries.field? "metadata" es = some (.map inner)) := by
  obtain ⟨base, w₁, hfound, hbare, hruns⟩ := runs_of_trimAll hplain hnames h
  have hall := hruns.trimsAll hfound hbare hplain hnames
  have hreads (o : Outcome) (ho : o ∈ outcomes) (es : Entries) (hes : w.HasMetadata o.path es) :
      w'.Reads o.path (.map (trim es)) := by
    obtain ⟨w₂, hpath⟩ := hall.located o ho
    obtain ⟨t, hprint, hbytes⟩ := hall.written o ho es hes
    have hcontract := (hall.named _).mp (List.mem_map_of_mem ho)
    exact reads_of_trimmed hprint hbytes (hback _ hcontract _ _ _ hpath hes)
  have hfates (o : Outcome) (ho : o ∈ outcomes) : ∃ s r, Fate o.path w' s r := by
    obtain ⟨r, hfate, -⟩ := hruns.fates o ho
    have hbytes : w.tree.readBytes w.cwd o.path = w₁.tree.readBytes w₁.cwd o.path := by
      rw [tree_eq_of_bare hbare, cwd_eq_of_bare hbare]
    exact hall.exists_fate ho (hfate.of_readBytes_eq hbytes) (hreads o ho)
  have hsettled (hne : contracts ≠ []) : Settled dir base w₁ := Project.settled_of_run (hfound hne)
  obtain ⟨again, w'', hrun, hagain, hplaces⟩ :=
    hruns.again hsettled (tree_eq_of_bare hbare ▸ hplain) hnames hfates
  refine ⟨hall, hreads, again, w'', hrun, hagain, hplaces, fun o ho => ?_⟩
  obtain ⟨o', ho', hsame⟩ := List.mem_map.mp (hplaces ▸ List.mem_map_of_mem ho)
  have hpath : o'.path = o.path := congrArg Prod.snd hsame
  rw [hagain.trimmed o ho, ← hpath]
  exact hall.hasMetadata_iff ho' (hreads o' ho')

end Twice

/-! ### A project with three contracts -/

/-- An artifact whose metadata has metadata. -/
def nestedArtifact : Text := "\x7b\"metadata\":\x7b\"version\":\"1\",\"metadata\":\x7b\x7d\x7d\x7d".toList

/-- What is left of it. -/
def trimmedArtifact : Text := "\x7b\n \"metadata\": \x7b\x7d\n\x7d".toList

/-- Its metadata. -/
def nestedMetadata : Entries := [(.text "version", .scalar (.text "1")), (.text "metadata", .map [])]

/-- The artifact of `F` has metadata that has metadata, the artifact of `G` has none, and `H`
has no artifact. -/
def threeContracts : Workspace :=
  { tree := .dir [("F.sol", .dir [("F.json", .file (Utf8.encode nestedArtifact))]),
      ("G.sol", .dir [("G.json", .file (Utf8.encode "[]".toList))])] }

/-- The path of an artifact at the top of the tree. -/
def topArtifact (contract : Points) : Path := artifactPath ⟨.top, []⟩ contract

theorem hasText_threeContracts {contract : Points} {t : Text} (hlines : t = Text.unifyLineEnds t)
    (hbytes : threeContracts.tree.readBytes threeContracts.cwd (topArtifact contract) = .ok (Utf8.encode t)) :
    threeContracts.HasText (topArtifact contract) t :=
  ⟨Utf8.encode t, t, hbytes, Utf8.decode_encode t, hlines⟩

theorem hasMetadata_threeContracts : threeContracts.HasMetadata (topArtifact "F") nestedMetadata :=
  ⟨by decide, _, ⟨nestedArtifact, hasText_threeContracts (by decide) rfl, by cbv⟩, rfl⟩

/-- Only `F` has metadata. -/
theorem eq_of_hasMetadata {contract : Points} (hcontract : contract ∈ (["F", "G", "F", "H"] : List Points))
    {es : Entries}
    (hes : threeContracts.HasMetadata (topArtifact contract) es) : contract = "F" ∧ es = nestedMetadata := by
  simp only [List.mem_cons, List.not_mem_nil, or_false] at hcontract
  rcases hcontract with rfl | rfl | rfl | rfl
  · exact ⟨rfl, hes.unique hasMetadata_threeContracts⟩
  · obtain ⟨-, v, hv, hmeta⟩ := hes
    have hlist : threeContracts.Reads (topArtifact "G") (.list []) :=
      ⟨"[]".toList, hasText_threeContracts (by decide) rfl, by cbv⟩
    cases hv.unique hlist
    cases hmeta
  · exact ⟨rfl, hes.unique hasMetadata_threeContracts⟩
  · obtain ⟨-, v, ⟨t, ⟨bytes, chars, hbytes, -⟩, -⟩, -⟩ := hes
    cases hbytes

theorem readsBack_nestedMetadata : Json.ReadsBack (.map (trim nestedMetadata)) := by
  intro t ht
  have hprint : Json.print (.indented 1) (.map (trim nestedMetadata)) = Points.ofText trimmedArtifact := by
    decide
  obtain rfl : t = trimmedArtifact := Points.ofText_injective (ht.symm.trans hprint)
  cbv

/-- `F` is trimmed once in each run, although it is named twice, and the others are passed over. -/
theorem trimAll_twice_threeContracts : ∃ w' again w'',
    (trimAll (some ⟨.top, []⟩) ["F", "G", "F", "H"]).runIn threeContracts =
        (.ok [⟨"F", topArtifact "F", .trimmed 19⟩, ⟨"G", topArtifact "G", .noMetadata⟩,
          ⟨"H", topArtifact "H", .missing⟩], w') ∧
      w'.Reads (topArtifact "F") (.map (trim nestedMetadata)) ∧
      (trimAll (some ⟨.top, []⟩) ["F", "G", "F", "H"]).runIn w' = (.ok again, w'') ∧
      again.map Outcome.contract = (["F", "G", "H"] : List Points) ∧
      ∀ o ∈ again, (o.status.isSkipped = false ↔ o.contract = ("F" : Points)) := by
  obtain ⟨w', hrun⟩ : ∃ w', (trimAll (some ⟨.top, []⟩) ["F", "G", "F", "H"]).runIn threeContracts =
      (.ok [⟨"F", topArtifact "F", .trimmed 19⟩, ⟨"G", topArtifact "G", .noMetadata⟩,
        ⟨"H", topArtifact "H", .missing⟩], w') := ⟨_, by cbv⟩
  have hplain : threeContracts.tree.Plain := (Node.sound_of_isSound (by decide)).plain
  have hback (c : Points) (hc : c ∈ (["F", "G", "F", "H"] : List Points)) (p : Path) (w₁ : Workspace)
    (es : Entries)
      (hpath : (Project.buildArtifact c (some ⟨.top, []⟩)).runIn threeContracts = (.ok p, w₁))
      (hes : threeContracts.HasMetadata p es) : Json.ReadsBack (.map (trim es)) := by
    obtain ⟨base, hbase, rfl⟩ := Project.buildArtifact_eq_ok_iff.mp hpath
    cases hbase
    obtain ⟨-, rfl⟩ := eq_of_hasMetadata hc hes
    exact readsBack_nestedMetadata
  obtain ⟨-, hreads, again, w'', hagain, -, hplaces, htrimmed⟩ := trimAll_twice hplain (by decide) hback hrun
  have hpairs : (again.map fun o => (o.contract, o.path)) =
      ([("F", topArtifact "F"), ("G", topArtifact "G"), ("H", topArtifact "H")] : List (Points × Path)) :=
    hplaces
  have hcontracts := congrArg (List.map Prod.fst) hpairs
  rw [List.map_map] at hcontracts
  have hF := hreads _ List.mem_cons_self _ hasMetadata_threeContracts
  refine ⟨w', again, w'', hrun, hF, hagain, hcontracts, fun o ho => ?_⟩
  have hplace : (o.contract, o.path) ∈
      ([("F", topArtifact "F"), ("G", topArtifact "G"), ("H", topArtifact "H")] : List (Points × Path)) :=
    hpairs ▸ List.mem_map_of_mem (f := fun o : Outcome => (o.contract, o.path)) ho
  have hpath : o.path = topArtifact o.contract ∧ o.contract ∈ (["F", "G", "F", "H"] : List Points) := by
    simp only [List.mem_cons, Prod.mk.injEq, List.not_mem_nil, or_false] at hplace
    rcases hplace with ⟨hc, hp⟩ | ⟨hc, hp⟩ | ⟨hc, hp⟩ <;> simp [hc, hp]
  rw [htrimmed o ho, hpath.1]
  constructor
  · rintro ⟨es, inner, hes, -⟩
    exact (eq_of_hasMetadata hpath.2 hes).1
  · intro hc
    rw [hc]
    exact ⟨_, [], hasMetadata_threeContracts, rfl⟩

end Metadata

end SolidityKit
