/-
The normal form of addresses.

An address is trimmed, completed by a scheme, taken apart and put together again.  What comes out is the text
of parts that are in normal form (`normalize_eq_ok_iff`), and such a text is taken apart into these very parts
(`Normal.split_text`).  Whether it is its own normal form is another matter: it is trimmed and completed once
more, so that it has to hold the mark of a scheme somewhere, and loses the blanks at its end
(`Normal.normalize_text`).

Two kinds of addresses have no proper normal form.  The mark of a scheme is looked for anywhere, but only
counts at the start, so that an address that begins with slashes and has the mark farther on is left without a
scheme.  And blanks in front of a fragment are at the end once the fragment is gone.
-/
import SolidityKit.Proofs.Rpc.UrlParts
import SolidityKit.Proofs.Text.Words

namespace SolidityKit.Url

/-! ### What is read -/

/-- The mark of a scheme. -/
def schemeMark : Points := ("://" : Points)

theorem schemeMark_eq : schemeMark = [.char ':', .char '/', .char '/'] := rfl

theorem slashes_eq : ("//" : Points) = [.char '/', .char '/'] := rfl

theorem trimmed_schemeMark : Text.Trimmed schemeMark := by
  rw [schemeMark_eq]
  have hcolon : isBlank (CodePoint.char ':') = false := by decide
  exact Text.Trimmed.of_ends hcolon (by decide) [.char '/']

/-- The address with a scheme in front, unless it has the mark of one. -/
def completed (t : Points) : Points := if Text.containsText schemeMark t then t else ("https://" : Points) ++ t

/-- What is left of an address once the characters that are passed over are gone. -/
def cleaned (t : Points) : Points := (t.dropWhile isIdle).filter isKept

theorem split_eq_ok_iff {t : Points} {u : Url} :
    split t = .ok u ↔ u = partsOf (cleaned t) ∧ checkHost u.host = .ok () := by
  have hsplit : split t = checkHost (partsOf (cleaned t)).host >>= fun _ => .ok (partsOf (cleaned t)) := rfl
  rw [hsplit, bind_eq_ok_iff]
  constructor
  · rintro ⟨_, hcheck, h⟩
    cases h
    exact ⟨rfl, hcheck⟩
  · rintro ⟨rfl, hcheck⟩
    exact ⟨(), hcheck, rfl⟩

theorem kept_of_mem_cleaned {t : Points} {c : CodePoint} (h : c ∈ cleaned t) : isKept c = true :=
  (List.mem_filter.mp h).2

/-- No part holds a character that is passed over. -/
def Kept (u : Url) : Prop := ∀ c ∈ u.host ++ (u.path ++ u.query ++ u.fragment), isKept c = true

variable {t : Points} {u : Url}

theorem Spells.kept (h : Spells t u) (ht : ∀ c ∈ t, isKept c = true) : u.Kept := by
  obtain ⟨front, query, fragment, rfl, -, hquery, hfragment⟩ := h.text
  intro c hc
  refine ht c ?_
  simp only [List.mem_append, List.mem_cons] at hc ⊢
  have hq := hquery.mem (c := c)
  have hf := hfragment.mem (c := c)
  tauto

theorem Front.kept {scheme front : Points} (h : Front scheme front) {c : CodePoint} (hc : c ∈ front) :
    isKept c = true := by
  cases h with
  | none => cases hc
  | some hs =>
      rcases List.mem_append.mp hc with hc | hc
      · exact (hs.ofScheme hc).kept
      · cases List.mem_singleton.mp hc
        rfl

theorem Tail.kept {mark : CodePoint} {part tail : Points} (h : Tail mark part tail) (hmark : isKept mark = true)
    (hpart : ∀ c ∈ part, isKept c = true) : ∀ c ∈ tail, isKept c = true := by
  cases h with
  | none => exact hpart
  | some part => exact List.forall_mem_cons.mpr ⟨hmark, hpart⟩

theorem Front.head {scheme front : Points} (h : Front scheme front) (rest : Points) :
    ∃ c more, front ++ .char '/' :: rest = c :: more ∧ isBlank c = false ∧ isIdle c = false := by
  cases h with
  | none => exact ⟨.char '/', rest, rfl, by decide, by decide⟩
  | @some s hs =>
      have hofScheme {c : CodePoint} (hc : c ∈ s) : OfScheme c := hs.ofScheme hc
      obtain ⟨c, more, rfl, -⟩ := hs
      have hc : OfScheme c := hofScheme List.mem_cons_self
      exact ⟨c, _, rfl, hc.notBlank, hc.notIdle⟩

/-- The text begins with a character that is neither trimmed nor passed over. -/
theorem Spells.head (h : Spells t u) : ∃ c more, t = c :: more ∧ isBlank c = false ∧ isIdle c = false := by
  obtain ⟨front, query, fragment, rfl, hfront, -⟩ := h.text
  exact hfront.head _

theorem Spells.cleaned_eq (h : Spells t u) (hkept : u.Kept) : cleaned t = t := by
  have hhead : t.dropWhile isIdle = t := by
    obtain ⟨c, rest, rfl, -, hc⟩ := h.head
    rw [List.dropWhile_cons, if_neg (by simp [hc])]
  have hall : ∀ c ∈ t, isKept c = true := by
    obtain ⟨front, query, fragment, rfl, hfront, hquery, hfragment⟩ := h.text
    simp only [Kept, List.forall_mem_append] at hkept
    obtain ⟨hhost, ⟨hpath, hq⟩, hf⟩ := hkept
    simp only [List.forall_mem_append, List.forall_mem_cons]
    exact ⟨fun c hc => hfront.kept hc, rfl, rfl, hhost, ⟨hpath, hquery.kept rfl hq⟩, hfragment.kept rfl hf⟩
  unfold cleaned
  rw [hhead, List.filter_eq_self.mpr hall]

/-- A text that spells parts without characters to pass over is taken apart into them. -/
theorem split_of_spells (h : Spells t u) (hkept : u.Kept) (hcheck : checkHost u.host = .ok ()) :
    split t = .ok u :=
  split_eq_ok_iff.mpr ⟨by rw [h.cleaned_eq hkept, partsOf_of_spells h], hcheck⟩

/-! ### Parts in normal form -/

/-- The parts that a text in normal form is made of. -/
structure Normal (u : Url) : Prop where
  /-- They are the parts of some text. -/
  spelled : ∃ t, Spells t u
  /-- None holds a character that is passed over. -/
  kept : u.Kept
  /-- There is a host. -/
  host : u.host ≠ []
  /-- The host is a proper one. -/
  checked : checkHost u.host = .ok ()
  /-- The path ends in a slash. -/
  path : u.path.getLast? = some (.char '/')
  /-- There is no fragment. -/
  fragment : u.fragment = []

/-- The path with a slash at its end. -/
def closedPath (path : Points) : Points :=
  if path.getLast? = some (.char '/') then path else path ++ [.char '/']

theorem getLast?_closedPath (path : Points) : (closedPath path).getLast? = some (.char '/') := by
  unfold closedPath
  split
  · next h => exact h
  · exact List.getLast?_concat

theorem mem_closedPath {path : Points} {c : CodePoint} (h : c ∈ closedPath path) :
    c ∈ path ∨ c = .char '/' := by
  unfold closedPath at h
  split at h
  · exact .inl h
  · simpa using h

theorem behindHost_closedPath {path : Points} (h : BehindHost path) : BehindHost (closedPath path) := by
  unfold closedPath
  split
  · exact h
  · exact h.append fun c hc => by cases hc; rfl

/-- The parts with a closed path and without the fragment. -/
def normal (u : Url) : Url := { u with path := closedPath u.path, fragment := [] }

theorem Spells.normal (h : Spells t u) (hkept : u.Kept) (hhost : u.host ≠ [])
    (hcheck : checkHost u.host = .ok ()) :
    Normal u.normal where
  spelled := by
    obtain ⟨front, query, -, -, hfront, hquery, -⟩ := h.text
    refine ⟨_, ⟨front, query, [], rfl, hfront, hquery, .none⟩, h.host, fun c hc => ?_,
      behindHost_closedPath h.rooted, h.query⟩
    rcases mem_closedPath hc with hc | rfl
    · exact h.path c hc
    · decide
  kept := by
    simp only [Kept, List.forall_mem_append] at hkept
    obtain ⟨hhost, ⟨hpath, hquery⟩, -⟩ := hkept
    simp only [Kept, List.forall_mem_append]
    refine ⟨hhost, ⟨fun c hc => ?_, hquery⟩, fun c hc => by cases hc⟩
    rcases mem_closedPath hc with hc | rfl
    · exact hpath c hc
    · rfl
  host := hhost
  checked := hcheck
  path := getLast?_closedPath u.path
  fragment := rfl

theorem Normal.normal_eq (h : Normal u) : u.normal = u := by
  have hpath : closedPath u.path = u.path := if_pos h.path
  unfold normal
  rw [hpath, ← h.fragment]

/-! ### Putting the parts together -/

/-- The scheme with its colon; there is none without a scheme. -/
def schemeText (scheme : Points) : Points := if scheme.isEmpty then [] else scheme ++ [.char ':']

/-- The query with its mark; there is none without a query. -/
def queryText (query : Points) : Points := if query.isEmpty then [] else .char '?' :: query

theorem front_schemeText {scheme front : Points} (h : Front scheme front) :
    Front scheme (schemeText scheme) := by
  cases h with
  | none => exact .none
  | @some s hs =>
      have hne : (s.map CodePoint.toLower).isEmpty = false := by
        obtain ⟨c, more, rfl, -⟩ := hs
        rfl
      have htext : schemeText (s.map CodePoint.toLower) = s.map CodePoint.toLower ++ [.char ':'] := by
        unfold schemeText
        rw [hne]
        rfl
      have hfront := Front.some hs.map_toLower
      rw [htext]
      rwa [hs.map_map_toLower] at hfront

theorem tail_queryText (query : Points) : Tail (.char '?') query (queryText query) := by
  cases query with
  | nil => exact .none
  | cons c query => exact .some (c :: query)

theorem Normal.text_eq (h : Normal u) :
    u.text = schemeText u.scheme ++ .char '/' :: .char '/' :: (u.host ++ (u.path ++ queryText u.query)) := by
  have hhost : u.host.isEmpty = false := by simpa using h.host
  have hpath : (u.host.isEmpty || u.path.isEmpty || u.path.head? == some (.char '/')) = true := by
    obtain ⟨_, hspells⟩ := h.spelled
    cases hp : u.path with
    | nil => simp
    | cons c path =>
        have hc : endsHost c = true := hspells.rooted c (by rw [hp]; rfl)
        have hmarks := hspells.path c (by rw [hp]; exact List.mem_cons_self)
        simp only [endsHost, Bool.or_eq_true, beq_iff_eq] at hc
        obtain rfl : c = .char '/' := by tauto
        simp
  unfold text schemeText queryText
  rw [hpath, hhost, h.fragment]
  simp

/-- A text is made of the parts in front and a query behind a mark or without one. -/
theorem Normal.spells (h : Normal u) {query tail : Points} (hquery : .char '#' ∉ query)
    (htail : Tail (.char '?') query tail) :
    Spells (schemeText u.scheme ++ .char '/' :: .char '/' :: (u.host ++ (u.path ++ tail)))
      { u with query } := by
  obtain ⟨_, hspells⟩ := h.spelled
  obtain ⟨_, _, _, _, hfront, -⟩ := hspells.text
  refine ⟨⟨schemeText u.scheme, tail, [], ?_, front_schemeText hfront, htail, ?_⟩, hspells.host, hspells.path,
    hspells.rooted, hquery⟩
  · simp
  · show Tail (.char '#') u.fragment []
    rw [h.fragment]
    exact .none

/-- **The text of parts in normal form spells them.** -/
theorem Normal.spells_text (h : Normal u) : Spells u.text u := by
  rw [h.text_eq]
  exact h.spells h.spelled.choose_spec.query (tail_queryText u.query)

/-- **The text of parts in normal form is taken apart into them.** -/
theorem Normal.split_text (h : Normal u) : split u.text = .ok u :=
  split_of_spells h.spells_text h.kept h.checked

/-! ### The normal form of an address -/

theorem normalize_eq (address : Points) :
    normalize address =
      if (Text.trim address).isEmpty then .error .empty
      else split (completed (Text.trim address)) >>= fun u =>
        if u.host.isEmpty then .error (.noHost address) else .ok u.normal.text := by
  unfold normalize
  cases hblank : (Text.trim address).isEmpty with
  | true =>
      simp only [hblank]
      rfl
  | false =>
      simp only [hblank]
      refine bind_congr fun u => ?_
      cases hhost : u.host.isEmpty <;> rfl

/-- **An address has a normal form just if it is not blank and, completed, is taken apart into parts
with a host.** -/
theorem normalize_eq_ok_iff {address : Points} :
    normalize address = .ok t ↔
      Text.trim address ≠ [] ∧
        ∃ u, split (completed (Text.trim address)) = .ok u ∧ u.host ≠ [] ∧ u.normal.text = t := by
  rw [normalize_eq]
  by_cases hblank : (Text.trim address).isEmpty = true
  · rw [if_pos hblank]
    simp [List.isEmpty_iff.mp hblank]
  · have hpick (u : Url) :
        ((if u.host.isEmpty then .error (.noHost address) else .ok u.normal.text) : Except Fault Points) =
          .ok t ↔ u.host ≠ [] ∧ u.normal.text = t := by
      cases u.host <;> simp
    rw [if_neg hblank, bind_eq_ok_iff]
    simp only [hpick]
    rw [List.isEmpty_iff] at hblank
    exact ⟨fun h => ⟨hblank, h⟩, And.right⟩

/-- The completed address spells the parts that the normal form is made of, and these are in normal form. -/
theorem spells_of_split {address : Points} (h : split address = .ok u) (hhost : u.host ≠ []) :
    Spells (cleaned address) u ∧ Normal u.normal := by
  obtain ⟨rfl, hcheck⟩ := split_eq_ok_iff.mp h
  have hspells := spells_partsOf hhost
  exact ⟨hspells, hspells.normal (hspells.kept fun c hc => kept_of_mem_cleaned hc) hhost hcheck⟩

/-! ### Normalizing again -/

/-- The parts with a query that does not end with blanks. -/
def shorn (u : Url) : Url := { u with query := Text.trimRight u.query }

theorem Normal.shorn (h : Normal u) : Normal u.shorn where
  spelled := by
    refine ⟨_, h.spells (fun hmem => h.spelled.choose_spec.query ?_) (tail_queryText _)⟩
    exact (Text.trimRight_prefix u.query).mem hmem
  kept := by
    have hkept := h.kept
    simp only [Kept, List.forall_mem_append] at hkept ⊢
    obtain ⟨hhost, ⟨hpath, hquery⟩, hfragment⟩ := hkept
    exact ⟨hhost, ⟨hpath, fun c hc => hquery c ((Text.trimRight_prefix u.query).mem hc)⟩, hfragment⟩
  host := h.host
  checked := h.checked
  path := h.path
  fragment := h.fragment

theorem Normal.text_injective {v : Url} (h : Normal u) (hv : Normal v) (heq : u.text = v.text) : u = v := by
  have hsplit := h.split_text
  rw [heq, hv.split_text] at hsplit
  exact (Except.ok.inj hsplit).symm

/-- What stands in front of the query ends in a slash. -/
theorem Normal.exists_front (h : Normal u) :
    ∃ front, ∀ tail, schemeText u.scheme ++ .char '/' :: .char '/' :: (u.host ++ (u.path ++ tail)) = front ++
      .char '/' :: tail := by
  obtain ⟨path, hpath⟩ := List.getLast?_eq_some_iff.mp h.path
  exact ⟨schemeText u.scheme ++ .char '/' :: .char '/' :: (u.host ++ path), fun tail => by simp [hpath]⟩

/-- Trimming the text trims its query; the mark of a query that is gone stays. -/
theorem Normal.trim_text (h : Normal u) :
    ∃ tail, Tail (.char '?') u.shorn.query tail ∧
      Text.trim u.text = schemeText u.scheme ++ .char '/' :: .char '/' :: (u.host ++ (u.path ++ tail)) := by
  obtain ⟨front, hfront⟩ := h.exists_front
  have htrim : Text.trim u.text = Text.trimRight u.text := by
    obtain ⟨c, more, htext, hc, -⟩ := h.spells_text.head
    rw [htext, Text.trim_cons hc]
  rw [htrim, h.text_eq]
  cases hquery : u.query with
  | nil =>
      refine ⟨[], ?_, ?_⟩
      · unfold Url.shorn
        rw [hquery]
        exact .none
      · show Text.trimRight (schemeText u.scheme ++ .char '/' :: .char '/' :: (u.host ++ (u.path ++ []))) = _
        rw [hfront, Text.trimRight_append_cons (by decide)]
        rfl
  | cons c query =>
      refine ⟨.char '?' :: u.shorn.query, .some _, ?_⟩
      show Text.trimRight (schemeText u.scheme ++ .char '/' :: .char '/' ::
        (u.host ++ (u.path ++ .char '?' :: c :: query))) = _
      rw [hfront, hfront, Text.trimRight_append_cons (by decide)]
      have hmark : Text.trimRight (.char '?' :: c :: query) = .char '?' :: Text.trimRight (c :: query) :=
        Text.trimRight_append_cons (by decide) [] (c :: query)
      unfold Url.shorn
      rw [hquery, hmark]

/-- The mark of a scheme stands in the text behind a scheme. -/
theorem Normal.schemeMark_infix (h : Normal u) (hscheme : u.scheme ≠ []) : schemeMark <:+: u.text := by
  refine ⟨u.scheme, u.host ++ (u.path ++ queryText u.query), ?_⟩
  rw [h.text_eq]
  cases hs : u.scheme with
  | nil => exact absurd hs hscheme
  | cons c scheme => simp [schemeText, schemeMark_eq]

/-- A text that begins with slashes has no host once a scheme is put in front. -/
theorem split_slashes (r : Points) : ∃ u, split (("https:////" : Points) ++ r) = .ok u ∧ u.host = [] := by
  have hcleaned : cleaned (("https:////" : Points) ++ r) = ("https:" : Points) ++ .char '/' :: .char '/' ::
    ([] ++ .char '/' :: .char '/' :: r.filter isKept) := rfl
  have hfront : Front "https" "https:" := .some ⟨.char 'h', "ttps", rfl, rfl, rfl⟩
  have hhost : (partsOf (cleaned (("https:////" : Points) ++ r))).host = [] := by
    rw [hcleaned]
    unfold partsOf
    rw [hfront.splitScheme_eq]
    dsimp only
    rw [splitHost_of_slashes (by simp) (fun c hc => by cases hc; rfl)]
  exact ⟨_, split_eq_ok_iff.mpr ⟨rfl, by rw [hhost]; rfl⟩, hhost⟩

/-- **A text in normal form is normalized to itself without the blanks at its end, if there is the mark of a
scheme in it, and is refused otherwise.** -/
theorem Normal.normalize_text (h : Normal u) :
    normalize u.text =
      if Text.containsText schemeMark u.text then .ok u.shorn.text else .error (.noHost u.text) := by
  obtain ⟨tail, htail, htrim⟩ := h.trim_text
  have hspells : Spells (Text.trim u.text) u.shorn := by
    rw [htrim]
    exact h.spells h.shorn.spelled.choose_spec.query htail
  obtain ⟨c, more, hcons, -⟩ := hspells.head
  have hmark : Text.containsText schemeMark (Text.trim u.text) = Text.containsText schemeMark u.text := by
    rw [Bool.eq_iff_iff, Text.containsText_iff, Text.containsText_iff]
    exact Text.infix_trim trimmed_schemeMark (by decide)
  by_cases hcontains : Text.containsText schemeMark u.text = true
  · rw [if_pos hcontains, normalize_eq_ok_iff]
    refine ⟨by simp [hcons], u.shorn, ?_, h.host, by rw [h.shorn.normal_eq]⟩
    unfold completed
    rw [hmark, if_pos hcontains]
    exact split_of_spells hspells h.shorn.kept h.checked
  · have hscheme : u.scheme = [] := by
      by_contra hne
      exact hcontains (Text.containsText_iff.mpr (h.schemeMark_infix hne))
    obtain ⟨v, hsplit, hv⟩ := split_slashes (u.host ++ (u.path ++ tail))
    have hcompleted : completed (Text.trim u.text) = ("https:////" : Points) ++
      (u.host ++ (u.path ++ tail)) := by
      unfold completed
      rw [hmark, if_neg hcontains, htrim, hscheme]
      rfl
    rw [if_neg hcontains, normalize_eq, hcompleted, hsplit, if_neg (by simp [hcons])]
    show (if v.host.isEmpty then _ else _) = _
    rw [hv]
    rfl

/-- The text ends with a blank just if the query does. -/
theorem Normal.noBlankEnd_text_iff (h : Normal u) : Text.NoBlankEnd u.text ↔ Text.NoBlankEnd u.query := by
  obtain ⟨front, hfront⟩ := h.exists_front
  unfold Text.NoBlankEnd
  rw [h.text_eq, hfront]
  cases hquery : u.query with
  | nil =>
      have hslash : isBlank (.char '/' : CodePoint) = false := by decide
      simp [queryText, hslash]
  | cons c query => simp [queryText, List.getLast?_append]

theorem Normal.normalize_text_eq_self_iff (h : Normal u) :
    normalize u.text = .ok u.text ↔ schemeMark <:+: u.text ∧ Text.NoBlankEnd u.text := by
  have hshorn : u.shorn.text = u.text ↔ Text.NoBlankEnd u.text := by
    rw [h.noBlankEnd_text_iff, ← Text.trimRight_eq_self_iff]
    constructor
    · intro heq
      exact congrArg Url.query (h.shorn.text_injective h heq)
    · intro heq
      unfold Url.shorn
      rw [heq]
  rw [h.normalize_text, ← hshorn, ← Text.containsText_iff]
  split
  · next hmark => simp [hmark]
  · next hmark => simp [hmark]

/-! ### Which addresses are normalized for good -/

/-- The address has the mark of a scheme in it, and begins with the slashes that stand in front of a host. -/
def PassesUnnamed (address : Points) : Prop :=
  schemeMark <:+: Text.trim address ∧ ("//" : Points) <+: cleaned (Text.trim address)

/-- Parts have no scheme just if their text begins with the slashes in front of the host. -/
theorem Spells.scheme_eq_nil_iff (h : Spells t u) : u.scheme = [] ↔ ("//" : Points) <+: t := by
  obtain ⟨front, query, fragment, rfl, hfront, -⟩ := h.text
  rw [slashes_eq]
  generalize u.scheme = scheme at hfront
  cases hfront with
  | none => simp
  | @some s hs =>
      have hofScheme {c : CodePoint} (hc : c ∈ s) : OfScheme c := hs.ofScheme hc
      obtain ⟨c, more, rfl, hc, -⟩ := hs
      constructor
      · intro h
        cases h
      · intro h
        obtain ⟨rfl, -⟩ := List.cons_prefix_cons.mp h
        cases hc

/-- The parts of a completed address have no scheme just if it passes for one that has. -/
theorem scheme_eq_nil_iff {address : Points} (h : Spells (cleaned (completed (Text.trim address))) u) :
    u.scheme = [] ↔ PassesUnnamed address := by
  rw [h.scheme_eq_nil_iff]
  unfold PassesUnnamed completed
  rw [← Text.containsText_iff]
  by_cases hmark : Text.containsText schemeMark (Text.trim address) = true
  · simp [hmark]
  · have hcleaned (t : Points) : cleaned (("https://" : Points) ++ t) = .char 'h' ::
      (("ttps://" : Points) ++ t.filter isKept) := rfl
    rw [if_neg hmark, hcleaned, slashes_eq]
    simp [hmark]

theorem isKept_of_notBlank {c : CodePoint} (h : isBlank c = false) : isKept c = true := by
  have hne {d : CodePoint} (hd : isBlank d = true) : (c != d) = true := by
    rw [bne_iff_ne]
    rintro rfl
    rw [hd] at h
    cases h
  simp only [isKept, hne (d := .char '\t') (by decide), hne (d := .char '\r') (by decide),
    hne (d := .char '\n') (by decide)]
  rfl

/-- Only blanks are passed over at the end of an address. -/
theorem noBlankEnd_cleaned (h : Text.NoBlankEnd t) : Text.NoBlankEnd (cleaned t) := by
  cases t using List.reverseRecOn with
  | nil => exact h
  | append_singleton t c =>
      have hc : isBlank c = false := h c List.getLast?_concat
      have hkept : isKept c = true := isKept_of_notBlank hc
      have hlast (d : Points) : Text.NoBlankEnd ((d ++ [c]).filter isKept) := by
        intro e he
        rw [List.filter_append, List.filter_cons_of_pos hkept, List.filter_nil, List.getLast?_concat] at he
        cases he
        exact hc
      unfold cleaned
      rw [List.dropWhile_append]
      split
      · -- all in front of it is passed over, and it may be as well
        rw [List.dropWhile_cons]
        split
        · intro e he
          cases he
        · exact hlast []
      · exact hlast _

theorem noBlankEnd_completed (h : Text.NoBlankEnd t) : Text.NoBlankEnd (completed t) := by
  have hscheme : Text.NoBlankEnd ("https://" : Points) := by
    intro c hc
    cases hc
    decide
  unfold completed
  split
  · exact h
  · exact hscheme.append h

theorem notMem_cleaned {c : CodePoint} (h : c ∉ t) : c ∉ cleaned t := fun hmem =>
  h ((List.dropWhile_sublist isIdle).mem (List.mem_filter.mp hmem).1)

theorem number_notMem_completed (h : .char '#' ∉ t) : .char '#' ∉ completed t := by
  unfold completed
  split
  · exact h
  · rw [List.mem_append, not_or]
    exact ⟨by decide, h⟩

/-- Without a fragment to drop, a query ends as the address does. -/
theorem noBlankEnd_query {address : Points} (h : Spells (cleaned (completed (Text.trim address))) u)
    (hnumber : .char '#' ∉ address) : Text.NoBlankEnd u.query := by
  have hend : Text.NoBlankEnd (cleaned (completed (Text.trim address))) :=
    noBlankEnd_cleaned (noBlankEnd_completed (Text.trimmed_trim address).last)
  have hnone : .char '#' ∉ cleaned (completed (Text.trim address)) := by
    obtain ⟨a, b, haddress, -, -⟩ := Text.trim_split address
    refine notMem_cleaned (number_notMem_completed fun hmem => hnumber ?_)
    rw [haddress]
    exact List.mem_append_left _ (List.mem_append_right _ hmem)
  obtain ⟨front, query, fragment, htext, -, hquery, hfragment⟩ := h.text
  rw [htext] at hend hnone
  generalize u.query = part at hquery
  generalize u.fragment = rest at hfragment
  cases hfragment with
  | some => simp at hnone
  | none =>
      cases hquery with
      | none =>
          intro c hc
          cases hc
      | some =>
          refine Text.NoBlankEnd.of_append (a := front ++ .char '/' :: .char '/' ::
            (u.host ++ (u.path ++ [.char '?']))) ?_
          simpa using hend

/-- An address in normal form: its parts are a scheme, a host, a path that ends in a slash and maybe a query,
and it is not changed by normalizing it. -/
structure IsNormal (t : Points) : Prop where
  /-- It has the parts that it must have. -/
  parts : ∃ u, split t = .ok u ∧ u.scheme ≠ [] ∧ u.host ≠ [] ∧ u.path.getLast? = some (.char '/') ∧
    u.fragment = []
  /-- It is not changed. -/
  again : normalize t = .ok t

/-- **What comes of normalizing an address.**  If there is a normal form, it has a host, a path that ends in a
slash and no fragment; it is without a scheme just if the address passes for one that has a scheme and begins
with slashes.  Normalizing it once more drops the blanks at its end, or refuses it, if the mark of a scheme is
nowhere in it.  So it is a proper normal form just if there is a scheme and no blank is at its end, and a blank
is at its end only if there was a fragment behind it. -/
theorem normalize_normal {address t : Points} (h : normalize address = .ok t) :
    ∃ u, split t = .ok u ∧ u.host ≠ [] ∧ u.path.getLast? = some (.char '/') ∧ u.fragment = [] ∧
      (u.scheme = [] ↔ PassesUnnamed address) ∧
      normalize t = (if Text.containsText schemeMark t then .ok u.shorn.text else .error (.noHost t)) ∧
      (IsNormal t ↔ ¬ PassesUnnamed address ∧ Text.NoBlankEnd t) ∧
      (.char '#' ∉ address → Text.NoBlankEnd t) := by
  obtain ⟨-, u, hsplit, hhost, rfl⟩ := normalize_eq_ok_iff.mp h
  obtain ⟨hspells, hnormal⟩ := spells_of_split hsplit hhost
  have hscheme : u.normal.scheme = [] ↔ PassesUnnamed address := (scheme_eq_nil_iff hspells : u.scheme = [] ↔ _)
  have hquery (hnumber : .char '#' ∉ address) : Text.NoBlankEnd u.normal.query :=
    (noBlankEnd_query hspells hnumber : Text.NoBlankEnd u.query)
  refine ⟨u.normal, hnormal.split_text, hhost, hnormal.path, hnormal.fragment, hscheme,
    hnormal.normalize_text, ?_, ?_⟩
  · rw [← hscheme]
    constructor
    · rintro ⟨⟨v, hv, hv', -⟩, hagain⟩
      rw [hnormal.split_text] at hv
      cases hv
      exact ⟨hv', (hnormal.normalize_text_eq_self_iff.mp hagain).2⟩
    · rintro ⟨hne, hend⟩
      exact ⟨⟨u.normal, hnormal.split_text, hne, hhost, hnormal.path, hnormal.fragment⟩,
        hnormal.normalize_text_eq_self_iff.mpr ⟨hnormal.schemeMark_infix hne, hend⟩⟩
  · intro hnumber
    exact hnormal.noBlankEnd_text_iff.mpr (hquery hnumber)

/-- The theorem where an address of host, path and query is given. -/
theorem normalize_normal_plain :
    normalize "rpc.example.org/v1?key=a b" = .ok ("https://rpc.example.org/v1/?key=a b" : Points) ∧
      IsNormal "https://rpc.example.org/v1/?key=a b" := by
  have h : normalize "rpc.example.org/v1?key=a b" = .ok ("https://rpc.example.org/v1/?key=a b" : Points) := by
    decide
  obtain ⟨u, -, -, -, -, -, -, hiff, hend⟩ := normalize_normal h
  have hnamed : ¬ PassesUnnamed "rpc.example.org/v1?key=a b" := fun hpasses =>
    Text.absent_of_containsText (by decide) hpasses.1
  exact ⟨h, hiff.mpr ⟨hnamed, hend (by decide)⟩⟩

/-- The first normal form has no scheme, though the address holds the mark of one, and the second is not
normalized to itself. -/
theorem normalize_not_normal :
    (normalize "//host/x://" = .ok ("//host/x://" : Points) ∧ ¬ IsNormal "//host/x://") ∧
      normalize "h?a #x" = .ok ("https://h/?a " : Points) ∧
      normalize "https://h/?a " = .ok ("https://h/?a" : Points) := by
  refine ⟨⟨by decide, ?_⟩, by decide, by decide⟩
  rintro ⟨⟨u, hsplit, hscheme, -⟩, -⟩
  have hu : split "//host/x://" = .ok ⟨[], "host", "/x://", [], []⟩ := by decide
  rw [hu] at hsplit
  cases hsplit
  exact hscheme rfl

end SolidityKit.Url
