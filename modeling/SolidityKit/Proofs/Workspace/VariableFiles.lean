/-
Variables from a file.

A variable file is a list of lines, some of which give a value to a name (`Assigns`).  Of several lines for one
name the first counts (`Gives`), and a variable that is set keeps its value.  One line does at most one of
three things (`step_cases`): nothing, because the variable is set; setting it; or ending the run, because no
variable can have that name or value.  A run over all lines is made of these steps (`run_cases`): it sets what
the lines in front of the first one of the third kind give.
-/
import SolidityKit.Workspace.VariableFile
import SolidityKit.Proofs.Text.Lines
import SolidityKit.Proofs.Workspace.Locations

namespace SolidityKit.VariableFile

open Files SolidityKit.Action

/-! ### Lines -/

/-- The characters that are dropped around a value. -/
def isQuote (c : Char) : Bool := c == '"' || c == '\''

/-- The line gives the value to the name: it is no comment, its first equals sign stands behind the name, and
the value behind it is without blanks around it and then without quotes. -/
structure Assigns (line : Text) (name : String) (value : Points) : Prop where
  /-- The name and the value are what stands around the first equals sign. -/
  cut : ∃ before after, Text.trim line = before ++ '=' :: after ∧ '=' ∉ before ∧
    name = String.ofList (Text.trim before) ∧ value = .ofText (Text.stripWhile isQuote (Text.trim after))
  /-- It is no comment. -/
  noComment : (Text.trim line).head? ≠ some '#'

/-- The name and the value on a line, as a variable has them. -/
def assignment? (line : Text) : Option (String × Points) :=
  (binding? line).map fun b => (String.ofList b.1, .ofText b.2)

theorem bindings_eq (t : Text) : bindings t = (Text.breakLines t).filterMap assignment? := List.map_filterMap

theorem assignment?_eq_some_iff {line : Text} {name : String} {value : Points} :
    assignment? line = some (name, value) ↔ Assigns line name value := by
  unfold assignment? binding?
  dsimp only
  split
  · next h =>
      constructor
      · intro hsome
        cases hsome
      · exact fun hassigns => absurd h hassigns.noComment
  · next h =>
      constructor
      · intro hsome
        rcases Text.cut?_cases '=' (Text.trim line) with ⟨hcut, -⟩ | ⟨before, after, hcut, htrim, hbefore⟩
        · rw [hcut] at hsome
          cases hsome
        · rw [hcut] at hsome
          cases hsome
          exact ⟨⟨before, after, htrim, hbefore, rfl, rfl⟩, h⟩
      · rintro ⟨⟨before, after, htrim, hbefore, rfl, rfl⟩, -⟩
        rw [htrim, Text.cut?_append hbefore]
        rfl

/-- Of the lines that give a value to the name, the first gives this one. -/
def Gives (ls : List Text) (name : String) (value : Points) : Prop :=
  ∃ front line back, ls = front ++ line :: back ∧ Assigns line name value ∧ ∀ l ∈ front, ∀ v, ¬ Assigns l name v

/-- Every assignment among those of some lines is that of a line. -/
theorem exists_line {ls : List Text} {front back : List (String × Points)} {name : String} {value : Points}
    (h : ls.filterMap assignment? = front ++ (name, value) :: back) :
    ∃ before line after, ls = before ++ line :: after ∧ before.filterMap assignment? = front ∧
      Assigns line name value := by
  obtain ⟨ls₁, ls₂, rfl, hfront, hrest⟩ := List.filterMap_eq_append_iff.mp h
  obtain ⟨skipped, line, after, rfl, hskipped, hline, -⟩ := List.filterMap_eq_cons_iff.mp hrest
  have hnothing : skipped.filterMap assignment? = [] := List.filterMap_eq_nil_iff.mpr hskipped
  refine ⟨ls₁ ++ skipped, line, after, by simp, ?_, assignment?_eq_some_iff.mp hline⟩
  rw [List.filterMap_append, hfront, hnothing, List.append_nil]

theorem lookup_assignments_eq_some_iff {ls : List Text} {name : String} {value : Points} :
    (ls.filterMap assignment?).lookup name = some value ↔ Gives ls name value := by
  rw [List.lookup_eq_some_iff]
  constructor
  · rintro ⟨front, back, hsplit, hnone⟩
    obtain ⟨before, line, after, rfl, hfront, hline⟩ := exists_line hsplit
    refine ⟨before, line, after, rfl, hline, fun l hl v hv => ?_⟩
    have hmem : (name, v) ∈ front := hfront ▸ List.mem_filterMap.mpr ⟨l, hl, assignment?_eq_some_iff.mpr hv⟩
    simpa using hnone _ hmem
  · rintro ⟨front, line, back, rfl, hline, hfirst⟩
    refine ⟨front.filterMap assignment?, back.filterMap assignment?, ?_, fun b hb => ?_⟩
    · rw [List.filterMap_append, List.filterMap_cons_some (assignment?_eq_some_iff.mpr hline)]
    · obtain ⟨l, hl, hsome⟩ := List.mem_filterMap.mp hb
      rw [bne_iff_ne]
      rintro rfl
      exact hfirst l hl b.2 (assignment?_eq_some_iff.mp hsome)

/-! ### Setting variables -/

/-- A variable can have that name and that value. -/
structure Settable (name : String) (value : Points) : Prop where
  /-- The name is not empty. -/
  named : name ≠ ""
  /-- The system takes it. -/
  name : Points.Usable name
  /-- It takes the value too. -/
  value : value.Usable

instance (name : String) (value : Points) : Decidable (Settable name value) :=
  decidable_of_iff (name ≠ "" ∧ Points.Usable name ∧ value.Usable)
    ⟨fun ⟨h₁, h₂, h₃⟩ => ⟨h₁, h₂, h₃⟩, fun ⟨h₁, h₂, h₃⟩ => ⟨h₁, h₂, h₃⟩⟩

/-- The failure of setting a variable that no variable can be. -/
def refusal (name : String) (value : Points) : Failure :=
  if ¬ value.Usable then value.refusal else if ¬ Points.Usable name then Points.refusal name else .badVariable

/-- The second workspace is the first one with what is given, as far as that was not set. -/
structure Added (given : List (String × Points)) (w w' : Workspace) : Prop where
  /-- Nothing but variables is added. -/
  same : w' = { w with environment := w'.environment }
  /-- What is set stays, and otherwise the first value counts. -/
  lookup : ∀ name, w'.environment.lookup name = (w.environment.lookup name).or (given.lookup name)

theorem Added.refl (w : Workspace) : Added [] w w := ⟨rfl, fun _ => by simp⟩

theorem Added.trans {as bs : List (String × Points)} {w w₁ w₂ : Workspace} (h : Added as w w₁)
    (h' : Added bs w₁ w₂) :
    Added (as ++ bs) w w₂ := by
  refine ⟨?_, fun name => ?_⟩
  · rw [h'.same, h.same]
  · rw [h'.lookup, h.lookup, List.lookup_append, Option.or_assoc]

theorem runIn_setIfUnset_of_some {name : String} {value old : Points} {w : Workspace}
    (h : w.environment.lookup name = some old) :
    (setIfUnset name value).runIn w = (.ok (), w) := by
  have hvalue : (valueOf? name).runIn w = (.ok (some old), w) := by rw [← h]; rfl
  unfold setIfUnset
  rw [runIn_bind_ok hvalue]
  rfl

theorem runIn_setIfUnset_of_none {name : String} {value : Points} {w : Workspace}
    (h : w.environment.lookup name = none) (hsettable : Settable name value) :
    (setIfUnset name value).runIn w = (.ok (), { w with environment := w.environment ++ [(name, value)] }) := by
  have hvalue : (valueOf? name).runIn w = (.ok none, w) := by rw [← h]; rfl
  unfold setIfUnset
  rw [runIn_bind_ok hvalue]
  simp only [Option.isNone_none, if_true]
  rw [runIn_bind_ok (runIn_checkUsable_of_usable hsettable.value w),
    runIn_bind_ok (runIn_checkUsable_of_usable hsettable.name w)]
  simp only [if_neg hsettable.named]
  rfl

theorem runIn_setIfUnset_refused {name : String} {value : Points} {w : Workspace}
    (h : w.environment.lookup name = none) (hnot : ¬ Settable name value) :
    (setIfUnset name value).runIn w = (.error (refusal name value), w) := by
  have hvalue : (valueOf? name).runIn w = (.ok none, w) := by rw [← h]; rfl
  unfold setIfUnset refusal
  rw [runIn_bind_ok hvalue]
  simp only [Option.isNone_none, if_true]
  by_cases husable : value.Usable
  · rw [runIn_bind_ok (runIn_checkUsable_of_usable husable w), if_neg (not_not_intro husable)]
    by_cases hname : Points.Usable name
    · have hnamed : name = "" := by
        by_contra hne
        exact hnot ⟨hne, hname, husable⟩
      rw [runIn_bind_ok (runIn_checkUsable_of_usable hname w), if_neg (not_not_intro hname)]
      simp only [if_pos hnamed]
      rfl
    · rw [if_pos hname]
      exact runIn_bind_error (runIn_checkUsable_of_unusable hname w)
  · rw [if_pos husable]
    exact runIn_bind_error (runIn_checkUsable_of_unusable husable w)

/-- **One variable** was set before, or is set, or cannot be. -/
theorem step_cases (name : String) (value : Points) (w : Workspace) :
    (∃ w', (setIfUnset name value).runIn w = (.ok (), w') ∧ Added [(name, value)] w w' ∧
        (w.environment.lookup name = none → Settable name value)) ∨
      (setIfUnset name value).runIn w = (.error (refusal name value), w) ∧ w.environment.lookup name = none ∧
        ¬ Settable name value := by
  cases hset : w.environment.lookup name with
  | some old =>
      refine .inl ⟨w, runIn_setIfUnset_of_some hset, ⟨rfl, fun other => ?_⟩, fun h => by cases h⟩
      rw [List.lookup_cons]
      by_cases hother : other = name
      · rw [hother, hset]
        rfl
      · rw [beq_false_of_ne hother]
        simp
  | none =>
      by_cases hsettable : Settable name value
      · refine .inl ⟨_, runIn_setIfUnset_of_none hset hsettable, ⟨rfl, fun other => ?_⟩, fun _ => hsettable⟩
        exact List.lookup_append
      · exact .inr ⟨runIn_setIfUnset_refused hset hsettable, rfl, hsettable⟩

/-- Sets the variables that are not set, one after the other. -/
def setAll (given : List (String × Points)) : Action Unit := given.forM fun b => setIfUnset b.1 b.2

theorem setAll_cons (name : String) (value : Points) (more : List (String × Points)) :
    setAll ((name, value) :: more) = setIfUnset name value >>= fun _ => setAll more := rfl

/-- **A run over names and values** sets what is not set, up to the first name or value that no
variable can have. -/
theorem run_cases (given : List (String × Points)) (w : Workspace) :
    (∃ w', (setAll given).runIn w = (.ok (), w') ∧ Added given w w' ∧
        ∀ name value, given.lookup name = some value → w.environment.lookup name = none → Settable name value) ∨
      ∃ front name value back w', given = front ++ (name, value) :: back ∧
        (setAll given).runIn w = (.error (refusal name value), w') ∧ Added front w w' ∧
        w'.environment.lookup name = none ∧ ¬ Settable name value := by
  induction given generalizing w with
  | nil => exact .inl ⟨w, rfl, .refl w, fun name value h => by cases h⟩
  | cons b more ih =>
      obtain ⟨name, value⟩ := b
      rw [setAll_cons]
      rcases step_cases name value w with ⟨w₁, hstep, hadded, hsettable⟩ | ⟨hstep, hunset, hnot⟩
      · rw [runIn_bind_ok hstep]
        rcases ih w₁ with ⟨w', hrun, hmore, hall⟩ | ⟨front, other, v, back, w', rfl, hrun, hfront, hunset, hnot⟩
        · refine .inl ⟨w', hrun, hadded.trans hmore, fun other v hother hunset => ?_⟩
          rw [List.lookup_cons] at hother
          by_cases hsame : other = name
          · rw [hsame, beq_self_eq_true] at hother
            cases hother
            rw [hsame] at hunset ⊢
            exact hsettable hunset
          · have hfalse : (other == name) = false := beq_false_of_ne hsame
            rw [hfalse] at hother
            refine hall other v hother ?_
            rw [hadded.lookup, hunset, List.lookup_cons, hfalse]
            rfl
        · exact .inr ⟨(name, value) :: front, other, v, back, w', rfl, hrun, hadded.trans hfront, hunset, hnot⟩
      · exact .inr ⟨[], name, value, more, w, rfl, runIn_bind_error hstep, .refl w, hunset, hnot⟩

/-! ### Loading a file -/

/-- The lines of a variable file. -/
def linesOf (t : Text) : List Text := Text.breakLines (Text.unifyLineEnds t)

/-- What is set by the lines: of the names that were not set, those that some line gives a value to. -/
def Sets (ls : List Text) (w w' : Workspace) : Prop :=
  ∀ name, w.environment.lookup name = none → ∀ value, w'.environment.lookup name = some value ↔
    Gives ls name value

theorem Added.sets {ls : List Text} {w w' : Workspace} (h : Added (ls.filterMap assignment?) w w') :
    Sets ls w w' := by
  intro name hunset value
  rw [h.lookup, hunset, Option.none_or]
  exact lookup_assignments_eq_some_iff

theorem Added.keeps {given : List (String × Points)} {w w' : Workspace} (h : Added given w w') {name : String}
    {value : Points}
    (hset : w.environment.lookup name = some value) : w'.environment.lookup name = some value := by
  rw [h.lookup, hset]
  rfl

/-- A file that can be read is loaded line by line, if its bytes are a text. -/
theorem runIn_load {p : Path} {w : Workspace} {bytes : ByteArray}
    (hbytes : (look p Node.readBytes).runIn w = (.ok bytes, w)) :
    (load p).runIn w =
      match Utf8.decode bytes with
      | .error f => (.error (.decoding f), w)
      | .ok t => (setAll ((linesOf t).filterMap assignment?)).runIn w := by
  obtain ⟨husable, hcontent⟩ := readBytes_of_look hbytes
  have hread : (readText p).runIn w =
      (((Utf8.decode bytes).mapError Failure.decoding).map Text.unifyLineEnds, w) := by
    rw [runIn_readText husable, hcontent]
    rfl
  have hread : (readIfUsable p).runIn w =
      (((Utf8.decode bytes).mapError Failure.decoding).map fun t => some (Text.unifyLineEnds t), w) := by
    unfold readIfUsable
    rw [map_eq_pure_bind, runIn_tryCatch, runIn_bind, hread]
    cases Utf8.decode bytes <;> rfl
  unfold load
  rw [runIn_bind_ok (runIn_pathExists_of_bytes hbytes), if_pos rfl, runIn_bind, hread]
  cases Utf8.decode bytes with
  | error f => rfl
  | ok t =>
      show runIn ((bindings (Text.unifyLineEnds t)).forM fun b => setIfUnset b.1 b.2) w = _
      rw [bindings_eq]
      rfl

/-- Whether or not there is such a file, nothing but variables is added. -/
theorem added_load (p : Path) (w : Workspace) : ∃ given, Added given w ((load p).runIn w).2 := by
  have hall (given : List (String × Points)) : ∃ front, Added front w ((setAll given).runIn w).2 := by
    rcases run_cases given w with ⟨w', hrun, hadded, -⟩ | ⟨front, _, _, _, w', -, hrun, hadded, -⟩
    · exact ⟨given, by rwa [hrun]⟩
    · exact ⟨front, by rwa [hrun]⟩
  have hreads : Keeps id (readIfUsable p) := by
    refine Keeps.tryCatch ?_ fun f => ?_
    · rw [map_eq_pure_bind]
      exact (keeps_readText p).bind fun _ => Keeps.pure _
    · split
      · exact Keeps.pure _
      · exact Keeps.throw _
  unfold load
  rw [runIn_bind, runIn_of_reads (keeps_pathExists p)]
  cases ((pathExists p).runIn w).1 with
  | error f => exact ⟨[], .refl w⟩
  | ok there =>
      cases there with
      | false => exact ⟨[], .refl w⟩
      | true =>
          dsimp only
          rw [if_pos rfl, runIn_bind, runIn_of_reads hreads]
          cases ((readIfUsable p).runIn w).1 with
          | error f => exact ⟨[], .refl w⟩
          | ok text =>
              cases text with
              | none => exact ⟨[], .refl w⟩
              | some t => exact hall (bindings t)

/-- **What loading a variable file does.**  It changes nothing but variables, and none that is set.  It comes
to a result just if the bytes are a text and the lines give no name or value that no variable can have to a
name that is not set; then every other name that lines give a value to has the value that the first of them
gives.  If the bytes are a text and there is no result, then the lines in front of the first that gives such a
name or value have been followed. -/
theorem load_exact {p : Path} {w w' : Workspace} {bytes : ByteArray} {r : Except Failure Unit}
    (hbytes : (look p Node.readBytes).runIn w = (.ok bytes, w)) (hrun : (load p).runIn w = (r, w')) :
    { w' with environment := w.environment } = w ∧
      (∀ name value, w.environment.lookup name = some value → w'.environment.lookup name = some value) ∧
      (r = .ok () ↔ ∃ t, Utf8.decode bytes = .ok t ∧
        ∀ name value, Gives (linesOf t) name value → w.environment.lookup name = none → Settable name value) ∧
      ∀ t, Utf8.decode bytes = .ok t →
        r = .ok () ∧ Sets (linesOf t) w w' ∨
          ∃ front line back name value, linesOf t = front ++ line :: back ∧ Sets front w w' ∧
            Assigns line name value ∧ w'.environment.lookup name = none ∧ ¬ Settable name value ∧
            r = .error (refusal name value) := by
  rw [runIn_load hbytes] at hrun
  cases hdecode : Utf8.decode bytes with
  | error f =>
      rw [hdecode] at hrun
      cases hrun
      refine ⟨rfl, fun _ _ h => h, ⟨(by cases ·), ?_⟩, fun t h => by cases h⟩
      rintro ⟨t, h, -⟩
      cases h
  | ok t =>
      rw [hdecode] at hrun
      rcases run_cases ((linesOf t).filterMap assignment?) w with
        ⟨v, hall, hadded, hsettable⟩ | ⟨front, name, value, back, v, hsplit, hall, hadded, hunset, hnot⟩
      · cases hall.symm.trans hrun
        refine ⟨by rw [hadded.same], fun _ _ => hadded.keeps, ?_, fun t' h => ?_⟩
        · refine iff_of_true rfl ⟨t, rfl, fun name value hgives => ?_⟩
          exact hsettable name value (lookup_assignments_eq_some_iff.mpr hgives)
        · cases h
          exact .inl ⟨rfl, hadded.sets⟩
      · cases hall.symm.trans hrun
        obtain ⟨before, line, after, hlines, rfl, hline⟩ := exists_line hsplit
        refine ⟨by rw [hadded.same], fun _ _ => hadded.keeps, ⟨(by cases ·), ?_⟩, fun t' h => ?_⟩
        · rintro ⟨t', h, hsettable⟩
          cases h
          -- it is the first line that gives a value to that name
          have hboth := hadded.lookup name
          rw [hunset, eq_comm, Option.or_eq_none_iff] at hboth
          refine absurd (hsettable name value (lookup_assignments_eq_some_iff.mp ?_) hboth.1) hnot
          rw [hsplit, List.lookup_append, hboth.2, Option.none_or, List.lookup_cons_self]
        · cases h
          exact .inr ⟨before, line, after, name, value, hlines, hadded.sets, hline, hunset, hnot, rfl⟩

/-- The path of a variable file. -/
def samplePath : Path := ⟨.top, [".env"]⟩

/-- A workspace with a variable file at the top. -/
def sampleWorkspace (bytes : ByteArray) : Workspace :=
  { tree := .dir [(".env", .file bytes)], environment := [("B", "0")] }

theorem look_sampleWorkspace (bytes : ByteArray) :
    (look samplePath Node.readBytes).runIn (sampleWorkspace bytes) = (.ok bytes, sampleWorkspace bytes) :=
  look_readBytes (by decide) rfl

/-- A text that gives values to two names, to one of them twice. -/
def sampleText : Text := "# keys\n\nA = '1'\nB=2\nA=3\n".toList

/-- The theorem where one of the two names is set. -/
theorem load_exact_sample :
    ((load samplePath).runIn (sampleWorkspace (Utf8.encode sampleText))).1 = .ok () ∧
      ((load samplePath).runIn (sampleWorkspace (Utf8.encode sampleText))).2.environment.lookup "A" =
        some ("1" : Points) ∧
      ((load samplePath).runIn (sampleWorkspace (Utf8.encode sampleText))).2.environment.lookup "B" =
        some ("0" : Points) := by
  let given : List (String × Points) := [("A", "1"), ("B", "2"), ("A", "3")]
  have hgiven : (linesOf sampleText).filterMap assignment? = given := by decide
  obtain ⟨-, hkept, hok, hsets⟩ := load_exact (look_sampleWorkspace (Utf8.encode sampleText)) (Prod.eta _).symm
  have hresult := hok.mpr ⟨sampleText, Utf8.decode_encode _, fun name value hgives _ => ?_⟩
  · rcases hsets sampleText (Utf8.decode_encode _) with ⟨-, hset⟩ | ⟨_, _, _, _, _, _, _, _, _, _, hfailed⟩
    · refine ⟨hresult, (hset "A" rfl "1").mpr (lookup_assignments_eq_some_iff.mp ?_), hkept "B" "0" rfl⟩
      rw [hgiven]
      rfl
    · cases hresult.symm.trans hfailed
  · have hsettable : ∀ b ∈ given, Settable b.1 b.2 := by decide
    rw [← lookup_assignments_eq_some_iff, hgiven, List.lookup_eq_some_iff] at hgives
    obtain ⟨front, back, hsplit, -⟩ := hgives
    exact hsettable (name, value) (hsplit ▸ List.mem_append_right _ List.mem_cons_self)

/-- Bytes that are no text end the run, and so does an empty name, before the lines behind it are followed. -/
theorem load_not_soft :
    (∃ f, ((load samplePath).runIn (sampleWorkspace ⟨#[0xff]⟩)).1 = .error f) ∧
      (load samplePath).runIn (sampleWorkspace (Utf8.encode "A=1\n=x\nC=2".toList)) =
        (.error .badVariable,
          { sampleWorkspace (Utf8.encode "A=1\n=x\nC=2".toList) with environment :=
          [("B", "0"), ("A", "1")] }) := by
  constructor
  · have hdecode : Utf8.decode ⟨#[0xff]⟩ = .error (.badStart 0 0xff) := by decide +kernel
    rw [runIn_load (look_sampleWorkspace _), hdecode]
    exact ⟨_, rfl⟩
  · have hgiven : (linesOf "A=1\n=x\nC=2".toList).filterMap assignment? =
        ([("A", "1"), ("", "x"), ("C", "2")] : List (String × Points)) := by
      decide
    rw [runIn_load (look_sampleWorkspace _), Utf8.decode_encode]
    dsimp only
    have hrefusal : refusal "" "x" = .badVariable := rfl
    rw [hgiven, setAll_cons, runIn_bind_ok (runIn_setIfUnset_of_none rfl (by decide)), setAll_cons,
      runIn_bind_error (runIn_setIfUnset_refused rfl (by decide)), hrefusal]
    rfl

end SolidityKit.VariableFile
