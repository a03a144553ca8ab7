/-
What comes of a job, as a function of the tree that it finds.

In a sound tree it can be told beforehand whether an artifact can be written, and if not, why:
`writeFault`.  What a source reads as depends on its bytes.  So what comes of a job depends on nothing but
what its own paths lead to, and a job of short names gives the same in two trees that differ beside its paths
only (`run_beside`).  A job with a name that is too long fails in both, though perhaps at another path.
-/
import SolidityKit.Proofs.Flatten.Jobs
import SolidityKit.Proofs.Files.Frames

namespace SolidityKit

open Files SolidityKit.Action

/-! ### Paths that a job can use -/

theorem Path.Direct.above {p q : Path} (h : p.Direct) (hroot : q.root = p.root) (hnames : q.names <+: p.names) :
    q.Direct where
  absolute := by
    have habs := h.absolute
    unfold Path.isAbsolute at habs ⊢
    rwa [hroot]
  steps name hname := h.steps name (hnames.subset hname)

theorem Path.Direct.parent {p : Path} (h : p.Direct) : p.parent.Direct := by
  have habove : p.parent.names <+: p.names := List.dropLast_prefix p.names
  exact h.above rfl habove

theorem Path.Usable.above {p q : Path} (h : p.Usable) (hnames : q.names <+: p.names) : q.Usable := by
  rw [Path.usable_iff] at h ⊢
  exact fun name hname => h name (hnames.subset hname)

/-- The names of a path are not too long. -/
def Path.Short (p : Path) : Prop := ∀ name ∈ p.names, Node.IsShort name

instance (p : Path) : Decidable p.Short := inferInstanceAs (Decidable (∀ name ∈ p.names, Node.IsShort name))

theorem Path.Short.parent {p : Path} (h : p.Short) : p.parent.Short :=
  fun name hname => h name (List.dropLast_subset _ hname)

/-! ### Making directories in sound trees -/

/-- What making directories reaches. -/
theorem sound_of_steps {p : Path} {cwd : Place} {before after : Node} (hp : p.Direct) (husable : p.Usable)
    (hsound : before.Sound) (h : Relation.ReflTransGen (MakesDir cwd p) before after) {o : Place}
    (ho : p.names <+: o) : after.Sound ∧ Node.Beside [o] before after := by
  induction h with
  | refl => exact ⟨hsound, .refl _ _⟩
  | tail _ hstep ih =>
      obtain ⟨hsound', hbeside⟩ := ih
      obtain ⟨q, hroot, hnames, hmake⟩ := hstep
      obtain ⟨hsound'', hbeside'⟩ := Node.sound_makeDir hsound' (hp.above hroot hnames) (husable.above hnames)
        hmake (hnames.trans ho)
      exact ⟨hsound'', hbeside.trans hbeside'⟩

/-- A directory that has been made is there, in a sound tree that differs on the way to it only. -/
theorem Action.Made.reached {p : Path} {w : Workspace} {tree : Node} (hp : p.Direct) (husable : p.Usable)
    (hsound : w.tree.Sound) (h : Made p w (.ok (), { w with tree })) :
    tree.Sound ∧ w.tree.Beside [p.names] tree ∧ tree.isDirAt p.names = true := by
  obtain ⟨hsound', hbeside⟩ := sound_of_steps hp husable hsound h.steps List.prefix_rfl
  obtain ⟨place, es, hleads⟩ := h.there rfl
  obtain ⟨-, hes⟩ := (Node.leadsTo_iff hsound'.plain hp).mp hleads
  exact ⟨hsound', hbeside, Node.isDirAt_iff.mpr ⟨es, hes⟩⟩

/-- Why a directory cannot be made, with those above it. -/
def dirFault (tree : Node) (p : Path) : Option Files.Fault :=
  if (tree.at? p.names).isSome && !tree.isDirAt p.names then some ⟨.alreadyExists, p.spelling⟩
  else if tree.isBlocked p.names then some ⟨.notDirectory, p.spelling⟩
  else none

/-- What comes of making a directory with those above it. -/
def dirOutcome (tree : Node) (p : Path) : Except Failure Unit :=
  match dirFault tree p with
  | some f => .error (.file f)
  | none => .ok ()

theorem dirFault_of_isDirAt {tree : Node} {p : Path} (h : tree.isDirAt p.names = true) :
    dirFault tree p = none := by
  have hblocked : tree.isBlocked p.names = false := by
    rw [Bool.eq_false_iff]
    intro hblocked
    obtain ⟨es, hes⟩ := Node.isDirAt_iff.mp h
    cases (Node.at?_of_isBlocked hblocked).symm.trans hes
  unfold dirFault
  rw [h, hblocked]
  simp

section MakeDirs

variable {p : Path} {w : Workspace}

/-- A directory is not made where something is already. -/
theorem runIn_unlessDir_of_some (hp : p.Direct) (husable : p.Usable) (hplain : w.tree.Plain)
    (h : (w.tree.at? p.names).isSome = true) :
    ((unlessDir p .alreadyExists).runIn w).1 = dirOutcome w.tree p := by
  obtain ⟨n, hn⟩ := Option.isSome_iff_exists.mp h
  have hget : w.tree.get w.cwd p = .ok n :=
    Node.get_eq_ok_iff.mpr ⟨p.names, (Node.leadsTo_iff hplain hp).mpr ⟨rfl, hn⟩⟩
  rw [runIn_unlessDir husable, hget]
  unfold dirOutcome
  cases n with
  | dir es => rw [dirFault_of_isDirAt (Node.isDirAt_iff.mpr ⟨es, hn⟩)]
  | file c =>
      have hdir : w.tree.isDirAt p.names = false := by
        unfold Node.isDirAt
        rw [hn]
      unfold dirFault
      rw [hn, hdir]
      rfl
  | link target => exact absurd hn (hplain _ target)

/-- A directory is not made where a file is in the way. -/
theorem runIn_unlessDir_of_isBlocked (hp : p.Direct) (hshort : p.Short) (husable : p.Usable)
    (hplain : w.tree.Plain) (hblocked : w.tree.isBlocked p.names = true) :
    ((unlessDir p .notDirectory).runIn w).1 = dirOutcome w.tree p := by
  have hat := Node.at?_of_isBlocked hblocked
  rw [runIn_unlessDir husable, Node.get_eq hplain hp hshort, hat, hblocked]
  unfold dirOutcome dirFault
  rw [hat, hblocked]
  rfl

theorem names_eq_concat {tree : Node} (hat : tree.at? p.names = none) :
    ∃ last, p.names = p.parent.names ++ [last] := by
  rcases List.eq_nil_or_concat p.names with h | ⟨d, last, h⟩
  · rw [h] at hat
    cases hat
  · refine ⟨last, ?_⟩
    show p.names = p.names.dropLast ++ [last]
    rw [h, List.concat_eq_append, List.dropLast_concat]

theorem runIn_makeDir_of_parent (hp : p.Direct) (hshort : p.Short) (husable : p.Usable) (hplain : w.tree.Plain)
    (hat : w.tree.at? p.names = none) (hparent : w.tree.isDirAt p.parent.names = true) :
    ((makeDir p).runIn w).1 = .ok () := by
  have hblocked : w.tree.isBlocked p.names = false := by
    obtain ⟨last, hnames⟩ := names_eq_concat hat
    obtain ⟨es, hes⟩ := Node.isDirAt_iff.mp hparent
    rw [hnames, Node.at?_entry hes] at hat
    rw [hnames]
    exact (Node.stop_of_lookup_none hes hat []).2
  unfold makeDir
  rw [runIn_bind, runIn_tryMakeDir husable, Node.makeDir_eq hplain hp hshort, hat, hblocked, hparent]
  rfl

/-- Where nothing is in the way of a directory, nothing is in the way of the one above it. -/
theorem dirFault_parent {tree : Node} (hplain : tree.Plain) {last : Name}
    (hnames : p.names = p.parent.names ++ [last]) (hblocked : ¬ tree.isBlocked p.names = true) :
    dirFault tree p.parent = none := by
  rw [Node.isBlocked_iff] at hblocked
  have hfile (c : ByteArray) : tree.at? p.parent.names ≠ some (.file c) :=
    fun hc => hblocked ⟨p.parent.names, last, [], c, hnames, hc⟩
  have hparent : tree.isBlocked p.parent.names = false := by
    rw [Bool.eq_false_iff]
    intro h
    obtain ⟨q, name, rest, c, hq, hc⟩ := Node.isBlocked_iff.mp h
    exact hblocked ⟨q, name, rest ++ [last], c, by rw [hnames, hq, List.append_assoc, List.cons_append], hc⟩
  unfold dirFault Node.isDirAt
  rw [hparent]
  cases hat : tree.at? p.parent.names with
  | none => rfl
  | some n =>
      cases n with
      | dir es => rfl
      | file c => exact absurd hat (hfile c)
      | link target => exact absurd hat (hplain _ target)

/-- Once the directory above has been made, one is made where there was nothing. -/
theorem runIn_andThen_makeDir (hp : p.Direct) (hshort : p.Short) (husable : p.Usable) (hsound : w.tree.Sound)
    (hnone : w.tree.at? p.names = none) {above : Action Unit} (hmade : Made p.parent w (above.runIn w))
    (hok : (above.runIn w).1 = .ok ()) : ((do above; makeDir p).runIn w).1 = .ok () := by
  have hsame := hmade.same
  rcases hrun : above.runIn w with ⟨r, w₁⟩
  rw [hrun] at hmade hsame hok
  obtain ⟨mid, rfl⟩ : ∃ mid, w₁ = { w with tree := mid } := ⟨_, hsame⟩
  obtain rfl : r = .ok () := hok
  obtain ⟨hsound', hbeside, hparent⟩ := hmade.reached hp.parent husable.parent hsound
  rw [runIn_bind_ok hrun]
  refine runIn_makeDir_of_parent hp hshort husable hsound'.plain ?_ hparent
  -- the path is no prefix of the one above it, so there is still nothing
  refine (hbeside.at?_eq_none_iff fun o ho hpre => ?_).mpr hnone
  obtain ⟨last, hnames⟩ := names_eq_concat hnone
  rw [List.mem_singleton.mp ho] at hpre
  have hle := hpre.length_le
  have hlength := congrArg List.length hnames
  rw [List.length_append, List.length_singleton] at hlength
  omega

theorem runIn_makeDirsUpTo (hp : p.Direct) (hshort : p.Short) (husable : p.Usable) (hsound : w.tree.Sound)
    {missing : Nat} (hmissing : p.names.length ≤ missing) :
    ((makeDirsUpTo missing p).runIn w).1 = dirOutcome w.tree p := by
  have hplain := hsound.plain
  induction missing generalizing p with
  | zero =>
      have htop : (w.tree.at? p.names).isSome = true := by
        rw [List.length_eq_zero_iff.mp (Nat.le_zero.mp hmissing)]
        rfl
      unfold makeDirsUpTo
      rw [runIn_bind, runIn_tryMakeDir husable, Node.makeDir_eq hplain hp hshort, if_pos htop]
      exact runIn_unlessDir_of_some hp husable hplain htop
  | succ missing ih =>
      unfold makeDirsUpTo
      rw [runIn_bind, runIn_tryMakeDir husable, Node.makeDir_eq hplain hp hshort]
      by_cases hat : (w.tree.at? p.names).isSome = true
      · rw [if_pos hat]
        exact runIn_unlessDir_of_some hp husable hplain hat
      by_cases hblocked : w.tree.isBlocked p.names = true
      · rw [if_neg hat, if_pos hblocked]
        exact runIn_unlessDir_of_isBlocked hp hshort husable hplain hblocked
      have hnone : w.tree.at? p.names = none := by simpa using hat
      have hfine : dirOutcome w.tree p = .ok () := by
        unfold dirOutcome dirFault
        rw [hnone, if_neg hblocked]
        rfl
      rw [if_neg hat, if_neg hblocked, hfine]
      by_cases hparent : w.tree.isDirAt p.parent.names = true
      · rw [if_pos hparent]
        rfl
      rw [if_neg hparent]
      -- the directory above is made first, where nothing is in its way
      obtain ⟨last, hnames⟩ := names_eq_concat hnone
      have hlength : p.names.length = p.parent.names.length + 1 := by
        rw [hnames]
        simp
      have habove : dirOutcome w.tree p.parent = .ok () := by
        unfold dirOutcome
        rw [dirFault_parent hplain hnames hblocked]
      have hup := ih hp.parent hshort.parent husable.parent (by omega)
      exact runIn_andThen_makeDir hp hshort husable hsound hnone (made_makeDirsUpTo missing husable.parent w)
        (hup.trans habove)

/-- What comes of making a directory with those above it is known beforehand. -/
theorem runIn_makeDirs (hp : p.Direct) (hshort : p.Short) (husable : p.Usable) (hsound : w.tree.Sound) :
    ((makeDirs p).runIn w).1 = dirOutcome w.tree p :=
  runIn_makeDirsUpTo hp hshort husable hsound (le_refl _)

end MakeDirs

/-! ### Writing artifacts in sound trees -/

namespace Flatten

/-- Why an artifact cannot be written. -/
def writeFault (tree : Node) (output : Path) : Option Files.Fault :=
  match dirFault tree output.parent with
  | some f => some f
  | none => if tree.isDirAt output.names then some ⟨.isDirectory, output.spelling⟩ else none

/-- What comes of writing an artifact. -/
def writeOutcome (tree : Node) (output : Path) : Except Failure Unit :=
  match writeFault tree output with
  | some f => .error (.job (.unwritable output.spelling f))
  | none => .ok ()

/-- Making the directory of an artifact does not make one in its place. -/
theorem isDirAt_output {p : Path} {before after : Node} (hbeside : before.Beside [p.parent.names] after)
    (hparent : after.isDirAt p.parent.names = true) (hfault : dirFault before p.parent = none) :
    after.isDirAt p.names = before.isDirAt p.names := by
  by_cases htop : p.names = []
  · have hsame : p.parent.names = p.names := by
      show p.names.dropLast = p.names
      rw [htop]
      rfl
    rw [hsame] at hparent
    have hbefore : before.isDirAt p.names = true := by
      unfold dirFault at hfault
      rw [hsame, htop] at hfault
      rw [htop]
      cases hdir : before.isDirAt [] with
      | true => rfl
      | false =>
          rw [hdir] at hfault
          cases hfault
    rw [hparent, hbefore]
  · refine hbeside.isDirAt_eq fun o ho hpre => ?_
    rw [List.mem_singleton.mp ho] at hpre
    have hlength : p.parent.names.length < p.names.length := by
      show p.names.dropLast.length < _
      rw [List.length_dropLast]
      have := List.length_pos_iff.mpr htop
      omega
    have hle := hpre.length_le
    omega

/-- What comes of writing a text into a directory that is there. -/
theorem runIn_writeText_of_parent {p : Path} (hp : p.Direct) (hshort : p.Short) (husable : p.Usable)
    {w : Workspace} (hplain : w.tree.Plain) (hparent : w.tree.isDirAt p.parent.names = true) (text : Text) :
    ((writeText p text).runIn w).1 =
      if w.tree.isDirAt p.names then .error (fileFailure p .isDirectory) else .ok () := by
  have hempty : w.tree.writeBytes w.cwd p ByteArray.empty = _ :=
    Node.writeBytes_eq hplain hp hshort hparent ByteArray.empty
  have hwrote := wrote_writePoints husable (fun target => hplain _ target) (Points.ofText text)
  rw [show writeText p text = writePoints p (Points.ofText text) from rfl]
  generalize (writePoints p (Points.ofText text)).runIn w = out at hwrote
  by_cases hdir : w.tree.isDirAt p.names = true
  · rw [if_pos hdir] at hempty ⊢
    cases hwrote with
    | refused hfile =>
        cases hempty.symm.trans hfile
        rfl
    | emptied hnone _ _ => cases (encodePoints_ofText text).symm.trans hnone
    | written _ hfirst _ _ _ => cases hempty.symm.trans hfirst
  · rw [if_neg hdir] at hempty ⊢
    cases hwrote with
    | refused hfile => cases hempty.symm.trans hfile
    | emptied hnone _ _ => cases (encodePoints_ofText text).symm.trans hnone
    | written _ _ _ _ _ => rfl

theorem runIn_write {a : Artifact} (hp : a.output.Direct) (hshort : a.output.Short) (husable : a.output.Usable)
    {w : Workspace} (hsound : w.tree.Sound) : ((write a).runIn w).1 = writeOutcome w.tree a.output := by
  have hmade := made_makeDirs husable.parent w
  have hsame := hmade.same
  have hdirs := runIn_makeDirs hp.parent hshort.parent husable.parent hsound
  unfold write writeOutcome writeFault
  rw [runIn_tryCatch, runIn_bind]
  rcases hrun : (makeDirs a.output.parent).runIn w with ⟨r, w₁⟩
  rw [hrun] at hmade hsame hdirs
  obtain ⟨mid, rfl⟩ : ∃ mid, w₁ = { w with tree := mid } := ⟨_, hsame⟩
  unfold dirOutcome at hdirs
  cases hfault : dirFault w.tree a.output.parent with
  | some f =>
      rw [hfault] at hdirs
      obtain rfl : r = .error (.file f) := hdirs
      rfl
  | none =>
      rw [hfault] at hdirs
      obtain rfl : r = .ok () := hdirs
      obtain ⟨hsound', hbeside, hparent⟩ := hmade.reached hp.parent husable.parent hsound
      have hwrite := runIn_writeText_of_parent (w := { w with tree := mid }) hp hshort husable hsound'.plain
        hparent a.text
      rw [isDirAt_output hbeside hparent hfault] at hwrite
      dsimp only
      rcases hout : (writeText a.output a.text).runIn { w with tree := mid } with ⟨r, w₂⟩
      rw [hout] at hwrite
      obtain rfl : r = _ := hwrite
      cases w.tree.isDirAt a.output.names <;> rfl

/-! ### What a job reaches -/

/-- What writing an artifact, or the job that it is written by, leaves behind. -/
structure Reaches {α : Type} (output : Path) (w : Workspace) (out : Except Failure α × Workspace) : Prop where
  /-- Nothing outside the files has changed. -/
  outside : out.2.outside = w.outside
  /-- The tree is sound again. -/
  sound : out.2.tree.Sound
  /-- Only the output has been written. -/
  beside : w.tree.Beside [output.names] out.2.tree
  /-- A failure is one that a job can have, and then no file has changed. -/
  failed : ∀ f, out.1 = .error f → (∃ g, f = .job g) ∧ Node.Grows (fun _ => False) w.tree out.2.tree

theorem written_reaches {a : Artifact} (hp : a.output.Direct) (husable : a.output.Usable) {w : Workspace}
    (hsound : w.tree.Sound) {out : Except Failure Unit × Workspace} (h : Written a w out) :
    Reaches a.output w out ∧
    (out.1 = .ok () → out.2.tree.at? a.output.names = some (.file (Utf8.encode a.text))) := by
  have hsteps {mid : Node} (h : Relation.ReflTransGen (MakesDir w.cwd a.output.parent) w.tree mid) :
      mid.Sound ∧ w.tree.Beside [a.output.names] mid := by
    have habove : a.output.parent.names <+: a.output.names := List.dropLast_prefix a.output.names
    exact sound_of_steps hp.parent husable.parent hsound h habove
  cases h with
  | noDirectory h =>
      obtain ⟨hsound', hbeside⟩ := hsteps h
      refine ⟨⟨rfl, hsound', hbeside, fun f hf => ?_⟩, fun hok => by cases hok⟩
      cases hf
      exact ⟨⟨_, rfl⟩, grows_of_steps h⟩
  | refused h _ =>
      obtain ⟨hsound', hbeside⟩ := hsteps h
      refine ⟨⟨rfl, hsound', hbeside, fun f hf => ?_⟩, fun hok => by cases hok⟩
      cases hf
      exact ⟨⟨_, rfl⟩, grows_of_steps h⟩
  | done h _ hfirst hlast _ _ =>
      obtain ⟨hsound', hbeside⟩ := hsteps h
      obtain ⟨hsound₁, hbeside₁, -⟩ := Node.sound_writeBytes hsound' hp husable hfirst
      obtain ⟨hsound₂, hbeside₂, hat⟩ := Node.sound_writeBytes hsound₁ hp husable hlast
      exact ⟨⟨rfl, hsound₂, hbeside.trans (hbeside₁.trans hbeside₂), fun f hf => by cases hf⟩, fun _ => hat⟩

/-- The paths of a job can be used. -/
structure Job.Usable (j : Job) : Prop where
  /-- They go down from the top. -/
  direct : ∀ p ∈ j.output :: j.files, p.Direct
  /-- The system takes them. -/
  usable : ∀ p ∈ j.output :: j.files, p.Usable

theorem readSource_failed {p : Path} (husable : p.Usable) {w w' : Workspace} {f : Failure}
    (h : (readSource p).runIn w = (.error f, w')) : ∃ g, f = .job g := by
  rw [runIn_readSource, runIn_readText husable] at h
  obtain ⟨hfst, -⟩ := Prod.mk.injEq .. ▸ h
  cases hbytes : w.tree.readBytes w.cwd p with
  | error c =>
      rw [hbytes] at hfst
      cases hfst
      exact ⟨_, rfl⟩
  | ok bytes =>
      rw [hbytes] at hfst
      cases hchars : Utf8.decode bytes with
      | error e =>
          simp only [hchars, Except.mapError, Except.bind, Except.map] at hfst
          cases hfst
          exact ⟨_, rfl⟩
      | ok chars =>
          simp only [hchars, Except.mapError, Except.bind, Except.map] at hfst
          cases hfst

theorem hasText_of_readSources {ps : List Path} {w w' : Workspace} {texts : List Text}
    (h : (ps.mapM readSource).runIn w = (.ok texts, w')) : List.Forall₂ w.HasText ps texts := by
  induction ps generalizing texts with
  | nil =>
      cases h
      exact .nil
  | cons p rest ih =>
      rw [List.mapM_cons] at h
      obtain ⟨t, ht, hrest⟩ := (runIn_bind_eq_ok_iff (keeps_readSource p)).mp h
      obtain ⟨ts, hts, hpure⟩ := (runIn_bind_eq_ok_iff (keeps_readSources rest)).mp hrest
      cases hpure
      exact .cons (hasText_of_readSource ht).2 (ih hts)

theorem exists_of_forall₂ {α β : Type} {r : α → β → Prop} {as : List α} {bs : List β}
    (h : List.Forall₂ r as bs) {a : α} (ha : a ∈ as) : ∃ b, b ∈ bs ∧ r a b := by
  induction h with
  | nil => cases ha
  | cons hr _ ih =>
      rcases List.mem_cons.mp ha with rfl | ha
      · exact ⟨_, List.mem_cons_self, hr⟩
      · obtain ⟨b, hb, hrb⟩ := ih ha
        exact ⟨b, List.mem_cons_of_mem _ hb, hrb⟩

theorem readSources_failed {ps : List Path} (husable : ∀ p ∈ ps, p.Usable) {w w' : Workspace} {f : Failure}
    (h : (ps.mapM readSource).runIn w = (.error f, w')) : ∃ g, f = .job g := by
  induction ps generalizing w with
  | nil => cases h
  | cons p rest ih =>
      rw [List.mapM_cons] at h
      rcases runIn_bind_eq_error h with hfail | ⟨t, w₁, -, hrest⟩
      · exact readSource_failed (husable p List.mem_cons_self) hfail
      · rcases runIn_bind_eq_error hrest with hfail | ⟨ts, w₂, -, hpure⟩
        · exact ih (fun q hq => husable q (List.mem_cons_of_mem p hq)) hfail
        · cases hpure

/-- What sources read as depends on their bytes. -/
theorem readSources_congr {ps : List Path} (husable : ∀ p ∈ ps, p.Usable) {w v : Workspace}
    (hsame : ∀ p ∈ ps, v.tree.readBytes v.cwd p = w.tree.readBytes w.cwd p) :
    ((ps.mapM readSource).runIn v).1 = ((ps.mapM readSource).runIn w).1 := by
  induction ps with
  | nil => rfl
  | cons p rest ih =>
      have hp : ((readSource p).runIn v).1 = ((readSource p).runIn w).1 := by
        have husable' := husable p List.mem_cons_self
        rw [runIn_readSource, runIn_readSource, runIn_readText husable', runIn_readText husable',
          hsame p List.mem_cons_self]
      have hrest := ih (fun q hq => husable q (List.mem_cons_of_mem p hq)) fun q hq =>
        hsame q (List.mem_cons_of_mem p hq)
      rw [List.mapM_cons, runIn_bind, runIn_bind, runIn_of_reads (keeps_readSource p) v,
        runIn_of_reads (keeps_readSource p) w, hp]
      cases ((readSource p).runIn w).1 with
      | error f => rfl
      | ok t =>
          dsimp only
          rw [runIn_bind, runIn_bind, runIn_of_reads (keeps_readSources rest) v,
            runIn_of_reads (keeps_readSources rest) w, hrest]
          cases ((rest.mapM readSource).runIn w).1 <;> rfl

/-- What a job reaches, and what it has made of its sources if it came to a result. -/
theorem run_reaches {j : Job} (hj : j.Usable) {w : Workspace} (hsound : w.tree.Sound) :
    Reaches j.output w (j.run.runIn w) ∧
      ∀ a, (j.run.runIn w).1 = .ok a → a.output = j.output ∧
        (∃ texts, List.Forall₂ w.HasText j.files texts ∧ a.text = (Source.merge texts {}).1) ∧
        (j.run.runIn w).2.tree.at? j.output.names = some (.file (Utf8.encode a.text)) := by
  have hout := hj.direct _ List.mem_cons_self
  have husable := hj.usable _ List.mem_cons_self
  have hran := ran_run j w
  generalize j.run.runIn w = out at hran ⊢
  cases hran with
  | unread hread =>
      refine ⟨⟨rfl, hsound, .refl _ _, fun f hf => ?_⟩, fun a ha => by cases ha⟩
      cases hf
      exact ⟨readSources_failed (fun p hp => hj.usable p (List.mem_cons_of_mem _ hp)) hread, .refl _ _⟩
  | @unwritten texts f w' hread hwrite =>
      have hwritten := written_write (a := j.merged texts) husable fun target => hsound.plain _ target
      rw [hwrite] at hwritten
      obtain ⟨hreaches, -⟩ := written_reaches (a := j.merged texts) hout husable hsound hwritten
      refine ⟨⟨hreaches.outside, hreaches.sound, hreaches.beside, fun f hf => ?_⟩, fun a ha => by cases ha⟩
      cases hf
      exact hreaches.failed _ rfl
  | @done texts w' told hread hwrite =>
      have hwritten := written_write (a := j.merged texts) husable fun target => hsound.plain _ target
      rw [hwrite] at hwritten
      obtain ⟨hreaches, hat⟩ := written_reaches (a := j.merged texts) hout husable hsound hwritten
      refine ⟨⟨hreaches.outside, hreaches.sound, hreaches.beside, fun f hf => by cases hf⟩, fun a ha => ?_⟩
      cases ha
      exact ⟨rfl, ⟨texts, hasText_of_readSources hread, rfl⟩, hat rfl⟩

/-! ### What comes of a job -/

/-- What comes of a job depends on what its sources read as and on what stands in the way of its output. -/
theorem run_fst {j : Job} (hj : j.Usable) (hshort : j.output.Short) {w : Workspace} (hsound : w.tree.Sound) :
    (j.run.runIn w).1 =
      ((j.files.mapM readSource).runIn w).1.bind fun texts =>
        (writeOutcome w.tree j.output).map fun _ => j.merged texts := by
  have hwrite (texts : List Text) := runIn_write (a := j.merged texts) (hj.direct _ List.mem_cons_self) hshort
    (hj.usable _ List.mem_cons_self) hsound
  have hran := ran_run j w
  generalize j.run.runIn w = out at hran ⊢
  cases hran with
  | unread hread => rw [hread]; rfl
  | @unwritten texts f w' hread hfail =>
      have h := hwrite texts
      rw [hfail] at h
      rw [hread]
      show _ = (writeOutcome w.tree (j.merged texts).output).map _
      rw [← h]
      rfl
  | @done texts w' told hread hok =>
      have h := hwrite texts
      rw [hok] at h
      rw [hread]
      show _ = (writeOutcome w.tree (j.merged texts).output).map _
      rw [← h]
      rfl

/-- The same stands in the way of an output in two trees that differ beside it only. -/
theorem writeOutcome_beside {before after : Node} (hbefore : before.Plain) (hafter : after.Plain)
    {outputs : List Place} (hbeside : before.Beside outputs after) {output : Path}
    (hapart : ∀ o ∈ outputs, Node.Apart output.names o) :
    writeOutcome after output = writeOutcome before output := by
  have habove : output.parent.names <+: output.names := List.dropLast_prefix output.names
  have hisFile {tree : Node} (hplain : tree.Plain) (place : Place) :
      ((tree.at? place).isSome && !tree.isDirAt place) = true ↔ ∃ c, tree.at? place = some (.file c) := by
    unfold Node.isDirAt
    cases hat : tree.at? place with
    | none => simp
    | some n =>
        cases n with
        | dir es => simp
        | file c => simp
        | link target => exact absurd hat (hplain _ target)
  have hfile : ((after.at? output.parent.names).isSome && !after.isDirAt output.parent.names) =
      ((before.at? output.parent.names).isSome && !before.isDirAt output.parent.names) := by
    have hplace : output.parent.names ∉ outputs := fun hmem => (hapart _ hmem).2 habove
    rw [Bool.eq_iff_iff, hisFile hafter, hisFile hbefore]
    exact exists_congr fun c => hbeside.file_iff hplace
  have hdirs : dirFault after output.parent = dirFault before output.parent := by
    unfold dirFault
    rw [hfile, hbeside.isBlocked_eq fun o ho hpre => (hapart o ho).2 (hpre.trans habove)]
  unfold writeOutcome writeFault
  rw [hdirs, hbeside.isDirAt_eq fun o ho => (hapart o ho).1]

/-- A job of short names gives the same in two trees that differ beside its paths only. -/
theorem run_beside {j : Job} (hj : j.Usable) (hshort : ∀ p ∈ j.output :: j.files, p.Short) {w v : Workspace}
    (hsound : w.tree.Sound) (hsound' : v.tree.Sound) (hcwd : v.cwd = w.cwd) {outputs : List Place}
    (hbeside : w.tree.Beside outputs v.tree)
    (hapart : ∀ p ∈ j.output :: j.files, ∀ o ∈ outputs, Node.Apart p.names o) :
    (j.run.runIn v).1 = (j.run.runIn w).1 := by
  have hread : ((j.files.mapM readSource).runIn v).1 = ((j.files.mapM readSource).runIn w).1 := by
    refine readSources_congr (fun p hp => hj.usable p (List.mem_cons_of_mem _ hp)) fun p hp => ?_
    have hp' := List.mem_cons_of_mem j.output hp
    rw [hcwd]
    exact hbeside.readBytes_eq hsound.plain hsound'.plain (hj.direct p hp') (hshort p hp') (hapart p hp') w.cwd
  have hwrite : writeOutcome v.tree j.output = writeOutcome w.tree j.output :=
    writeOutcome_beside hsound.plain hsound'.plain hbeside (hapart _ List.mem_cons_self)
  rw [run_fst hj (hshort _ List.mem_cons_self) hsound, run_fst hj (hshort _ List.mem_cons_self) hsound',
    hread, hwrite]

/-- A job with a name that is too long fails in any tree. -/
theorem run_of_long {j : Job} (hj : j.Usable) (hlong : ∃ p ∈ j.output :: j.files, ¬ p.Short) {w : Workspace}
    (hsound : w.tree.Sound) : ∃ f, (j.run.runIn w).1 = .error (.job f) := by
  obtain ⟨hreaches, hok⟩ := run_reaches hj hsound
  cases hrun : (j.run.runIn w).1 with
  | error f =>
      obtain ⟨⟨g, rfl⟩, -⟩ := hreaches.failed f hrun
      exact ⟨g, rfl⟩
  | ok a =>
      obtain ⟨-, ⟨texts, htexts, -⟩, hat⟩ := hok a hrun
      obtain ⟨p, hp, hlong⟩ := hlong
      refine absurd (fun name hname => ?_) hlong
      rcases List.mem_cons.mp hp with rfl | hfile
      · exact (hreaches.sound.usable hat name hname).1
      · obtain ⟨t, -, bytes, chars, hbytes, -⟩ := exists_of_forall₂ htexts hfile
        obtain ⟨place, hleads⟩ := Node.readBytes_eq_ok_iff.mp hbytes
        obtain ⟨-, hthere⟩ := (Node.leadsTo_iff hsound.plain (hj.direct p hp)).mp hleads
        exact (hsound.usable hthere name hname).1

end Flatten

end SolidityKit
