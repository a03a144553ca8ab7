/-
What a job cannot reach.

A job makes directories above its output and writes there, and nowhere else: `Beside outputs` says so of a
tree before and after.  A path that is apart from all outputs, neither above nor below any, then leads to
the same as before, and fails for the same cause (`Beside.readBytes_eq`).  That takes short names: where
directories above have been made, a name that is too long is met before one that is missing.

`Sound` collects what is asked of a tree, and `isSound` tests it.
-/
import SolidityKit.Proofs.Files.Plain

namespace SolidityKit

open Files

namespace Node

/-- The name is short, and the system takes it. -/
def IsUsable (name : Name) : Prop := IsShort name ∧ Points.Usable name

instance (name : Name) : Decidable (IsUsable name) := inferInstanceAs (Decidable (_ ∧ _))

/-- A tree without links, with names that can be used. -/
structure Sound (tree : Node) : Prop where
  /-- Names are distinct and lead to entries. -/
  tidy : tree.Tidy
  /-- There are no links. -/
  plain : tree.Plain
  /-- Names can be used. -/
  usable : ∀ {place n}, tree.at? place = some n → ∀ name ∈ place, IsUsable name

/-! ### A test for sound trees -/

instance (name : Name) : Decidable (IsStep name) := inferInstanceAs (Decidable (_ ∧ _))

instance (p : Path) : Decidable p.Direct :=
  decidable_of_iff (p.isAbsolute = true ∧ ∀ name ∈ p.names, IsStep name) ⟨fun h => ⟨h.1, h.2⟩,
    fun h => ⟨h.1, h.2⟩⟩

mutual

/-- Whether the tree is sound. -/
def isSound : Node → Bool
  | file _ => true
  | link _ => false
  | dir es => decide (es.map Prod.fst).Nodup && entriesSound es

/-- Whether the entries of a directory are sound. -/
def entriesSound : List (Name × Node) → Bool
  | [] => true
  | (name, n) :: rest => decide (IsStep name ∧ IsUsable name) && n.isSound && entriesSound rest

end

theorem entry_sound {es : List (Name × Node)} (h : entriesSound es = true) {name : Name} {n : Node}
    (hn : (name, n) ∈ es) : IsStep name ∧ IsUsable name ∧ n.isSound = true := by
  induction es with
  | nil => cases hn
  | cons e rest ih =>
      obtain ⟨k, m⟩ := e
      simp only [entriesSound, Bool.and_eq_true, decide_eq_true_eq] at h
      rcases List.mem_cons.mp hn with he | hmem
      · cases he
        exact ⟨h.1.1.1, h.1.1.2, h.1.2⟩
      · exact ih h.2 hmem

theorem isSound_at? {tree n : Node} {place : Place} (h : tree.isSound = true) (hn : tree.at? place = some n) :
    n.isSound = true ∧ ∀ name ∈ place, IsUsable name := by
  induction place generalizing tree with
  | nil =>
      cases hn
      exact ⟨h, fun _ hmem => absurd hmem (by simp)⟩
  | cons name rest ih =>
      cases tree with
      | file c => cases hn
      | link target => cases hn
      | dir es =>
          rw [at?_dir_cons] at hn
          obtain ⟨m, hm, hrest⟩ := Option.bind_eq_some_iff.mp hn
          obtain ⟨l₁, l₂, hes, -⟩ := List.lookup_eq_some_iff.mp hm
          rw [isSound, Bool.and_eq_true] at h
          have hmem : (name, m) ∈ es := by rw [hes]; simp
          obtain ⟨-, husable, hsound⟩ := entry_sound h.2 hmem
          obtain ⟨hn', hmore⟩ := ih hsound hrest
          refine ⟨hn', fun k hk => ?_⟩
          rcases List.mem_cons.mp hk with rfl | hk
          · exact husable
          · exact hmore k hk

theorem sound_of_isSound {tree : Node} (h : tree.isSound = true) : tree.Sound where
  tidy p es hes := by
    obtain ⟨hsound, -⟩ := isSound_at? h hes
    rw [isSound, Bool.and_eq_true, decide_eq_true_eq] at hsound
    refine ⟨hsound.1, fun name hname => ?_⟩
    obtain ⟨⟨k, n⟩, hmem, rfl⟩ := List.mem_map.mp hname
    exact (entry_sound hsound.2 hmem).1
  plain p target hlink := by
    obtain ⟨hsound, -⟩ := isSound_at? h hlink
    cases hsound
  usable hn := (isSound_at? h hn).2

/-! ### Trees that differ at outputs and above them -/

/-- Only the files at some outputs differ, and only directories above them or these files are new. -/
structure Beside (outputs : List Place) (before after : Node) : Prop where
  /-- The tree has grown. -/
  grows : Grows (· ∈ outputs) before after
  /-- What is new is an output or above one. -/
  fresh : ∀ {place n}, after.at? place = some n → before.at? place = none → ∃ o ∈ outputs, place <+: o

/-- Neither place is at or below the other. -/
def Apart (p q : Place) : Prop := ¬ p <+: q ∧ ¬ q <+: p

instance (p q : Place) : Decidable (Apart p q) := inferInstanceAs (Decidable (_ ∧ _))

section Beside

variable {outputs : List Place} {before after : Node}

theorem Beside.refl (outputs : List Place) (tree : Node) : Beside outputs tree tree where
  grows := .refl _ _
  fresh h h' := by cases h'.symm.trans h

theorem Beside.trans {mid : Node} (h : Beside outputs before mid) (h' : Beside outputs mid after) :
    Beside outputs before after where
  grows := h.grows.trans h'.grows
  fresh {place n} hn hnone := by
    cases hmid : mid.at? place with
    | some m => exact h.fresh hmid hnone
    | none => exact h'.fresh hn hmid

theorem Beside.mono {more : List Place} (h : Beside outputs before after) (hsub : outputs ⊆ more) :
    Beside more before after where
  grows := h.grows.mono fun _ hp => hsub hp
  fresh hn hnone := by
    obtain ⟨o, ho, hpre⟩ := h.fresh hn hnone
    exact ⟨o, hsub ho, hpre⟩

theorem Beside.file_iff (h : Beside outputs before after) {place : Place} (hplace : place ∉ outputs)
    {c : ByteArray} :
    after.at? place = some (file c) ↔ before.at? place = some (file c) :=
  h.grows.file hplace

/-- Where nothing is at or below a place that is written, nothing is new. -/
theorem Beside.at?_eq_none_iff (h : Beside outputs before after) {place : Place}
    (hplace : ∀ o ∈ outputs, ¬ place <+: o) : after.at? place = none ↔ before.at? place = none := by
  constructor
  · intro hnone
    cases hat : before.at? place with
    | none => rfl
    | some n =>
        cases n with
        | dir es =>
            obtain ⟨es', hes', -⟩ := h.grows.dir hat
            cases hnone.symm.trans hes'
        | file c =>
            obtain ⟨c', hc'⟩ := h.grows.stays hat
            cases hnone.symm.trans hc'
        | link target => cases hnone.symm.trans (h.grows.link.mpr hat)
  · intro hnone
    cases hat : after.at? place with
    | none => rfl
    | some n =>
        obtain ⟨o, ho, hpre⟩ := h.fresh hat hnone
        exact absurd hpre (hplace o ho)

theorem Beside.isDirAt_eq (h : Beside outputs before after) {place : Place}
    (hplace : ∀ o ∈ outputs, ¬ place <+: o) :
    after.isDirAt place = before.isDirAt place := by
  rw [Bool.eq_iff_iff, isDirAt_iff, isDirAt_iff]
  constructor
  · rintro ⟨es', hes'⟩
    cases hat : before.at? place with
    | none => cases ((h.at?_eq_none_iff hplace).mpr hat).symm.trans hes'
    | some n =>
        cases n with
        | dir es => exact ⟨es, rfl⟩
        | file c =>
            obtain ⟨c', hc'⟩ := h.grows.stays hat
            cases hes'.symm.trans hc'
        | link target => cases hes'.symm.trans (h.grows.link.mpr hat)
  · rintro ⟨es, hes⟩
    obtain ⟨es', hes', -⟩ := h.grows.dir hes
    exact ⟨es', hes'⟩

theorem Beside.isBlocked_eq (h : Beside outputs before after) {names : List Name}
    (hnames : ∀ o ∈ outputs, ¬ o <+: names) : after.isBlocked names = before.isBlocked names := by
  have hfile (p rest : Place) (hp : names = p ++ rest) (c : ByteArray) :
      after.at? p = some (file c) ↔ before.at? p = some (file c) :=
    h.file_iff fun hmem => hnames p hmem ⟨rest, hp.symm⟩
  rw [Bool.eq_iff_iff, isBlocked_iff, isBlocked_iff]
  constructor
  · rintro ⟨p, name, rest, c, hp, hc⟩
    exact ⟨p, name, rest, c, hp, (hfile p _ hp c).mp hc⟩
  · rintro ⟨p, name, rest, c, hp, hc⟩
    exact ⟨p, name, rest, c, hp, (hfile p _ hp c).mpr hc⟩

theorem Beside.readBytes_eq (h : Beside outputs before after) (hbefore : before.Plain)
    (hafter : after.Plain) {p : Path}
    (hp : p.Direct) (hshort : ∀ name ∈ p.names, IsShort name) (hapart : ∀ o ∈ outputs, Apart p.names o)
    (cwd : Place) :
    after.readBytes cwd p = before.readBytes cwd p := by
  unfold readBytes
  rw [get_eq hbefore hp hshort, get_eq hafter hp hshort,
    h.isBlocked_eq fun o ho => (hapart o ho).2]
  cases hat : before.at? p.names with
  | none => rw [(h.at?_eq_none_iff fun o ho => (hapart o ho).1).mpr hat]
  | some n =>
      cases n with
      | dir es =>
          obtain ⟨es', hes', -⟩ := h.grows.dir hat
          rw [hes']
          rfl
      | file c =>
          have hfile : p.names ∉ outputs := fun hmem => (hapart _ hmem).1 List.prefix_rfl
          rw [(h.file_iff hfile).mpr hat]
      | link target => exact absurd hat (hbefore _ target)

end Beside

/-! ### What making and writing reach -/

/-- What is new after a leaf was put somewhere is the leaf. -/
theorem eq_of_fresh_put {tree new : Node} {place q : Place} (hroom : tree.HasRoom place) (hnew : new.IsLeaf)
    (hold : ∀ es, tree.at? place ≠ some (dir es)) {n : Node} (hn : (tree.put place new).at? q = some n)
    (hnone : tree.at? q = none) : q = place := by
  rcases at?_put_leaf hroom hnew hold q with ⟨hq, -⟩ | hsame | ⟨es, es', hes, -, -⟩
  · exact hq
  · cases (hsame.symm.trans hn).symm.trans hnone
  · cases hes.symm.trans hnone

/-- A tree that has grown is sound if it was and what is new can be used. -/
theorem Sound.grows {written : Place → Prop} {before after : Node} (h : before.Sound)
    (hgrows : Grows written before after)
    (hfresh : ∀ place n, after.at? place = some n → before.at? place = none → ∀ name ∈ place, IsUsable name) :
    after.Sound where
  tidy := hgrows.tidy h.tidy
  plain p target hlink := h.plain p target (hgrows.link.mp hlink)
  usable {place n} hn := by
    cases hat : before.at? place with
    | some m => exact h.usable hat
    | none => exact hfresh place n hn hat

section Steps

variable {tree tree' : Node} {cwd : Place} {p : Path}

/-- The names of a path that something is put at can be used. -/
theorem usable_of_free (hsound : tree.Sound) (husable : p.Usable) {d : Place} {name : Name}
    {es : List (Name × Node)}
    (hnames : p.names = d ++ [name]) (hes : tree.at? d = some (dir es)) (hshort : IsShort name) :
    ∀ k ∈ p.names, IsUsable k := by
  intro k hk
  have hkeep := (Path.usable_iff p).mp husable k hk
  rw [hnames, List.mem_append, List.mem_singleton] at hk
  rcases hk with hk | rfl
  · exact hsound.usable hes k hk
  · exact ⟨hshort, hkeep⟩

theorem sound_makeDir (hsound : tree.Sound) (hp : p.Direct) (husable : p.Usable)
    (h : tree.makeDir cwd p = .ok tree') {o : Place} (ho : p.names <+: o) :
    tree'.Sound ∧ Beside [o] tree tree' := by
  obtain ⟨-, -, -, hgrows⟩ := leadsTo_makeDir h
  obtain ⟨d, name, es, hnames, hes, hnone, hshort, rfl⟩ := makeDir_eq_ok hsound.plain hp h
  have hat : tree.at? p.names = none := by rw [hnames, at?_entry hes, hnone]
  have hfresh {q : Place} {n : Node} (hn : (tree.put p.names (dir [])).at? q = some n)
    (hq : tree.at? q = none) :
      q = p.names :=
    eq_of_fresh_put (Or.inr ⟨d, name, es, hnames, hes⟩) isLeaf_empty (by rw [hat]; simp) hn hq
  refine ⟨hsound.grows hgrows fun q n hn hq => ?_, hgrows.mono fun _ h => h.elim, fun hn hq => ?_⟩
  · rw [hfresh hn hq]
    exact usable_of_free hsound husable hnames hes hshort
  · rw [hfresh hn hq]
    exact ⟨o, List.mem_singleton_self o, ho⟩

theorem sound_writeBytes (hsound : tree.Sound) (hp : p.Direct) (husable : p.Usable) {content : ByteArray}
    (h : tree.writeBytes cwd p content = .ok tree') :
    tree'.Sound ∧ Beside [p.names] tree tree' ∧ tree'.at? p.names = some (file content) := by
  have hstart (target : Points) : tree.at? (startOf cwd p) ≠ some (link target) := hsound.plain _ target
  obtain ⟨place, hleads, hgrows⟩ := leadsTo_writeBytes hstart h
  have hplain' : tree'.Plain := fun q target hlink => hsound.plain q target (hgrows.link.mp hlink)
  obtain ⟨rfl, hat'⟩ := (leadsTo_iff hplain' hp).mp hleads
  obtain ⟨rfl, hcases⟩ := writeBytes_eq_ok hsound.plain hp h
  have hkeep : ∀ k ∈ p.names, IsUsable k := by
    rcases hcases with ⟨old, hold⟩ | ⟨d, name, es, hnames, hes, -, hshort⟩
    · exact hsound.usable hold
    · exact usable_of_free hsound husable hnames hes hshort
  have hroom : tree.HasRoom p.names := by
    rcases hcases with ⟨old, hold⟩ | ⟨d, name, es, hnames, hes, -, -⟩
    · exact hasRoom_of_at? hold
    · exact Or.inr ⟨d, name, es, hnames, hes⟩
  have hnodir (es : List (Name × Node)) : tree.at? p.names ≠ some (dir es) := by
    intro hdir
    obtain ⟨es', hes', -⟩ := hgrows.dir hdir
    cases hat'.symm.trans hes'
  have hfresh {q : Place} {n : Node} (hn : (tree.put p.names (file content)).at? q = some n)
      (hq : tree.at? q = none) : q = p.names :=
    eq_of_fresh_put hroom (isLeaf_file content) hnodir hn hq
  refine ⟨hsound.grows hgrows fun q n hn hq => ?_, ⟨hgrows.mono ?_, fun hn hq => ?_⟩, hat'⟩
  · rw [hfresh hn hq]
    exact hkeep
  · rintro q rfl
    exact List.mem_singleton_self _
  · rw [hfresh hn hq]
    exact ⟨_, List.mem_singleton_self _, List.prefix_rfl⟩

end Steps

end Node

end SolidityKit
