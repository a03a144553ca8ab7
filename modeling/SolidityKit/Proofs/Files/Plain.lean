/-
Trees without links.

Where there are no links, a path without `..` is its own place: it leads to what stands there, or it is blocked
by a file on the way, or it stops at a directory that has no entry of the next name (`stops_of_plain`).  From
this each access to the tree is computed (`get_eq`, `makeDir_eq`, `writeBytes_eq`).  A missing name
is a fault of its own if it is too long for any name, so that the last cases ask for short names.
-/
import SolidityKit.Proofs.Files.Growth
import SolidityKit.Proofs.Files.Paths

namespace SolidityKit

open Files

/-- The path does not depend on the current directory, and goes down only. -/
structure Path.Direct (p : Path) : Prop where
  /-- It starts at the top. -/
  absolute : p.isAbsolute = true
  /-- Each name leads to an entry. -/
  steps : ∀ name ∈ p.names, Node.IsStep name

namespace Node

/-- There are no links. -/
def Plain (tree : Node) : Prop := ∀ p target, tree.at? p ≠ some (link target)

/-- The name is not too long. -/
def IsShort (name : Name) : Prop := name.byteLength ≤ maxNameBytes

instance (name : Name) : Decidable (IsShort name) := inferInstanceAs (Decidable (_ ≤ _))

theorem missing_eq_notFound_iff (name : Name) : missing name = .notFound ↔ IsShort name := by
  unfold missing IsShort
  by_cases h : maxNameBytes < name.byteLength
  · simp [h]
  · simp [h, Nat.le_of_not_lt h]

/-- On the way there is a file where a directory is needed. -/
def isBlocked : Node → List Name → Bool
  | file _, _ :: _ => true
  | dir es, name :: rest =>
    match es.lookup name with
    | some n => n.isBlocked rest
    | none => false
  | _, _ => false

theorem isBlocked_dir_cons (es : List (Name × Node)) (name : Name) (rest : List Name) :
    (dir es).isBlocked (name :: rest) = (es.lookup name).any fun n => n.isBlocked rest := by
  rw [isBlocked]
  cases es.lookup name <;> rfl

theorem isBlocked_iff {tree : Node} {names : List Name} :
    tree.isBlocked names = true ↔ ∃ p name rest c, names = p ++ name :: rest ∧ tree.at? p = some (file c) := by
  induction names generalizing tree with
  | nil =>
      constructor
      · intro h
        cases tree <;> cases h
      · rintro ⟨p, name, rest, c, h, -⟩
        simp at h
  | cons name rest ih =>
      cases tree with
      | file c => exact ⟨fun _ => ⟨[], name, rest, c, rfl, rfl⟩, fun _ => rfl⟩
      | link target =>
          constructor
          · intro h
            cases h
          · rintro ⟨p, k, more, c, -, h⟩
            cases p <;> cases h
      | dir es =>
          have hstep : (dir es).isBlocked (name :: rest) = true ↔
              ∃ n, es.lookup name = some n ∧ n.isBlocked rest = true := by
            rw [isBlocked_dir_cons]
            cases es.lookup name <;> simp
          rw [hstep]
          constructor
          · rintro ⟨n, hn, hblocked⟩
            obtain ⟨p, k, more, c, rfl, hc⟩ := ih.mp hblocked
            exact ⟨name :: p, k, more, c, rfl, by rw [at?_dir_cons, hn]; exact hc⟩
          · rintro ⟨p, k, more, c, hnames, hc⟩
            cases p with
            | nil => cases hc
            | cons m p =>
                obtain ⟨rfl, rfl⟩ := List.cons.inj hnames
                rw [at?_dir_cons] at hc
                obtain ⟨n, hn, hc⟩ := Option.bind_eq_some_iff.mp hc
                exact ⟨n, hn, ih.mpr ⟨p, k, more, c, rfl, hc⟩⟩

/-! ### Following names -/

section Plain

variable {tree : Node}

theorem exists_at?_above {n : Node} {p q : Place} (h : tree.at? (p ++ q) = some n) :
    ∃ m, tree.at? p = some m := by
  rw [at?_append] at h
  obtain ⟨m, hm, -⟩ := Option.bind_eq_some_iff.mp h
  exact ⟨m, hm⟩

theorem walk_through (hplain : tree.Plain) {names : List Name} (hsteps : ∀ name ∈ names, IsStep name)
    {place : Place}
    {n : Node} (hn : tree.at? (place ++ names) = some n) (rest : List Name) (followLast : Bool) (left : Nat) :
    tree.walk followLast left place (names ++ rest) = tree.walk followLast left (place ++ names) rest := by
  induction names generalizing place with
  | nil => rw [List.append_nil, List.nil_append]
  | cons name more ih =>
      obtain ⟨es, hes⟩ := dir_above (by simp) hn
      rw [List.append_cons] at hn ⊢
      obtain ⟨m, hm⟩ := exists_at?_above hn
      have hlink : ∀ target, m ≠ link target := by
        rintro target rfl
        exact hplain _ _ hm
      have hlookup : es.lookup name = some m := by rw [← at?_entry hes, hm]
      rw [List.cons_append, walk_enter hes (hsteps name List.mem_cons_self) hlookup hlink]
      exact ih (fun k hk => hsteps k (List.mem_cons_of_mem name hk)) hn

theorem walk_through_top (hplain : tree.Plain) {names : List Name}
    (hsteps : ∀ name ∈ names, IsStep name) {n : Node}
    (hn : tree.at? names = some n) (followLast : Bool) (left : Nat) (rest : List Name) :
    tree.walk followLast left [] (names ++ rest) = tree.walk followLast left names rest := by
  have hn' : tree.at? ([] ++ names) = some n := hn
  have hway := walk_through hplain hsteps hn' rest followLast left
  rwa [List.nil_append] at hway

/-- Names lead to something, or are blocked, or stop at a directory without an entry of the next name. -/
theorem stops_of_plain (hplain : tree.Plain) (names : List Name) :
    (∃ n, tree.at? names = some n) ∨ tree.isBlocked names = true ∨
      ∃ p name rest es, names = p ++ name :: rest ∧ tree.at? p = some (dir es) ∧ es.lookup name = none := by
  induction names generalizing tree with
  | nil => exact Or.inl ⟨tree, rfl⟩
  | cons name rest ih =>
      cases tree with
      | file c => exact Or.inr (Or.inl rfl)
      | link target => exact absurd rfl (hplain [] target)
      | dir es =>
          cases hn : es.lookup name with
          | none => exact Or.inr (Or.inr ⟨[], name, rest, es, rfl, rfl, hn⟩)
          | some n =>
              have hbelow (p : Place) : (dir es).at? (name :: p) = n.at? p := by
                rw [at?_dir_cons, hn]
                rfl
              have hplain' : n.Plain := by
                intro p target
                rw [← hbelow]
                exact hplain _ target
              rcases ih hplain' with ⟨m, hm⟩ | hblocked | ⟨p, k, more, es', rfl, hes', hk⟩
              · exact Or.inl ⟨m, by rw [hbelow, hm]⟩
              · refine Or.inr (Or.inl ?_)
                rw [isBlocked_dir_cons, hn]
                exact hblocked
              · exact Or.inr (Or.inr ⟨name :: p, k, more, es', rfl, by rw [hbelow, hes'], hk⟩)

section Walk

variable {followLast : Bool} {left : Nat} {names : List Name}

theorem walk_of_at? (hplain : tree.Plain) (hsteps : ∀ name ∈ names, IsStep name) {n : Node}
    (hn : tree.at? names = some n) : tree.walk followLast left [] names = .ok (.there names n, left) := by
  have hall := walk_through_top hplain hsteps hn followLast left []
  rw [List.append_nil] at hall
  rw [hall, walk_nil, hn]
  rfl

theorem walk_of_isBlocked (hplain : tree.Plain) (hsteps : ∀ name ∈ names, IsStep name)
    (h : tree.isBlocked names = true) : tree.walk followLast left [] names = .error .notDirectory := by
  obtain ⟨p, name, rest, c, rfl, hc⟩ := isBlocked_iff.mp h
  have hsteps' (k : Name) (hk : k ∈ p) : IsStep k := hsteps k (List.mem_append_left _ hk)
  rw [walk_through_top hplain hsteps' hc, walk_blocked hc (by simp)]

theorem walk_of_stop (hplain : tree.Plain) {p : Place} {name : Name} {rest : List Name}
    {es : List (Name × Node)} (hsteps : ∀ k ∈ p ++ name :: rest, IsStep k) (hes : tree.at? p = some (dir es))
    (hnone : es.lookup name = none) :
    tree.walk followLast left [] (p ++ name :: rest) =
      if rest.isEmpty ∧ missing name = .notFound then .ok (.absent p name, left)
        else .error (missing name) := by
  have hsteps' (k : Name) (hk : k ∈ p) : IsStep k := hsteps k (List.mem_append_left _ hk)
  rw [walk_through_top hplain hsteps' hes, walk_missing hes (hsteps name (by simp)) hnone]

end Walk

theorem at?_of_isBlocked {names : List Name} (h : tree.isBlocked names = true) : tree.at? names = none := by
  obtain ⟨p, name, rest, c, rfl, hc⟩ := isBlocked_iff.mp h
  cases hat : tree.at? (p ++ name :: rest) with
  | none => rfl
  | some n =>
      obtain ⟨es, hes⟩ := dir_above (by simp) hat
      cases hes.symm.trans hc

/-- Below an entry that is missing there is nothing, and no file is in the way. -/
theorem stop_of_lookup_none {p : Place} {name : Name} {es : List (Name × Node)}
    (hes : tree.at? p = some (dir es)) (hnone : es.lookup name = none) (rest : List Name) :
    tree.at? (p ++ name :: rest) = none ∧ tree.isBlocked (p ++ name :: rest) = false := by
  have hbelow (more : List Name) : tree.at? (p ++ name :: more) = none := by
    rw [List.append_cons, at?_append, at?_entry hes, hnone]
    rfl
  refine ⟨hbelow rest, ?_⟩
  rw [Bool.eq_false_iff]
  intro hblocked
  obtain ⟨q, k, more, c, hnames, hc⟩ := isBlocked_iff.mp hblocked
  rcases List.append_eq_append_iff.mp hnames with ⟨r, rfl, hr⟩ | ⟨r, rfl, hr⟩
  · cases r with
    | nil => cases ((List.append_nil p ▸ hc :)).symm.trans hes
    | cons m r =>
        obtain ⟨rfl, rfl⟩ := List.cons.inj hr
        cases (hbelow r).symm.trans hc
  · cases r with
    | nil => cases ((List.append_nil q ▸ hes :)).symm.trans hc
    | cons m r =>
        obtain ⟨es', hes'⟩ := dir_above (by simp) hes
        cases hes'.symm.trans hc

/-- A directory stands at a place. -/
def isDirAt (tree : Node) (place : Place) : Bool :=
  match tree.at? place with
  | some (dir _) => true
  | _ => false

theorem isDirAt_iff {place : Place} : tree.isDirAt place = true ↔ ∃ es, tree.at? place = some (dir es) := by
  unfold isDirAt
  split
  · next es hes => simp [hes]
  · next hno => simpa using hno

/-! ### Accesses -/

section Access

variable {cwd : Place} {p : Path}

theorem startOf_direct (h : p.Direct) (cwd : Place) : startOf cwd p = [] := if_pos h.absolute

/-- A direct path is its own place. -/
theorem leadsTo_iff (hplain : tree.Plain) (hp : p.Direct) {place : Place} {n : Node} :
    tree.LeadsTo cwd p place n ↔ place = p.names ∧ tree.at? p.names = some n := by
  unfold LeadsTo
  rw [startOf_direct hp]
  constructor
  · rintro ⟨l, hway⟩
    have hwalk := walk_eq_ok_iff.mpr hway
    rcases stops_of_plain hplain p.names with ⟨m, hm⟩ | hblocked | ⟨q, name, rest, es, hnames, hes, hnone⟩
    · rw [walk_of_at? hplain hp.steps hm] at hwalk
      cases hwalk
      exact ⟨rfl, hm⟩
    · rw [walk_of_isBlocked hplain hp.steps hblocked] at hwalk
      cases hwalk
    · have hsteps := hp.steps
      rw [hnames] at hsteps hwalk
      rw [walk_of_stop hplain hsteps hes hnone] at hwalk
      split at hwalk <;> cases hwalk
  · rintro ⟨rfl, hn⟩
    exact ⟨_, walk_eq_ok_iff.mp (walk_of_at? hplain hp.steps hn)⟩

theorem get_eq (hplain : tree.Plain) (hp : p.Direct) (hshort : ∀ name ∈ p.names, IsShort name) :
    tree.get cwd p =
      match tree.at? p.names with
      | some n => .ok n
      | none => .error (if tree.isBlocked p.names then .notDirectory else .notFound) := by
  cases hat : tree.at? p.names with
  | some n => exact get_eq_ok_iff.mpr ⟨p.names, (leadsTo_iff hplain hp).mpr ⟨rfl, hat⟩⟩
  | none =>
      unfold get find
      rw [startOf_direct hp]
      by_cases hblocked : tree.isBlocked p.names = true
      · rw [walk_of_isBlocked hplain hp.steps hblocked, if_pos hblocked]
        rfl
      · rw [if_neg hblocked]
        rcases stops_of_plain hplain p.names with ⟨m, hm⟩ | h | ⟨q, name, rest, es, hnames, hes, hnone⟩
        · cases hat.symm.trans hm
        · exact absurd h hblocked
        · have hsteps := hp.steps
          rw [hnames] at hsteps hshort ⊢
          have hmissing := (missing_eq_notFound_iff name).mpr (hshort name (by simp))
          rw [walk_of_stop hplain hsteps hes hnone, hmissing]
          split <;> rfl

/-- What is to be made or written is there, or there is a directory for it, or nothing can be done about it. -/
inductive Spot (tree : Node) (p : Path) : Except Cause Found → Prop
  /-- Something is there. -/
  | there {n : Node} (hn : tree.at? p.names = some n) : Spot tree p (.ok (.there p.names n))
  /-- There is a directory for it. -/
  | free {d : Place} {name : Name} {es : List (Name × Node)} (hnames : p.names = d ++ [name])
      (hes : tree.at? d = some (dir es)) (hnone : es.lookup name = none) (hshort : IsShort name) :
      Spot tree p (.ok (.absent d name))
  /-- A file is in the way. -/
  | blocked (hblocked : tree.isBlocked p.names = true) : Spot tree p (.error .notDirectory)
  /-- A name on the way is missing, or is too long to be made. -/
  | stopped {d : Place} {name : Name} {rest : List Name} {es : List (Name × Node)}
      (hnames : p.names = d ++ name :: rest) (hes : tree.at? d = some (dir es)) (hnone : es.lookup name = none)
      (hstop : rest = [] → ¬ IsShort name) : Spot tree p (.error (missing name))

theorem spot_walk (hplain : tree.Plain) (hp : p.Direct) (cwd : Place) (followLast : Bool) :
    Spot tree p ((tree.walk followLast maxLinks (startOf cwd p) p.names).map (·.1)) := by
  rw [startOf_direct hp]
  rcases stops_of_plain hplain p.names with ⟨n, hn⟩ | hblocked | ⟨d, name, rest, es, hnames, hes, hnone⟩
  · rw [walk_of_at? hplain hp.steps hn]
    exact .there hn
  · rw [walk_of_isBlocked hplain hp.steps hblocked]
    exact .blocked hblocked
  · have hsteps := hp.steps
    rw [hnames] at hsteps
    rw [hnames, walk_of_stop hplain hsteps hes hnone]
    by_cases hlast : rest.isEmpty ∧ missing name = .notFound
    · rw [if_pos hlast]
      rw [List.isEmpty_iff] at hlast
      obtain ⟨rfl, hshort⟩ := hlast
      exact .free hnames hes hnone ((missing_eq_notFound_iff name).mp hshort)
    · rw [if_neg hlast]
      refine .stopped hnames hes hnone ?_
      rintro rfl hshort
      exact hlast ⟨rfl, (missing_eq_notFound_iff name).mpr hshort⟩

/-- A directory is made where there was nothing, in a directory. -/
theorem makeDir_eq_ok (hplain : tree.Plain) (hp : p.Direct) {tree' : Node}
    (h : tree.makeDir cwd p = .ok tree') :
    ∃ d name es, p.names = d ++ [name] ∧ tree.at? d = some (dir es) ∧ es.lookup name = none ∧ IsShort name ∧
      tree' = tree.put p.names (dir []) := by
  have hspot := spot_walk hplain hp cwd false
  unfold makeDir findLink at h
  generalize (tree.walk false maxLinks (startOf cwd p) p.names).map (·.1) = found at h hspot
  cases hspot with
  | there hn => cases h
  | free hnames hes hnone hshort =>
      cases h
      exact ⟨_, _, _, hnames, hes, hnone, hshort, by rw [hnames]⟩
  | blocked hblocked => cases h
  | stopped hnames hes hnone hstop => cases h

/-- A file is written in place of a file, or where there was nothing, in a directory. -/
theorem writeBytes_eq_ok (hplain : tree.Plain) (hp : p.Direct) {content : ByteArray} {tree' : Node}
    (h : tree.writeBytes cwd p content = .ok tree') :
    tree' = tree.put p.names (file content) ∧
      ((∃ old, tree.at? p.names = some (file old)) ∨
        ∃ d name es, p.names = d ++ [name] ∧ tree.at? d = some (dir es) ∧ es.lookup name = none ∧
          IsShort name) := by
  have hspot := spot_walk hplain hp cwd true
  unfold writeBytes find at h
  generalize (tree.walk true maxLinks (startOf cwd p) p.names).map (·.1) = found at h hspot
  cases hspot with
  | @there n hn =>
      cases n with
      | dir es => cases h
      | file old =>
          cases h
          exact ⟨rfl, Or.inl ⟨old, hn⟩⟩
      | link target => exact absurd hn (hplain _ target)
  | free hnames hes hnone hshort =>
      cases h
      exact ⟨by rw [hnames], Or.inr ⟨_, _, _, hnames, hes, hnone, hshort⟩⟩
  | blocked hblocked => cases h
  | stopped hnames hes hnone hstop => cases h

theorem makeDir_eq (hplain : tree.Plain) (hp : p.Direct) (hshort : ∀ name ∈ p.names, IsShort name) :
    tree.makeDir cwd p =
      if (tree.at? p.names).isSome then .error .alreadyExists
      else if tree.isBlocked p.names then .error .notDirectory
      else if tree.isDirAt p.parent.names then .ok (tree.put p.names (dir []))
      else .error .notFound := by
  have hspot := spot_walk hplain hp cwd false
  unfold makeDir findLink
  generalize (tree.walk false maxLinks (startOf cwd p) p.names).map (·.1) = found at hspot
  cases hspot with
  | there hn => rw [hn]; rfl
  | @free d name es hnames hes hnone _ =>
      have hparent : p.parent.names = d := by
        show p.names.dropLast = d
        rw [hnames, List.dropLast_concat]
      have hdir : tree.isDirAt p.parent.names = true := isDirAt_iff.mpr ⟨es, by rw [hparent, hes]⟩
      obtain ⟨hat, hblocked⟩ := stop_of_lookup_none hes hnone []
      rw [← hnames] at hat hblocked
      rw [hat, hblocked, hdir, hnames]
      rfl
  | blocked hblocked => rw [at?_of_isBlocked hblocked, hblocked]; rfl
  | @stopped d name rest es hnames hes hnone hstop =>
      have hname : IsShort name := hshort name (by rw [hnames]; simp)
      have hdir : tree.isDirAt p.parent.names = false := by
        rw [Bool.eq_false_iff, ne_eq, isDirAt_iff]
        rintro ⟨es', hes'⟩
        -- the missing name is above the last one, so that the parent is missing as well
        obtain ⟨more, last, rfl⟩ := (List.eq_nil_or_concat rest).resolve_left fun h => hstop h hname
        have hparent : p.parent.names = d ++ name :: more := by
          show p.names.dropLast = _
          rw [hnames, List.concat_eq_append, ← List.cons_append, ← List.append_assoc, List.dropLast_concat]
        rw [hparent, (stop_of_lookup_none hes hnone more).1] at hes'
        cases hes'
      obtain ⟨hat, hblocked⟩ := stop_of_lookup_none hes hnone rest
      rw [← hnames] at hat hblocked
      rw [hat, hblocked, hdir, (missing_eq_notFound_iff name).mpr hname]
      rfl

/-- Writing a file whose directory is there. -/
theorem writeBytes_eq (hplain : tree.Plain) (hp : p.Direct) (hshort : ∀ name ∈ p.names, IsShort name)
    (hparent : tree.isDirAt p.parent.names = true) (content : ByteArray) :
    tree.writeBytes cwd p content =
      if tree.isDirAt p.names then .error .isDirectory else .ok (tree.put p.names (file content)) := by
  unfold writeBytes find isDirAt
  rw [startOf_direct hp]
  cases hat : tree.at? p.names with
  | some n =>
      rw [walk_of_at? hplain hp.steps hat]
      cases n with
      | dir es => rfl
      | file old => rfl
      | link target => exact absurd hat (hplain _ target)
  | none =>
      obtain ⟨d, last, hnames⟩ : ∃ d last, p.names = d ++ [last] := by
        rcases List.eq_nil_or_concat p.names with h | ⟨d, last, h⟩
        · rw [h] at hat
          cases hat
        · exact ⟨d, last, by rw [h, List.concat_eq_append]⟩
      obtain ⟨es, hes⟩ := isDirAt_iff.mp hparent
      have hd : tree.at? d = some (dir es) := by
        rw [← hes]
        show _ = tree.at? p.names.dropLast
        rw [hnames, List.dropLast_concat]
      have hsteps := hp.steps
      have hmissing := (missing_eq_notFound_iff last).mpr (hshort last (by rw [hnames]; simp))
      rw [hnames] at hat hsteps ⊢
      rw [at?_entry hd] at hat
      rw [walk_of_stop hplain hsteps hd hat, hmissing]
      rfl

end Access

end Plain

end Node

end SolidityKit
