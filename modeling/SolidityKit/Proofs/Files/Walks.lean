/-
Paths as they are followed.

`Walks` keeps what following names finds and forgets how the search is bounded: one constructor for each
thing that can happen at a name.  `walk_eq_ok_iff` says that it is what `walk` does, so that a fact about
where paths lead is an induction over `Walks`.

The main facts are that a walk can be cut at any directory that it comes through (`Walks.append`), and
that something at the end of a path really is there (`Walks.at_there`, `Walks.dir_absent`).
-/
import SolidityKit.Proofs.Files.Places

namespace SolidityKit.Node

open Files

/-- The name leads to an entry, rather than nowhere else or up. -/
def IsStep (name : Name) : Prop := name ≠ "" ∧ name ≠ "." ∧ name ≠ ".."

/-- The ways to follow names from a place, with what is found and how many links may still be followed. -/
inductive Walks (tree : Node) (followLast : Bool) : Nat → Place → List Name → Found → Nat → Prop
  /-- There are no names left. -/
  | arrive {left : Nat} {place : Place} {n : Node} (hat : tree.at? place = some n) :
      Walks tree followLast left place [] (.there place n) left
  /-- The name means the directory itself. -/
  | stay {left l : Nat} {place : Place} {es : List (Name × Node)} {name : Name} {rest : List Name} {f : Found}
      (hdir : tree.at? place = some (dir es)) (hname : name = "" ∨ name = ".")
      (hrest : Walks tree followLast left place rest f l) : Walks tree followLast left place (name :: rest) f l
  /-- The name means the directory above. -/
  | up {left l : Nat} {place : Place} {es : List (Name × Node)} {rest : List Name} {f : Found}
      (hdir : tree.at? place = some (dir es))
      (hrest : Walks tree followLast left place.dropLast rest f l) :
      Walks tree followLast left place (".." :: rest) f l
  /-- The name is that of a file or a directory. -/
  | enter {left l : Nat} {place : Place} {es : List (Name × Node)} {name : Name} {n : Node} {rest : List Name}
      {f : Found} (hdir : tree.at? place = some (dir es)) (hname : IsStep name) (hn : es.lookup name = some n)
      (hlink : ∀ target, n ≠ link target)
      (hrest : Walks tree followLast left (place ++ [name]) rest f l) :
      Walks tree followLast left place (name :: rest) f l
  /-- The name is that of a link, which is followed. -/
  | follow {left l : Nat} {place : Place} {es : List (Name × Node)} {name : Name} {target : Points}
      {rest : List Name}
      {f : Found} (hdir : tree.at? place = some (dir es)) (hname : IsStep name)
      (hn : es.lookup name = some (link target)) (hlast : rest ≠ [] ∨ followLast = true)
      (hrest : Walks tree followLast left (linkStart target place) (targetNames target ++ rest) f l) :
      Walks tree followLast (left + 1) place (name :: rest) f l
  /-- The last name is that of a link, which is not to be followed. -/
  | atLink {left : Nat} {place : Place} {es : List (Name × Node)} {name : Name} {target : Points}
      (hdir : tree.at? place = some (dir es)) (hname : IsStep name) (hn : es.lookup name = some (link target))
      (hlast : followLast = false) :
      Walks tree followLast left place [name] (.there (place ++ [name]) (link target)) left
  /-- There is no entry of the last name. -/
  | absent {left : Nat} {place : Place} {es : List (Name × Node)} {name : Name}
      (hdir : tree.at? place = some (dir es)) (hname : IsStep name) (hn : es.lookup name = none)
      (hshort : missing name = .notFound) : Walks tree followLast left place [name] (.absent place name) left

/-! ### `walk` step by step -/

/-- What takes over where a link is followed. -/
def follower (tree : Node) (followLast : Bool) : Nat → Place → List Name → Except Cause (Found × Nat)
  | 0 => fun _ _ => .error .tooManyLinks
  | left + 1 => tree.walk followLast left

theorem walk_eq (tree : Node) (followLast : Bool) (left : Nat) :
    tree.walk followLast left = tree.walkNames followLast (tree.follower followLast left) left := by
  cases left <;> rfl

section Step

variable {tree : Node} {followLast : Bool} {left : Nat} {place : Place} {es : List (Name × Node)} {name : Name}
  {rest : List Name}

theorem walk_nil : tree.walk followLast left place [] =
    (tree.at? place).elim (.error .notFound) fun n => .ok (.there place n, left) := by
  rw [walk_eq, walkNames]

theorem walk_stay (hdir : tree.at? place = some (dir es)) (hname : name = "" ∨ name = ".") :
    tree.walk followLast left place (name :: rest) = tree.walk followLast left place rest := by
  rw [walk_eq]
  simp only [walkNames, hdir, hname, if_true]

theorem walk_up (hdir : tree.at? place = some (dir es)) :
    tree.walk followLast left place (".." :: rest) = tree.walk followLast left place.dropLast rest := by
  rw [walk_eq]
  have hname : ¬ ((".." : Name) = "" ∨ (".." : Name) = ".") := by decide
  simp only [walkNames, hdir, hname, if_false, if_true]

theorem walk_enter {n : Node} (hdir : tree.at? place = some (dir es)) (hname : IsStep name)
    (hn : es.lookup name = some n) (hlink : ∀ target, n ≠ link target) :
    tree.walk followLast left place (name :: rest) = tree.walk followLast left (place ++ [name]) rest := by
  rw [walk_eq]
  have hne : ¬ (name = "" ∨ name = ".") := by simp [hname.1, hname.2.1]
  simp only [walkNames, hdir, hne, hname.2.2, hn, if_false]

theorem walk_link {target : Points} (hdir : tree.at? place = some (dir es)) (hname : IsStep name)
    (hn : es.lookup name = some (link target)) :
    tree.walk followLast left place (name :: rest) =
      if rest.isEmpty && !followLast then .ok (.there (place ++ [name]) (link target), left)
      else tree.follower followLast left (linkStart target place) (targetNames target ++ rest) := by
  rw [walk_eq]
  have hne : ¬ (name = "" ∨ name = ".") := by simp [hname.1, hname.2.1]
  simp only [walkNames, hdir, hne, hname.2.2, hn, if_false]

theorem walk_missing (hdir : tree.at? place = some (dir es)) (hname : IsStep name)
    (hn : es.lookup name = none) :
    tree.walk followLast left place (name :: rest) =
      if rest.isEmpty ∧ missing name = .notFound then .ok (.absent place name, left)
        else .error (missing name) := by
  rw [walk_eq]
  have hne : ¬ (name = "" ∨ name = ".") := by simp [hname.1, hname.2.1]
  simp only [walkNames, hdir, hne, hname.2.2, hn, if_false]

theorem walk_blocked {n : Node} (hat : tree.at? place = some n) (hdir : ∀ es, n ≠ dir es) :
    tree.walk followLast left place (name :: rest) = .error .notDirectory := by
  rw [walk_eq]
  simp only [walkNames, hat]

theorem walk_nowhere (hat : tree.at? place = none) (names : List Name) :
    tree.walk followLast left place names = .error .notFound := by
  rw [walk_eq]
  cases names <;> simp [walkNames, hat]

end Step

/-- A name stays in the directory, goes up, or leads to an entry. -/
theorem name_cases (name : Name) : (name = "" ∨ name = ".") ∨ name = ".." ∨ IsStep name := by
  by_cases hstay : name = "" ∨ name = "."
  · exact Or.inl hstay
  by_cases hup : name = ".."
  · exact Or.inr (Or.inl hup)
  · exact Or.inr (Or.inr ⟨fun e => hstay (Or.inl e), fun e => hstay (Or.inr e), hup⟩)

section Search

variable {tree : Node} {followLast : Bool} {left l : Nat} {place : Place} {es : List (Name × Node)}
  {name : Name}
  {rest : List Name} {f : Found}

/-- Only the last name may have no entry. -/
theorem walks_of_missing (hdir : tree.at? place = some (dir es)) (hname : IsStep name)
    (hn : es.lookup name = none) (h : tree.walk followLast left place (name :: rest) = .ok (f, l)) :
    Walks tree followLast left place (name :: rest) f l := by
  rw [walk_missing hdir hname hn] at h
  by_cases hlast : rest.isEmpty ∧ missing name = .notFound
  · rw [if_pos hlast] at h
    cases h
    obtain rfl := List.isEmpty_iff.mp hlast.1
    exact .absent hdir hname hn hlast.2
  · rw [if_neg hlast] at h
    cases h

/-- What a search may take for granted where it follows a link: there is one link less to follow. -/
def Follows (tree : Node) (followLast : Bool) (left : Nat) : Prop :=
  ∀ place names f l, tree.follower followLast left place names = .ok (f, l) →
    ∃ fewer, left = fewer + 1 ∧ Walks tree followLast fewer place names f l

/-- A link ends the way, or is followed. -/
theorem walks_of_link (hfollow : Follows tree followLast left) {target : Points}
    (hdir : tree.at? place = some (dir es)) (hname : IsStep name) (hn : es.lookup name = some (link target))
    (h : tree.walk followLast left place (name :: rest) = .ok (f, l)) :
    Walks tree followLast left place (name :: rest) f l := by
  rw [walk_link hdir hname hn] at h
  by_cases hlast : (rest.isEmpty && !followLast) = true
  · rw [if_pos hlast] at h
    cases h
    rw [Bool.and_eq_true, List.isEmpty_iff, Bool.not_eq_true'] at hlast
    obtain ⟨rfl, hlast⟩ := hlast
    exact .atLink hdir hname hn hlast
  · rw [if_neg hlast] at h
    obtain ⟨fewer, rfl, hrest⟩ := hfollow _ _ _ _ h
    refine .follow hdir hname hn ?_ hrest
    by_cases hempty : rest = []
    · subst hempty
      exact Or.inr (by simpa using hlast)
    · exact Or.inl hempty

/-- Between two links the search goes down the names. -/
theorem walks_of_walk (hfollow : Follows tree followLast left) {names : List Name}
    (h : tree.walk followLast left place names = .ok (f, l)) : Walks tree followLast left place names f l := by
  induction names generalizing place with
  | nil =>
      rw [walk_nil] at h
      cases hat : tree.at? place with
      | none => rw [hat] at h; cases h
      | some n => rw [hat] at h; cases h; exact .arrive hat
  | cons name rest ih =>
      cases hat : tree.at? place with
      | none => rw [walk_nowhere hat] at h; cases h
      | some n =>
          cases n with
          | file c => rw [walk_blocked hat (by simp)] at h; cases h
          | link target => rw [walk_blocked hat (by simp)] at h; cases h
          | dir es =>
              rcases name_cases name with hstay | rfl | hname
              · rw [walk_stay hat hstay] at h
                exact .stay hat hstay (ih h)
              · rw [walk_up hat] at h
                exact .up hat (ih h)
              · cases hn : es.lookup name with
                | none => exact walks_of_missing hat hname hn h
                | some n =>
                    by_cases hlink : ∃ target, n = link target
                    · obtain ⟨target, rfl⟩ := hlink
                      exact walks_of_link hfollow hat hname hn h
                    · have hnone : ∀ target, n ≠ link target := fun target hn => hlink ⟨target, hn⟩
                      rw [walk_enter hat hname hn hnone] at h
                      exact .enter hat hname hn hnone (ih h)

end Search

/-- Following names comes to a result exactly if there is a way. -/
theorem walk_eq_ok_iff {tree : Node} {followLast : Bool} {left : Nat} {place : Place} {names : List Name}
    {f : Found}
    {l : Nat} : tree.walk followLast left place names = .ok (f, l) ↔
    Walks tree followLast left place names f l := by
  constructor
  · induction left generalizing place names f l with
    | zero => exact walks_of_walk fun _ _ _ _ h => absurd h (by simp [follower])
    | succ left ih => exact walks_of_walk fun _ _ _ _ h => ⟨left, rfl, ih h⟩
  · intro h
    induction h with
    | arrive hat => rw [walk_nil, hat]; rfl
    | stay hdir hname _ ih => rw [walk_stay hdir hname, ih]
    | up hdir _ ih => rw [walk_up hdir, ih]
    | enter hdir hname hn hlink _ ih => rw [walk_enter hdir hname hn hlink, ih]
    | follow hdir hname hn hlast _ ih =>
        rw [walk_link hdir hname hn, if_neg (by rcases hlast with h | h <;> simp [h])]
        exact ih
    | atLink hdir hname hn hlast => rw [walk_link hdir hname hn, if_pos (by simp [hlast])]
    | absent hdir hname hn hshort => rw [walk_missing hdir hname hn, if_pos ⟨rfl, hshort⟩]

/-! ### What is found -/

section Search

variable {tree : Node} {followLast : Bool} {left l : Nat} {place p : Place} {names : List Name}

theorem Walks.at_there {n : Node} (h : Walks tree followLast left place names (.there p n) l) :
    tree.at? p = some n := by
  generalize hf : Found.there p n = f at h
  induction h with
  | arrive hat => cases hf; exact hat
  | stay _ _ _ ih => exact ih hf
  | up _ _ ih => exact ih hf
  | enter _ _ _ _ _ ih => exact ih hf
  | follow _ _ _ _ _ ih => exact ih hf
  | atLink hdir _ hn _ => cases hf; rw [at?_entry hdir, hn]
  | absent => cases hf

/-- What a way does not find is missing from a directory that is there. -/
theorem Walks.dir_absent {name : Name} (h : Walks tree followLast left place names (.absent p name) l) :
    (∃ es, tree.at? p = some (dir es) ∧ es.lookup name = none) ∧ IsStep name ∧ missing name = .notFound := by
  generalize hf : Found.absent p name = f at h
  induction h with
  | arrive => cases hf
  | stay _ _ _ ih => exact ih hf
  | up _ _ ih => exact ih hf
  | enter _ _ _ _ _ ih => exact ih hf
  | follow _ _ _ _ _ ih => exact ih hf
  | atLink => cases hf
  | absent hdir hname hn hshort => cases hf; exact ⟨⟨_, hdir, hn⟩, hname, hshort⟩

/-- A way that comes through a directory is a way to there and a way from there. -/
theorem Walks.append {n : Node} {more : List Name} {f : Found} {l' : Nat}
    (h : Walks tree true left place names (.there p n) l) (hmore : Walks tree true l p more f l') :
    Walks tree true left place (names ++ more) f l' := by
  generalize hf : Found.there p n = g at h
  induction h with
  | arrive => cases hf; exact hmore
  | stay hdir hname _ ih => exact .stay hdir hname (ih hmore hf)
  | up hdir _ ih => exact .up hdir (ih hmore hf)
  | enter hdir hname hn hlink _ ih => exact .enter hdir hname hn hlink (ih hmore hf)
  | @follow _ _ _ _ _ target rest _ hdir hname hn _ _ ih =>
      refine .follow hdir hname hn (Or.inr rfl) ?_
      show Walks tree true _ _ (targetNames target ++ (rest ++ more)) f l'
      rw [← List.append_assoc]
      exact ih hmore hf
  | atLink _ _ _ hlast => cases hlast
  | absent => cases hf

/-- Where nothing is found, it does not matter whether a link at the end would have been followed. -/
theorem Walks.absent_of_link {name : Name} (h : Walks tree false left place names (.absent p name) l) :
    Walks tree true left place names (.absent p name) l := by
  generalize hf : Found.absent p name = f at h
  induction h with
  | arrive => cases hf
  | stay hdir hname _ ih => exact .stay hdir hname (ih hf)
  | up hdir _ ih => exact .up hdir (ih hf)
  | enter hdir hname hn hlink _ ih => exact .enter hdir hname hn hlink (ih hf)
  | follow hdir hname hn _ _ ih => exact .follow hdir hname hn (Or.inr rfl) (ih hf)
  | atLink => cases hf
  | absent hdir hname hn hshort => cases hf; exact .absent hdir hname hn hshort

/-- What is found through a link at the end is found, or the link is, without following it. -/
theorem Walks.exists_link {n : Node} (h : Walks tree true left place names (.there p n) l) :
    ∃ p' n' l', Walks tree false left place names (.there p' n') l' := by
  generalize hf : Found.there p n = f at h
  induction h with
  | arrive hat => exact ⟨_, _, _, .arrive hat⟩
  | stay hdir hname _ ih =>
      obtain ⟨p', n', l', h⟩ := ih hf
      exact ⟨p', n', l', .stay hdir hname h⟩
  | up hdir _ ih =>
      obtain ⟨p', n', l', h⟩ := ih hf
      exact ⟨p', n', l', .up hdir h⟩
  | enter hdir hname hn hlink _ ih =>
      obtain ⟨p', n', l', h⟩ := ih hf
      exact ⟨p', n', l', .enter hdir hname hn hlink h⟩
  | @follow _ _ _ _ _ _ rest _ hdir hname hn _ _ ih =>
      by_cases hlast : rest = []
      · subst hlast
        exact ⟨_, _, _, .atLink hdir hname hn rfl⟩
      · obtain ⟨p', n', l', h⟩ := ih hf
        exact ⟨p', n', l', .follow hdir hname hn (Or.inl hlast) h⟩
  | atLink _ _ _ hlast => cases hlast
  | absent => cases hf

theorem Walks.not_link {n : Node} (h : Walks tree true left place names (.there p n) l)
    (hstart : ∀ target, tree.at? place ≠ some (link target)) (target : Points) : n ≠ link target := by
  -- from a directory every way but the one down leads to a directory
  have habove : ∀ {q r : Place} {es : List (Name × Node)}, tree.at? (q ++ r) = some (dir es) →
      ∀ target, tree.at? q ≠ some (link target) := by
    intro q r es hdir target hlink
    obtain ⟨es', hes'⟩ := dir_on_way hdir
    cases hlink.symm.trans hes'
  generalize hf : Found.there p n = f at h
  induction h with
  | arrive hat =>
      cases hf
      rintro rfl
      exact hstart target hat
  | stay _ _ _ ih => exact ih hstart hf
  | @up _ _ place _ _ _ hdir _ ih =>
      refine ih ?_ hf
      obtain ⟨r, hr⟩ := List.dropLast_prefix place
      exact habove (r := r) (by rw [hr]; exact hdir)
  | enter hdir _ hn hlink _ ih =>
      refine ih ?_ hf
      intro target' h
      rw [at?_entry hdir, hn] at h
      exact hlink target' (Option.some.inj h)
  | @follow _ _ place _ _ _ _ _ hdir _ _ _ _ ih =>
      refine ih ?_ hf
      unfold linkStart
      split
      · exact habove (q := []) (r := place) hdir
      · exact habove (r := []) (by rw [List.append_nil]; exact hdir)
  | atLink _ _ _ hlast => cases hlast
  | absent => cases hf

end Search

/-! ### What a path leads to -/

/-- A path leads to what stands at a place. -/
def LeadsTo (tree : Node) (cwd : Place) (p : Path) (place : Place) (n : Node) : Prop :=
  ∃ l, Walks tree true maxLinks (startOf cwd p) p.names (.there place n) l

section LeadsTo

variable {tree n : Node} {cwd place : Place} {p : Path}

theorem find_eq_there_iff : tree.find cwd p = .ok (.there place n) ↔ tree.LeadsTo cwd p place n := by
  unfold find LeadsTo
  constructor
  · intro h
    cases hw : tree.walk true maxLinks (startOf cwd p) p.names with
    | error c => rw [hw] at h; cases h
    | ok r =>
        rw [hw] at h
        obtain ⟨f, l⟩ := r
        cases h
        exact ⟨l, walk_eq_ok_iff.mp hw⟩
  · rintro ⟨l, h⟩
    rw [walk_eq_ok_iff.mpr h]
    rfl

theorem get_eq_ok_iff : tree.get cwd p = .ok n ↔ ∃ place, tree.LeadsTo cwd p place n := by
  unfold get
  constructor
  · intro h
    cases hf : tree.find cwd p with
    | error c => rw [hf] at h; cases h
    | ok f =>
        rw [hf] at h
        cases f with
        | absent d name => cases h
        | there place m => cases h; exact ⟨place, find_eq_there_iff.mp hf⟩
  · rintro ⟨place, h⟩
    rw [find_eq_there_iff.mpr h]
    rfl

theorem LeadsTo.at_there (h : tree.LeadsTo cwd p place n) : tree.at? place = some n := by
  obtain ⟨l, h⟩ := h
  exact h.at_there

/-- What is no link is not found from a link. -/
theorem LeadsTo.start_not_link (h : tree.LeadsTo cwd p place n) (hlink : ∀ target, n ≠ link target)
    (target : Points) :
    tree.at? (startOf cwd p) ≠ some (link target) := by
  obtain ⟨l, h⟩ := h
  intro hstart
  generalize p.names = names at h
  cases h with
  | arrive hat => exact hlink target (Option.some.inj (hat.symm.trans hstart))
  | stay hdir => cases hdir.symm.trans hstart
  | up hdir => cases hdir.symm.trans hstart
  | enter hdir => cases hdir.symm.trans hstart
  | follow hdir => cases hdir.symm.trans hstart
  | atLink hdir => cases hdir.symm.trans hstart

theorem LeadsTo.unique {place' : Place} {n' : Node} (h : tree.LeadsTo cwd p place n)
    (h' : tree.LeadsTo cwd p place' n') : place = place' ∧ n = n' := by
  have he := (find_eq_there_iff.mpr h).symm.trans (find_eq_there_iff.mpr h')
  cases he
  exact ⟨rfl, rfl⟩

theorem readBytes_eq_ok_iff {content : ByteArray} :
    tree.readBytes cwd p = .ok content ↔ ∃ place, tree.LeadsTo cwd p place (file content) := by
  rw [← get_eq_ok_iff]
  unfold readBytes
  constructor
  · intro h
    cases hg : tree.get cwd p with
    | error c => rw [hg] at h; cases h
    | ok m =>
        rw [hg] at h
        cases m with
        | file c => cases h; rfl
        | dir es => cases h
        | link target => cases h
  · intro h
    rw [h]
    rfl

theorem writeBytes_of_leadsTo {old : ByteArray} (h : tree.LeadsTo cwd p place (file old))
    (content : ByteArray) :
    ∃ tree', tree.writeBytes cwd p content = .ok tree' := by
  unfold writeBytes
  rw [find_eq_there_iff.mpr h]
  exact ⟨_, rfl⟩

end LeadsTo

end SolidityKit.Node
