/-
The order of a sorted listing.

Names are sorted within each directory, files and directories mixed, and the listing of a directory stands
where the name of the directory does.  The paths that come of it are in order as a whole, if a path is read as
its list of names: two paths below one directory differ first in the name of an entry, or they stand below the
same entry (`Lists.flatMap`).  The spelling of a path would not do, because names are not compared with the
slash: `a/x.sol` stands before `a-b/x.sol`.

Without links, each entry is a file or a directory, and which paths are listed can be said without a walk:
those of the files that a selection takes (`lists_collect`, by induction on the fuel, which `cost` bounds).
-/
import SolidityKit.Proofs.Files.Selecting
import SolidityKit.Proofs.Files.Plain
import Mathlib.Data.List.Lex

namespace SolidityKit

open Files

/-- The path with further names. -/
def Path.below (p : Path) (names : List Name) : Path := ⟨p.root, p.names ++ names⟩

theorem Path.entry_below (p : Path) (name : Name) (names : List Name) :
    (p.entry name).below names = p.below (name :: names) := by
  simp [below, entry]

theorem Path.below_injective (p : Path) : Function.Injective p.below := fun _ _ h =>
  List.append_cancel_left (congrArg Path.names h)

/-! ### The order of names and of lists of names -/

namespace Files

/-- The order of names: code points are compared one by one. -/
def NameLt (a b : Name) : Prop := List.Lex (· < ·) (a.map CodePoint.number) (b.map CodePoint.number)

instance : DecidableRel NameLt := fun a b =>
  inferInstanceAs (Decidable (List.Lex (· < ·) (a.map CodePoint.number) (b.map CodePoint.number)))

/-- The order of lists of names: names are compared one by one. -/
def PlaceLt : Place → Place → Prop := List.Lex NameLt

instance : DecidableRel PlaceLt := inferInstanceAs (DecidableRel (List.Lex NameLt))

/-- That is the order in which names are sorted. -/
theorem nameLt_iff {a b : Name} : NameLt a b ↔ a < b := by
  induction a generalizing b with
  | nil => cases b <;> simp [NameLt]
  | cons c a ih =>
      cases b with
      | nil => simp [NameLt]
      | cons d b =>
          rw [NameLt, List.map_cons, List.map_cons, List.cons_lex_cons_iff, List.cons_lt_cons_iff, ← ih,
            CodePoint.number_injective.eq_iff]
          exact Iff.rfl

instance : Std.Asymm PlaceLt := by
  have : Std.Asymm NameLt := ⟨fun a b hab hba => List.lt_asymm (nameLt_iff.mp hab) (nameLt_iff.mp hba)⟩
  exact inferInstanceAs (Std.Asymm (List.Lex NameLt))

end Files

namespace Selection

/-- Distinct names are gone through in strict order. -/
theorem pairwise_namesInOrder {s : Selection} (hs : s.sorted = true) {names : List Name}
    (hnodup : names.Nodup) :
    (s.namesInOrder names).Pairwise NameLt := by
  have hdistinct : (s.namesInOrder names).Nodup := (s.perm_namesInOrder names).nodup_iff.mpr hnodup
  refine ((sorted_namesInOrder hs names).and hdistinct).imp fun h => nameLt_iff.mpr ?_
  exact (List.le_iff_lt_or_eq.mp h.1).resolve_right h.2

end Selection

namespace Node

/-! ### What is listed -/

/--
The files that a selection takes below a place, by their names from there: the last name is taken, and stands
for something other than a directory.
-/
def Takes (tree : Node) (s : Selection) (place rel : Place) : Prop :=
  ∃ above name n, rel = above ++ [name] ∧ tree.at? (place ++ rel) = some n ∧ (∀ es, n ≠ dir es) ∧
    s.takes name = true

/-- The places listed are those of a kind, and in order where names are sorted. -/
structure Lists (sorted : Bool) (kind : Place → Prop) (rels : List Place) : Prop where
  /-- Nothing is missing and nothing else is listed. -/
  mem_iff : ∀ rel, rel ∈ rels ↔ kind rel
  /-- Each comes before all behind it. -/
  ordered : sorted = true → rels.Pairwise PlaceLt

/-- A sorted listing is determined by what it lists. -/
theorem Lists.unique {kind : Place → Prop} {rels rels' : List Place} (h : Lists true kind rels)
    (h' : Lists true kind rels') : rels = rels' :=
  (h.ordered rfl).eq_of_mem_iff (h'.ordered rfl) fun rel => (h.mem_iff rel).trans (h'.mem_iff rel).symm

/-- **What is listed name by name is in order as a whole, if the names are.** -/
theorem Lists.flatMap {sorted : Bool} {kind : Place → Prop} {names : List Name} {f : Name → List Place}
    (hnames : sorted = true → names.Pairwise NameLt)
    (heach : ∀ name ∈ names, Lists sorted (fun rel => rel.head? = some name ∧ kind rel) (f name))
    (hall : ∀ rel, kind rel → ∃ name ∈ names, rel.head? = some name) : Lists sorted kind (names.flatMap f) where
  mem_iff rel := by
    rw [List.mem_flatMap]
    constructor
    · rintro ⟨name, hname, hrel⟩
      exact (((heach name hname).mem_iff rel).mp hrel).2
    · intro hrel
      obtain ⟨name, hname, hhead⟩ := hall rel hrel
      exact ⟨name, hname, ((heach name hname).mem_iff rel).mpr ⟨hhead, hrel⟩⟩
  ordered hs := by
    rw [List.pairwise_flatMap]
    refine ⟨fun name hname => (heach name hname).ordered hs, (hnames hs).imp_of_mem ?_⟩
    intro a b ha hb hab u hu v hv
    obtain ⟨hu', -⟩ := ((heach a ha).mem_iff u).mp hu
    obtain ⟨hv', -⟩ := ((heach b hb).mem_iff v).mp hv
    obtain ⟨us, rfl⟩ := List.head?_eq_some_iff.mp hu'
    obtain ⟨vs, rfl⟩ := List.head?_eq_some_iff.mp hv'
    exact .rel hab

/-! ### The entries of a directory -/

section Entries

variable {tree n : Node} {s : Selection} {place rest rel : Place} {name : Name} {es sub : List (Name × Node)}

theorem at?_below_entry (hes : tree.at? place = some (dir es)) (hn : es.lookup name = some n) (rest : Place) :
    tree.at? (place ++ name :: rest) = n.at? rest := by
  rw [at?_append, hes, Option.bind_some, at?_dir_cons, hn, Option.bind_some]

/-- What is taken below a directory begins with the name of an entry. -/
theorem Takes.head (hes : tree.at? place = some (dir es)) (h : tree.Takes s place rel) :
    ∃ name ∈ es.map Prod.fst, rel.head? = some name := by
  obtain ⟨above, last, n, hrel, hat, -, -⟩ := h
  obtain ⟨name, rest, rfl⟩ := List.exists_cons_of_ne_nil (l := rel) (by simp [hrel])
  rw [at?_append, hes, Option.bind_some, at?_dir_cons] at hat
  obtain ⟨m, hm, -⟩ := Option.bind_eq_some_iff.mp hat
  exact ⟨name, mem_names_of_lookup hm, rfl⟩

/-- Of an entry that is no directory, it is taken itself or nothing is. -/
theorem takes_cons_file {c : ByteArray} (hes : tree.at? place = some (dir es))
    (hn : es.lookup name = some (file c)) :
    tree.Takes s place (name :: rest) ↔ rest = [] ∧ s.takes name = true := by
  constructor
  · rintro ⟨above, last, n, hrel, hat, -, htakes⟩
    rw [at?_below_entry hes hn] at hat
    cases rest with
    | cons k rest => cases hat
    | nil =>
        have hlast : [] ++ [name] = above ++ [last] := hrel
        obtain ⟨-, hlast⟩ := List.append_inj' hlast rfl
        cases hlast
        exact ⟨rfl, htakes⟩
  · rintro ⟨rfl, htakes⟩
    exact ⟨[], name, file c, rfl, at?_below_entry hes hn [], by simp, htakes⟩

/-- Of a directory, what is taken is what is taken below it. -/
theorem takes_cons_dir (hes : tree.at? place = some (dir es)) (hn : es.lookup name = some (dir sub)) :
    tree.Takes s place (name :: rest) ↔ tree.Takes s (place ++ [name]) rest := by
  have happend : place ++ name :: rest = place ++ [name] ++ rest := List.append_cons place name rest
  constructor
  · rintro ⟨above, last, n, hrel, hat, hdir, htakes⟩
    cases above with
    | nil =>
        -- the directory itself is not taken
        cases hrel
        rw [at?_below_entry hes hn] at hat
        exact absurd (Option.some.inj hat).symm (hdir sub)
    | cons k above =>
        obtain ⟨rfl, rfl⟩ := List.cons.inj hrel
        exact ⟨above, last, n, rfl, happend ▸ hat, hdir, htakes⟩
  · rintro ⟨above, last, n, rfl, hat, hdir, htakes⟩
    exact ⟨name :: above, last, n, rfl, happend ▸ hat, hdir, htakes⟩

theorem lists_file {sorted : Bool} {c : ByteArray} (hes : tree.at? place = some (dir es))
    (hn : es.lookup name = some (file c)) :
    Lists sorted (fun rel => rel.head? = some name ∧ tree.Takes s place rel)
      (if s.takes name then [[name]] else []) where
  mem_iff rel := by
    cases rel with
    | nil => cases s.takes name <;> simp
    | cons k rest =>
        have hmem : k :: rest ∈ (if s.takes name then [[name]] else []) ↔
            k = name ∧ rest = [] ∧ s.takes name = true := by cases s.takes name <;> simp
        rw [hmem, List.head?_cons, Option.some.injEq]
        refine and_congr_right fun hk => ?_
        rw [hk, takes_cons_file hes hn]
  ordered _ := by cases s.takes name <;> simp

theorem lists_dir {sorted : Bool} {rels : List Place} (hes : tree.at? place = some (dir es))
    (hn : es.lookup name = some (dir sub)) (h : Lists sorted (tree.Takes s (place ++ [name])) rels) :
    Lists sorted (fun rel => rel.head? = some name ∧ tree.Takes s place rel) (rels.map (name :: ·)) where
  mem_iff rel := by
    cases rel with
    | nil => simp
    | cons k rest =>
        have hmem : k :: rest ∈ rels.map (name :: ·) ↔ k = name ∧ rest ∈ rels := by simp [eq_comm, and_comm]
        rw [hmem, List.head?_cons, Option.some.injEq]
        refine and_congr_right fun hk => ?_
        rw [hk, takes_cons_dir hes hn, h.mem_iff]
  ordered hs := List.pairwise_map.mpr ((h.ordered hs).imp .cons)

end Entries

/-! ### A whole listing -/

section Listing

variable {tree : Node} {s : Selection} {cwd place : Place} {path : Path} {es : List (Name × Node)}

theorem mapM_eq_ok {α β ε : Type} {g : α → Except ε β} {f : α → β} {as : List α}
    (h : ∀ a ∈ as, g a = .ok (f a)) :
    as.mapM g = .ok (as.map f) := by
  induction as with
  | nil => rfl
  | cons a rest ih =>
      rw [List.mapM_cons, h a List.mem_cons_self, ih fun b hb => h b (List.mem_cons_of_mem a hb)]
      rfl

/-- **In a tree without links, a descent lists the files that are taken below, in order.** -/
theorem lists_collect (htidy : tree.Tidy) (hplain : tree.Plain) {fuel left : Nat}
    (hes : tree.at? place = some (dir es)) (hcost : tree.cost (place, es, left) ≤ fuel) :
    ∃ rels, tree.collect s fuel path (place, es, left) = .ok (rels.map path.below) ∧
      Lists s.sorted (tree.Takes s place) rels := by
  induction fuel generalizing path place es left with
  | zero => exact absurd hcost (by simp [cost])
  | succ fuel ih =>
      obtain ⟨hnodup, -⟩ := htidy place es hes
      have hentry : ∀ name ∈ s.namesInOrder (es.map Prod.fst), ∃ rels,
          tree.collectEntry s fuel path place left name ((es.lookup name).getD default) =
            .ok (rels.map path.below) ∧
            Lists s.sorted (fun rel => rel.head? = some name ∧ tree.Takes s place rel) rels := by
        intro name hname
        obtain ⟨hstep, n, hn⟩ := entry_of_mem_namesInOrder htidy hes hname
        have hat : tree.at? (place ++ [name]) = some n := by rw [at?_entry hes, hn]
        rw [hn]
        cases n with
        | link target => exact absurd hat (hplain _ target)
        | file c =>
            refine ⟨_, ?_, lists_file hes hn⟩
            show Except.ok _ = Except.ok _
            cases s.takes name <;> rfl
        | dir sub =>
            have hlt : tree.cost (place ++ [name], sub, left) < tree.cost (place, es, left) :=
              cost_of_open hes hstep hn rfl
            obtain ⟨rels, hcollect, hlists⟩ : ∃ rels,
                tree.collect s fuel (path.entry name) (place ++ [name], sub, left) =
                    .ok (rels.map (path.entry name).below) ∧
                  Lists s.sorted (tree.Takes s (place ++ [name])) rels := ih hat (by omega)
            refine ⟨_, ?_, lists_dir hes hn hlists⟩
            rw [List.map_map]
            refine hcollect.trans ?_
            exact congrArg Except.ok (List.map_congr_left fun rel _ => path.entry_below name rel)
      choose! f hcollect hlists using hentry
      refine ⟨(s.namesInOrder (es.map Prod.fst)).flatMap f, ?_, .flatMap (fun hs => ?_) hlists
        fun rel hrel => ?_⟩
      · rw [collect_eq hnodup, mapM_eq_ok hcollect, List.flatMap, List.map_flatten, List.map_map]
        rfl
      · exact s.pairwise_namesInOrder hs hnodup
      · obtain ⟨name, hname, hhead⟩ := hrel.head hes
        exact ⟨name, (s.perm_namesInOrder _).mem_iff.mpr hname, hhead⟩

/-- The directory that a path leads to is listed in full. -/
theorem lists_filesBelow (htidy : tree.Tidy) (hplain : tree.Plain)
    (hdir : tree.LeadsTo cwd path place (dir es)) :
    ∃ rels, tree.filesBelow cwd s path = .ok (rels.map path.below) ∧
      Lists s.sorted (tree.Takes s place) rels := by
  obtain ⟨left, hway⟩ := hdir
  obtain ⟨rels, hcollect, hlists⟩ := lists_collect htidy hplain hway.at_there (cost_of_walks hway)
  exact ⟨rels, filesBelow_eq_ok_iff.mpr ⟨place, es, left, hway, hcollect⟩, hlists⟩

end Listing

end Node

end SolidityKit
