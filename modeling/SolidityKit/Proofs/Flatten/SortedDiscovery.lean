/-
Sorted discovery.

The sources of a directory are its files with a certain ending whose names are wanted.  Sorted by name within
each directory, their paths come out in one order as a whole, which has nothing to do with the system: the
order of their lists of names below the directory.  What is found is determined by that (`discover_canonical`),
so that a listing on another machine, where the directories are in another order, is the same one.  In the
order of the system the same sources are found, each of them once.

All that is needed is a directory to begin with and a path that the system takes (`discover_succeeds_iff`).
-/
import SolidityKit.Proofs.Files.Relisting
import SolidityKit.Proofs.Files.Frames
import SolidityKit.Proofs.Flatten.Jobs
import Mathlib.Data.List.Perm.Basic

namespace SolidityKit.Flatten

open Files

/-- The query, for a listing order and without further sources. -/
def Query.listing (q : Query) (order : Points) : Query := { q with order, extra := [] }

/--
What a query looks for below a place, by its names from there: something other than a directory, whose name
ends in the suffix and is wanted.
-/
def IsSource (tree : Node) (q : Query) (place rel : Place) : Prop :=
  ∃ above name n, rel = above ++ [name] ∧ tree.at? (place ++ rel) = some n ∧ (∀ es, n ≠ .dir es) ∧
    q.suffix <:+ name ∧ q.wanted name = true

/-- What is found below a directory at a place, whatever the order in which the system lists its directories. -/
structure Canonical (dir : Path) (q : Query) (w : Workspace) (place : Place) (rels : List Place) : Prop where
  /-- These are all sources below it. -/
  mem_iff : ∀ rel, rel ∈ rels ↔ IsSource w.tree q place rel
  /-- They are in strict order, name by name from the directory on. -/
  increasing : rels.Pairwise PlaceLt
  /-- Sorted, they are found in this order. -/
  sorted : (discover dir (q.listing "sorted")).runIn w = (.ok (rels.map dir.below), w)
  /-- As the system lists them, they are found in some order. -/
  native : ∃ fs, (discover dir (q.listing "native")).runIn w = (.ok fs, w) ∧ fs.Perm (rels.map dir.below)
  /-- With the directories in any other order, the same is found, sorted. -/
  relisted : ∀ w', w'.cwd = w.cwd → w.tree.Relisted w'.tree →
    (discover dir (q.listing "sorted")).runIn w' = (.ok (rels.map dir.below), w')

variable {dir : Path} {q : Query} {w : Workspace} {place : Place} {es : List (Name × Node)}

/-- How a query selects files. -/
def Query.selection (q : Query) (sorted : Bool) : Selection :=
  { suffix := q.suffix, wanted := q.wanted, sorted }

theorem takes_selection_iff {tree : Node} {sorted : Bool} {rel : Place} :
    tree.Takes (q.selection sorted) place rel ↔ IsSource tree q place rel := by
  simp only [Node.Takes, IsSource, Selection.takes, Query.selection, Bool.and_eq_true,
    List.isSuffixOf_iff_suffix]

theorem discover_listing_iff {order : Points} (horder : order ∈ Settings.listingOrders) {fs : List Path} :
    (discover dir (q.listing order)).runIn w = (.ok fs, w) ↔
      dir.Usable ∧ w.tree.filesBelow w.cwd (q.selection (order = "sorted")) dir = .ok fs := by
  rw [discover_eq_ok_iff]
  simp only [Query.listing, Query.selection, List.append_nil, horder, true_and]
  constructor
  · rintro ⟨husable, fs, hfs, rfl⟩
    exact ⟨husable, hfs⟩
  · rintro ⟨husable, hfs⟩
    exact ⟨husable, fs, hfs, rfl⟩

/-- Looking for sources succeeds exactly if the path leads to a directory and the system takes it. -/
theorem discover_succeeds_iff (htidy : w.tree.Tidy) (hplain : w.tree.Plain) {order : Points}
    (horder : order ∈ Settings.listingOrders) :
    (∃ fs, (discover dir (q.listing order)).runIn w = (.ok fs, w)) ↔
      dir.Usable ∧ ∃ place es, w.tree.LeadsTo w.cwd dir place (.dir es) := by
  simp only [discover_listing_iff horder]
  constructor
  · rintro ⟨fs, husable, hfs⟩
    obtain ⟨place, es, left, hway, -⟩ := Node.filesBelow_eq_ok_iff.mp hfs
    exact ⟨husable, place, es, left, hway⟩
  · rintro ⟨husable, place, es, hdir⟩
    obtain ⟨rels, hfs, -⟩ := Node.lists_filesBelow (s := q.selection (order = "sorted")) htidy hplain hdir
    exact ⟨_, husable, hfs⟩

/-- **Sorted, the sources of a directory are found in an order of their own.** -/
theorem discover_canonical (htidy : w.tree.Tidy) (hplain : w.tree.Plain) (husable : dir.Usable)
    (hdir : w.tree.LeadsTo w.cwd dir place (.dir es)) : ∃ rels, Canonical dir q w place rels := by
  have hsorted : ("sorted" : Points) ∈ Settings.listingOrders := by decide
  have hnative : ("native" : Points) ∈ Settings.listingOrders := by decide
  obtain ⟨rels, hfs, hlists⟩ := Node.lists_filesBelow (s := q.selection true) htidy hplain hdir
  obtain ⟨rels', hfs', hlists'⟩ := Node.lists_filesBelow (s := q.selection false) htidy hplain hdir
  refine ⟨rels, fun rel => (hlists.mem_iff rel).trans takes_selection_iff, hlists.ordered rfl,
    (discover_listing_iff hsorted).mpr ⟨husable, hfs⟩,
    ⟨_, (discover_listing_iff hnative).mpr ⟨husable, hfs'⟩, ?_⟩, ?_⟩
  · -- both listings have the same paths, and neither has one twice
    rw [List.perm_ext_iff_of_nodup (Node.nodup_filesBelow htidy hfs') (Node.nodup_filesBelow htidy hfs)]
    have hmem : ∀ rel, rel ∈ rels' ↔ rel ∈ rels := fun rel => by
      rw [hlists'.mem_iff, hlists.mem_iff, takes_selection_iff, takes_selection_iff]
    intro p
    simp only [List.mem_map, hmem]
  · intro w' hcwd hrel
    refine (discover_listing_iff hsorted).mpr ⟨husable, ?_⟩
    rw [hcwd]
    exact (Node.filesBelow_relisted htidy hplain hrel rfl hdir).trans hfs

/-- The entries of a directory in which names begin alike, out of order. -/
def shuffledEntries : List (Name × Node) :=
  [("a.sol", .file .empty), ("a-b", .dir [("x.sol", .file .empty)]),
    ("a", .dir [("c.sol", .file .empty), ("notes.md", .file .empty), ("B.sol", .file .empty)])]

/-- A tree with that directory. -/
def shuffledTree : Node := .dir [("src", .dir shuffledEntries)]

/-- Name by name, what is below `a` comes before what is below `a-b`, and that before `a.sol`. -/
theorem discover_canonical_shuffled :
    shuffledTree.Tidy ∧ shuffledTree.Plain ∧ Path.Usable ⟨.top, ["src"]⟩ ∧
      shuffledTree.LeadsTo [] ⟨.top, ["src"]⟩ ["src"] (.dir shuffledEntries) ∧
      Canonical ⟨.top, ["src"]⟩ {} { tree := shuffledTree } ["src"]
        [["a", "B.sol"], ["a", "c.sol"], ["a-b", "x.sol"], ["a.sol"]] := by
  have hsound := Node.sound_of_isSound (show shuffledTree.isSound = true by decide)
  have husable : Path.Usable ⟨.top, ["src"]⟩ := by decide
  have hdir : shuffledTree.LeadsTo [] ⟨.top, ["src"]⟩ ["src"] (.dir shuffledEntries) :=
    ⟨_, Node.walk_eq_ok_iff.mp rfl⟩
  refine ⟨hsound.tidy, hsound.plain, husable, hdir, ?_⟩
  obtain ⟨rels, h⟩ := discover_canonical (q := {}) (w := { tree := shuffledTree }) hsound.tidy hsound.plain
    husable hdir
  -- the sources are those that are found as the tree lists them, and there is one order for them
  have hfound : shuffledTree.filesBelow [] { sorted := false } ⟨.top, ["src"]⟩ =
      .ok (([["a.sol"], ["a-b", "x.sol"], ["a", "c.sol"], ["a", "B.sol"]] : List Place).map
        (Path.below ⟨.top, ["src"]⟩)) := by
    decide
  have horder : ("native" : Points) ∈ Settings.listingOrders := by decide
  have hnative := (discover_listing_iff (q := {}) (w := { tree := shuffledTree }) horder).mpr ⟨husable, hfound⟩
  obtain ⟨fs, hfs, hperm⟩ := h.native
  obtain rfl : _ = fs := Except.ok.inj (congrArg Prod.fst (hnative.symm.trans hfs))
  have hsame := (List.map_perm_map_iff (Path.below_injective _)).mp hperm
  have hrels : rels = ([["a", "B.sol"], ["a", "c.sol"], ["a-b", "x.sol"], ["a.sol"]] : List Place) :=
    (hsame.symm.trans (by decide)).eq_of_pairwise (fun _ _ _ _ => antisymm) h.increasing (by decide)
  exact hrels ▸ h

end SolidityKit.Flatten
