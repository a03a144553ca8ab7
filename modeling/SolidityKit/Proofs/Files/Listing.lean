/-
Listings of trees that have grown.

Going through a directory is going through its names in order (`collect_eq`), so that a listing before and a
listing after can be compared name by name: a tree that has grown has the old names in their old order, with
new ones in between (`filter_namesInOrder`).

The descent goes down the tree until it follows a link, and then it has one link less to follow.  `cost` is
what this leaves to spend, and it drops at every step; so the fuel of `filesBelow` is enough, and
`collect_grows` can be an induction on the fuel of the later listing.  What it says is that a tree that has
grown lists the same files, unless one that has been written is among them, or a link that led to no directory
leads to one now.
-/
import SolidityKit.Files.Listing
import SolidityKit.Proofs.Files.Growth
import SolidityKit.Proofs.Results
import SolidityKit.Proofs.Text.CodePoints
import Mathlib.Data.List.Sort

namespace SolidityKit

open Files

namespace Selection

/-- Names in the order in which they are gone through. -/
def namesInOrder (s : Selection) (names : List Name) : List Name :=
  if s.sorted then names.mergeSort fun a b => decide (a ≤ b) else names

theorem map_inOrder (s : Selection) (es : List (Name × Node)) :
    (s.inOrder es).map Prod.fst = s.namesInOrder (es.map Prod.fst) := by
  unfold inOrder namesInOrder
  by_cases hs : s.sorted = true
  · rw [if_pos hs, if_pos hs]
    exact List.map_mergeSort fun _ _ _ _ => rfl
  · rw [if_neg hs, if_neg hs]

theorem perm_inOrder (s : Selection) (es : List (Name × Node)) : (s.inOrder es).Perm es := by
  unfold inOrder
  split
  · exact List.mergeSort_perm _ _
  · exact List.Perm.refl _

theorem perm_namesInOrder (s : Selection) (names : List Name) : (s.namesInOrder names).Perm names := by
  unfold namesInOrder
  split
  · exact List.mergeSort_perm _ _
  · exact List.Perm.refl _

/-- Where names are distinct, going through the entries is going through the names. -/
theorem inOrder_eq (s : Selection) {es : List (Name × Node)} (hnodup : (es.map Prod.fst).Nodup) :
    s.inOrder es = (s.namesInOrder (es.map Prod.fst)).map fun name =>
      (name, (es.lookup name).getD default) := by
  rw [← map_inOrder, List.map_map]
  refine (List.map_id _).symm.trans (List.map_congr_left fun e he => ?_)
  have hmem : (e.1, e.2) ∈ es := (s.perm_inOrder es).mem_iff.mp he
  show e = (e.1, (es.lookup e.1).getD default)
  rw [Node.lookup_of_mem hnodup hmem]
  rfl

/-- Names gone through by name are in order. -/
theorem sorted_namesInOrder {s : Selection} (hs : s.sorted = true) (names : List Name) :
    (s.namesInOrder names).Pairwise (· ≤ ·) := by
  rw [namesInOrder, if_pos hs]
  exact List.pairwise_mergeSort' (· ≤ ·) names

/-- The old names among the names of a directory that has grown are in their old order. -/
theorem filter_namesInOrder (s : Selection) {names names' : List Name} (hnames : names <+: names')
    (hnodup : names'.Nodup) :
    (s.namesInOrder names').filter (fun name => decide (name ∈ names)) = s.namesInOrder names := by
  have hfilter : names'.filter (fun name => decide (name ∈ names)) = names := by
    obtain ⟨more, rfl⟩ := hnames
    obtain ⟨-, -, hdisjoint⟩ := List.nodup_append'.mp hnodup
    have hall : ∀ name ∈ names, decide (name ∈ names) = true := fun name h => by simpa using h
    have hnone : ∀ name ∈ more, ¬ decide (name ∈ names) = true := fun name hmore h =>
      hdisjoint (by simpa using h) hmore
    rw [List.filter_append, List.filter_eq_self.mpr hall, List.filter_eq_nil_iff.mpr hnone, List.append_nil]
  by_cases hs : s.sorted = true
  · refine List.Perm.eq_of_pairwise' ((sorted_namesInOrder hs names').filter _)
      (sorted_namesInOrder hs names) ?_
    have hperm := (s.perm_namesInOrder names').filter fun name => decide (name ∈ names)
    rw [hfilter] at hperm
    exact hperm.trans (s.perm_namesInOrder names).symm
  · rw [namesInOrder, namesInOrder, if_neg hs, if_neg hs, hfilter]

end Selection

namespace Node

/-! ### Going through a directory -/

/-- What is listed of an entry. -/
def collectEntry (tree : Node) (s : Selection) (fuel : Nat) (path : Path) (place : Place) (left : Nat)
    (name : Name) (n : Node) : Except Fault (List Path) :=
  match tree.open? left place name n with
  | .error c => .error ⟨c, (path.entry name).spelling⟩
  | .ok (some opened) => collect tree s fuel (path.entry name) opened
  | .ok none => .ok (if s.takes name then [path.entry name] else [])

theorem collect_succ (tree : Node) (s : Selection) (fuel : Nat) (path : Path) (place : Place)
    (es : List (Name × Node)) (left : Nat) :
    tree.collect s (fuel + 1) path (place, es, left) =
      ((s.inOrder es).mapM fun e => tree.collectEntry s fuel path place left e.1 e.2).map List.flatten := by
  have hcollect : tree.collect s (fuel + 1) path (place, es, left) =
      ((s.inOrder es).mapM fun e => tree.collectEntry s fuel path place left e.1 e.2) >>= fun found =>
        pure found.flatten := rfl
  rw [hcollect]
  cases (s.inOrder es).mapM fun e => tree.collectEntry s fuel path place left e.1 e.2 <;> rfl

theorem collect_eq {tree : Node} {s : Selection} {fuel : Nat} {path : Path} {place : Place}
    {es : List (Name × Node)} {left : Nat} (hnodup : (es.map Prod.fst).Nodup) :
    tree.collect s (fuel + 1) path (place, es, left) =
      ((s.namesInOrder (es.map Prod.fst)).mapM fun name =>
        tree.collectEntry s fuel path place left name ((es.lookup name).getD default)).map List.flatten := by
  rw [collect_succ, s.inOrder_eq hnodup, List.mapM_map]
  rfl

theorem collect_eq_ok {tree : Node} {s : Selection} {fuel : Nat} {path : Path} {place : Place}
    {es : List (Name × Node)} {left : Nat} {fs : List Path} (hnodup : (es.map Prod.fst).Nodup)
    (h : tree.collect s (fuel + 1) path (place, es, left) = .ok fs) :
    ∃ xs, ((s.namesInOrder (es.map Prod.fst)).mapM fun name =>
        tree.collectEntry s fuel path place left name ((es.lookup name).getD default)) = .ok xs ∧
        fs = xs.flatten := by
  rw [collect_eq hnodup] at h
  obtain ⟨xs, hxs, rfl⟩ := map_eq_ok h
  exact ⟨xs, hxs, rfl⟩

/-- A listing starts where the path leads, and that is a directory. -/
theorem filesBelow_eq_ok_iff {tree : Node} {cwd : Place} {s : Selection} {path : Path} {fs : List Path} :
    tree.filesBelow cwd s path = .ok fs ↔
      ∃ place es left, Walks tree true maxLinks (startOf cwd path) path.names (.there place (dir es)) left ∧
        tree.collect s ((maxLinks + 1) * (tree.height + 1)) path (place, es, left) = .ok fs := by
  unfold filesBelow
  constructor
  · intro h
    cases hw : tree.walk true maxLinks (startOf cwd path) path.names with
    | error c => rw [hw] at h; cases h
    | ok r =>
        rw [hw] at h
        obtain ⟨f, left⟩ := r
        cases f with
        | absent d name => cases h
        | there place n =>
            cases n with
            | file c => cases h
            | link target => cases h
            | dir es => exact ⟨place, es, left, walk_eq_ok_iff.mp hw, h⟩
  · rintro ⟨place, es, left, hway, h⟩
    rw [walk_eq_ok_iff.mpr hway]
    exact h

theorem mem_of_mapM {α β ε : Type} {g : α → Except ε (List β)} {as : List α} {xs : List (List β)}
    (h : as.mapM g = .ok xs) {b : β} (hb : b ∈ xs.flatten) : ∃ a ∈ as, ∃ x, g a = .ok x ∧ b ∈ x := by
  induction as generalizing xs with
  | nil =>
      cases h
      cases hb
  | cons a rest ih =>
      obtain ⟨x, more, hx, hmore, rfl⟩ := mapM_cons_eq_ok_iff.mp h
      rcases List.mem_append.mp hb with hb | hb
      · exact ⟨a, List.mem_cons_self, x, hx, hb⟩
      · obtain ⟨a', ha', x', hx', hb'⟩ := ih hmore hb
        exact ⟨a', List.mem_cons_of_mem a ha', x', hx', hb'⟩

/-- Listings name by name: where the old names list what they listed and the new ones nothing, as long as all
that is listed is good, both listings are the same. -/
theorem mapM_filter {α β ε : Type} {old : α → Bool} {good : β → Prop} {g g' : α → Except ε (List β)}
    (names : List α)
    (hold : ∀ a ∈ names, old a = true → ∀ x, g a = .ok x → ∃ x', g' a = .ok x' ∧ ((∀ b ∈ x', good b) → x' = x))
    (hnew : ∀ a ∈ names, old a = false → ∃ x', g' a = .ok x' ∧ ((∀ b ∈ x', good b) → x' = []))
    {xs : List (List β)} (h : (names.filter old).mapM g = .ok xs) :
    ∃ xs', names.mapM g' = .ok xs' ∧ ((∀ b ∈ xs'.flatten, good b) → xs'.flatten = xs.flatten) := by
  induction names generalizing xs with
  | nil =>
      cases h
      exact ⟨[], rfl, fun _ => rfl⟩
  | cons a rest ih =>
      have ih' {ys : List (List β)} (h : (rest.filter old).mapM g = .ok ys) :=
        ih (fun b hb => hold b (List.mem_cons_of_mem a hb)) (fun b hb => hnew b (List.mem_cons_of_mem a hb)) h
      by_cases ha : old a = true
      · rw [List.filter_cons_of_pos ha] at h
        obtain ⟨x, ys, hx, hys, rfl⟩ := mapM_cons_eq_ok_iff.mp h
        obtain ⟨xs', hxs', hsame⟩ := ih' hys
        obtain ⟨x', hx', hsame'⟩ := hold a List.mem_cons_self ha x hx
        refine ⟨x' :: xs', mapM_cons_eq_ok_iff.mpr ⟨x', xs', hx', hxs', rfl⟩, fun hgood => ?_⟩
        rw [List.flatten_cons] at hgood ⊢
        rw [hsame' fun b hb => hgood b (List.mem_append_left _ hb),
          hsame fun b hb => hgood b (List.mem_append_right _ hb), List.flatten_cons]
      · rw [List.filter_cons_of_neg ha] at h
        obtain ⟨xs', hxs', hsame⟩ := ih' h
        obtain ⟨x', hx', hempty⟩ := hnew a List.mem_cons_self (by simpa using ha)
        refine ⟨x' :: xs', mapM_cons_eq_ok_iff.mpr ⟨x', xs', hx', hxs', rfl⟩, fun hgood => ?_⟩
        rw [List.flatten_cons] at hgood ⊢
        rw [hempty fun b hb => hgood b (List.mem_append_left _ hb),
          hsame fun b hb => hgood b (List.mem_append_right _ hb), List.nil_append]

/-! ### What a descent has to spend -/

/-- How far a descent from an opened directory can go: down from there, and down from the top once for each
link that may still be followed. -/
def cost (tree : Node) (o : Opened) : Nat := o.2.2 * (tree.height + 1) + entriesHeight o.2.1 + 1

theorem height_le_of_mem {name : Name} {n : Node} {es : List (Name × Node)} (h : (name, n) ∈ es) :
    n.height ≤ entriesHeight es := by
  induction es with
  | nil => cases h
  | cons e rest ih =>
      obtain ⟨k, m⟩ := e
      unfold entriesHeight
      rcases List.mem_cons.mp h with he | hmem
      · cases he
        exact le_max_left _ _
      · exact (ih hmem).trans (le_max_right _ _)

theorem height_le_of_lookup {name : Name} {n : Node} {es : List (Name × Node)} (h : es.lookup name = some n) :
    n.height ≤ entriesHeight es := by
  obtain ⟨l₁, l₂, rfl, -⟩ := List.lookup_eq_some_iff.mp h
  have hmem : (name, n) ∈ l₁ ++ (name, n) :: l₂ := by simp
  exact height_le_of_mem hmem

theorem height_at? {tree n : Node} {place : Place} (h : tree.at? place = some n) : n.height ≤ tree.height := by
  induction place generalizing tree with
  | nil =>
      cases h
      exact le_refl _
  | cons name rest ih =>
      cases tree with
      | dir es =>
          rw [at?_dir_cons] at h
          obtain ⟨m, hm, hrest⟩ := Option.bind_eq_some_iff.mp h
          have hle := (ih hrest).trans (height_le_of_lookup hm)
          show n.height ≤ entriesHeight es + 1
          omega
      | file c => cases h
      | link target => cases h

theorem Walks.left_le {tree : Node} {followLast : Bool} {left l : Nat} {place : Place} {names : List Name}
    {f : Found} (h : Walks tree followLast left place names f l) : l ≤ left := by
  induction h with
  | arrive => exact le_refl _
  | stay _ _ _ ih => exact ih
  | up _ _ ih => exact ih
  | enter _ _ _ _ _ ih => exact ih
  | follow _ _ _ _ _ ih => omega
  | atLink => exact le_refl _
  | absent => exact le_refl _

section Entry

variable {tree n : Node} {left l : Nat} {place q : Place} {name : Name} {es sub : List (Name × Node)}

/-- An entry opens a directory if it is one or leads to one. -/
theorem open?_eq_some_iff (hes : tree.at? place = some (dir es)) (hname : IsStep name)
    (hn : es.lookup name = some n) :
    tree.open? left place name n = .ok (some (q, sub, l)) ↔
      Walks tree true left place [name] (.there q (dir sub)) l := by
  rw [← walk_eq_ok_iff]
  have hat : tree.at? (place ++ [name]) = some n := by rw [at?_entry hes, hn]
  cases n with
  | dir es' =>
      rw [walk_enter hes hname hn (by simp), walk_nil, hat]
      simp only [open?, Option.elim_some, Except.ok.injEq, Option.some.injEq, Prod.mk.injEq, Found.there.injEq,
        Node.dir.injEq]
      tauto
  | file c =>
      rw [walk_enter hes hname hn (by simp), walk_nil, hat]
      simp [open?]
  | link target =>
      simp only [open?]
      cases tree.walk true left place [name] with
      | error c => cases c <;> simp
      | ok r =>
          obtain ⟨f, l'⟩ := r
          cases f with
          | absent d k => simp
          | there p m =>
              cases m with
              | dir es' =>
                  simp only [Except.ok.injEq, Option.some.injEq, Prod.mk.injEq, Found.there.injEq,
                    Node.dir.injEq]
                  tauto
              | file c => simp
              | link target' => simp

theorem cost_of_open {o : Opened} (hes : tree.at? place = some (dir es)) (hname : IsStep name)
    (hn : es.lookup name = some n) (h : tree.open? left place name n = .ok (some o)) :
    tree.cost o < tree.cost (place, es, left) := by
  obtain ⟨q, sub, l⟩ := o
  show l * (tree.height + 1) + entriesHeight sub + 1 < left * (tree.height + 1) + entriesHeight es + 1
  cases n with
  | dir es' =>
      cases h
      have hle : entriesHeight sub + 1 ≤ entriesHeight es := height_le_of_lookup hn
      omega
  | file c => cases h
  | link target =>
      have hwalk := (open?_eq_some_iff hes hname hn).mp h
      have hle : entriesHeight sub + 1 ≤ tree.height := height_at? hwalk.at_there
      -- the link was followed, so that there is one less to follow
      have hlt : l + 1 ≤ left := by
        cases hwalk with
        | stay _ hstay _ => exact absurd hstay (by simp [hname.1, hname.2.1])
        | up _ _ => exact absurd rfl hname.2.2
        | enter hdir _ hn' hlink _ =>
            cases hes.symm.trans hdir
            exact absurd (Option.some.inj (hn'.symm.trans hn)) (hlink target)
        | follow _ _ _ _ hrest =>
            have := hrest.left_le
            omega
      have hmul := Nat.mul_le_mul_right (tree.height + 1) hlt
      rw [Nat.succ_mul] at hmul
      omega

/-- At the start there is one link more to spend than can be followed, so that the fuel of a
listing is enough. -/
theorem cost_of_walks {start : Place} {names : List Name}
    (hway : Walks tree true maxLinks start names (.there place (dir es)) left) :
    tree.cost (place, es, left) ≤ (maxLinks + 1) * (tree.height + 1) := by
  have hleft := Nat.mul_le_mul_right (tree.height + 1) hway.left_le
  have hheight : entriesHeight es + 1 ≤ tree.height := height_at? hway.at_there
  show left * (tree.height + 1) + entriesHeight es + 1 ≤ (maxLinks + 1) * (tree.height + 1)
  rw [Nat.succ_mul]
  omega

end Entry

/-! ### Listing again -/

/-- The directories that a listing goes through, from where it starts. -/
inductive Reached (tree : Node) (start : Opened) : Opened → Prop
  /-- It starts there. -/
  | start : Reached tree start start
  /-- An entry of a directory that it goes through opens another one. -/
  | down {place : Place} {es : List (Name × Node)} {left : Nat} {name : Name} {n : Node} {o : Opened}
      (hup : Reached tree start (place, es, left)) (hn : (name, n) ∈ es)
      (hopen : tree.open? left place name n = .ok (some o)) : Reached tree start o

theorem Reached.of_opened {tree n : Node} {place : Place} {es : List (Name × Node)} {left : Nat} {name : Name}
    {o o' : Opened} (hn : (name, n) ∈ es) (hopen : tree.open? left place name n = .ok (some o))
    (h : Reached tree o o') : Reached tree (place, es, left) o' := by
  induction h with
  | start => exact .down .start hn hopen
  | down _ hn' hopen' ih => exact .down ih hn' hopen'

/-- The links that a listing meets and that led to no directory lead to none now. -/
def LinksStay (before after : Node) (start : Opened) : Prop :=
  ∀ place es left, Reached before start (place, es, left) → ∀ name target, (name, link target) ∈ es →
    before.open? left place name (link target) = .ok none → after.open? left place name (link target) = .ok none

/-- The path does not lead to where something was written. -/
def Untouched (tree : Node) (cwd : Place) (written : Place → Prop) (p : Path) : Prop :=
  ∀ place n, tree.LeadsTo cwd p place n → ¬ written place

/-- A listing comes to an end, and lists some files again unless something that was written is listed too. -/
def Relists (tree : Node) (cwd : Place) (written : Place → Prop) (listed : Except Fault (List Path))
    (fs : List Path) : Prop :=
  ∃ fs', listed = .ok fs' ∧ ((∀ p ∈ fs', tree.Untouched cwd written p) → fs' = fs)

/-- What a directory listed before: nothing if it was not there. -/
inductive ListedBefore (before after : Node) (s : Selection) (path : Path) (place : Place) (left : Nat) :
    List Path → Prop
  /-- It was not there. -/
  | new (hnone : before.at? place = none) : ListedBefore before after s path place left []
  /-- It was gone through. -/
  | old {es : List (Name × Node)} {fuel : Nat} {fs : List Path} (hes : before.at? place = some (dir es))
      (hfs : before.collect s fuel path (place, es, left) = .ok fs)
      (hlinks : LinksStay before after (place, es, left)) :
      ListedBefore before after s path place left fs

section Again

variable {written : Place → Prop} {before after : Node} {cwd place : Place} {s : Selection} {fuel left : Nat}
  {path : Path} {es es' : List (Name × Node)} {name : Name}

theorem Walks.entry {q : Place} {n : Node} {l : Nat}
    (h : Walks after true maxLinks (startOf cwd path) path.names (.there place (dir es')) left)
    (hentry : Walks after true left place [name] (.there q n) l) :
    Walks after true maxLinks (startOf cwd (path.entry name)) (path.entry name).names (.there q n) l :=
  h.append hentry

/-- What one more step of a listing needs to know about the next. -/
def RelistsBelow (before after : Node) (cwd : Place) (written : Place → Prop) (s : Selection) (fuel : Nat) :
    Prop :=
  ∀ path place es' left fs, after.at? place = some (dir es') → after.cost (place, es', left) ≤ fuel →
    Walks after true maxLinks (startOf cwd path) path.names (.there place (dir es')) left →
    ListedBefore before after s path place left fs →
      Relists after cwd written (after.collect s fuel path (place, es', left)) fs

/-- A name that was not there lists nothing but what was written. -/
theorem relists_new (hgrows : Grows written before after)
    (hbelow : RelistsBelow before after cwd written s fuel)
    (hes' : after.at? place = some (dir es')) (hcost : after.cost (place, es', left) ≤ fuel + 1)
    (hway : Walks after true maxLinks (startOf cwd path) path.names (.there place (dir es')) left)
    (hname : IsStep name) {n' : Node} (hn' : es'.lookup name = some n')
    (hnone : before.at? (place ++ [name]) = none) :
    Relists after cwd written (after.collectEntry s fuel path place left name n') [] := by
  have hat : after.at? (place ++ [name]) = some n' := by rw [at?_entry hes', hn']
  cases n' with
  | dir sub' =>
      have hlt : after.cost (place ++ [name], sub', left) < after.cost (place, es', left) :=
        cost_of_open hes' hname hn' rfl
      have hentry : Walks after true left place [name] (.there (place ++ [name]) (dir sub')) left :=
        .enter hes' hname hn' (by simp) (.arrive hat)
      exact hbelow _ _ _ _ _ hat (by omega) (hway.entry hentry) (.new hnone)
  | file c =>
      refine ⟨_, rfl, fun hgood => ?_⟩
      by_cases htakes : s.takes name = true
      · rw [if_pos htakes] at hgood
        have hentry : Walks after true left place [name] (.there (place ++ [name]) (file c)) left :=
          .enter hes' hname hn' (by simp) (.arrive hat)
        have huntouched := hgood _ List.mem_cons_self _ _ ⟨left, hway.entry hentry⟩
        cases hnone.symm.trans ((hgrows.file huntouched).mp hat)
      · rw [if_neg htakes]
  | link target => cases hnone.symm.trans (hgrows.link.mp hat)

/-- A name that leads to no directory leads to none later. -/
theorem open?_none_of_grows (hgrows : Grows written before after) (hes : before.at? place = some (dir es))
    (hes' : after.at? place = some (dir es')) (hlinks : LinksStay before after (place, es, left)) {n n' : Node}
    (hn : es.lookup name = some n) (hmem : (name, n) ∈ es) (hn' : es'.lookup name = some n')
    (hopen : before.open? left place name n = .ok none) : after.open? left place name n' = .ok none := by
  have hat : before.at? (place ++ [name]) = some n := by rw [at?_entry hes, hn]
  rw [← at?_entry hes'] at hn'
  cases n with
  | dir sub => cases hopen
  | file c =>
      obtain ⟨c', hc'⟩ := hgrows.stays hat
      cases hn'.symm.trans hc'
      rfl
  | link target =>
      cases hn'.symm.trans (hgrows.link.mpr hat)
      exact hlinks place es left .start name target hmem hopen

/-- A name that was there lists what it listed, besides what was written. -/
theorem relists_old (hgrows : Grows written before after)
    (hbelow : RelistsBelow before after cwd written s fuel)
    (hes : before.at? place = some (dir es)) (hes' : after.at? place = some (dir es'))
    (hcost : after.cost (place, es', left) ≤ fuel + 1)
    (hway : Walks after true maxLinks (startOf cwd path) path.names (.there place (dir es')) left)
    (hlinks : LinksStay before after (place, es, left)) (hname : IsStep name) {n n' : Node}
    (hn : es.lookup name = some n) (hmem : (name, n) ∈ es) (hn' : es'.lookup name = some n') {f : Nat}
    {fs : List Path} (hfs : before.collectEntry s f path place left name n = .ok fs) :
    Relists after cwd written (after.collectEntry s fuel path place left name n') fs := by
  unfold collectEntry at hfs
  cases hopen : before.open? left place name n with
  | error c => rw [hopen] at hfs; cases hfs
  | ok o? =>
      rw [hopen] at hfs
      cases o? with
      | some o =>
          obtain ⟨q, sub, l⟩ := o
          have hentry := (open?_eq_some_iff hes hname hn).mp hopen
          obtain ⟨m, hentry'⟩ := hentry.grows hgrows
          obtain ⟨sub', hsub', -⟩ := hgrows.dir hentry.at_there
          cases hentry'.at_there.symm.trans hsub'
          have hopen' := (open?_eq_some_iff hes' hname hn').mpr hentry'
          have hlt := cost_of_open hes' hname hn' hopen'
          have hlinks' : LinksStay before after (q, sub, l) :=
            fun place es left hreached => hlinks place es left (.of_opened hmem hopen hreached)
          unfold collectEntry
          rw [hopen']
          exact hbelow _ _ _ _ _ hsub' (by omega) (hway.entry hentry') (.old hentry.at_there hfs hlinks')
      | none =>
          have hopen' := open?_none_of_grows hgrows hes hes' hlinks hn hmem hn' hopen
          unfold collectEntry
          rw [hopen']
          exact ⟨fs, hfs, fun _ => rfl⟩

/-- What is gone through in a tidy directory are its entries. -/
theorem entry_of_mem_namesInOrder {tree : Node} (htidy : tree.Tidy) (hes : tree.at? place = some (dir es))
    (h : name ∈ s.namesInOrder (es.map Prod.fst)) : IsStep name ∧ ∃ n, es.lookup name = some n := by
  obtain ⟨hnodup, hsteps⟩ := htidy place es hes
  rw [(s.perm_namesInOrder _).mem_iff] at h
  obtain ⟨⟨k, n⟩, hmem, rfl⟩ := List.mem_map.mp h
  exact ⟨hsteps _ h, n, lookup_of_mem hnodup hmem⟩

/-- A directory that was not there lists nothing but what was written. -/
theorem relists_new_dir (hgrows : Grows written before after) (htidy : after.Tidy)
    (hbelow : RelistsBelow before after cwd written s fuel) (hes' : after.at? place = some (dir es'))
    (hcost : after.cost (place, es', left) ≤ fuel + 1)
    (hway : Walks after true maxLinks (startOf cwd path) path.names (.there place (dir es')) left)
    (hnone : before.at? place = none) :
    Relists after cwd written (after.collect s (fuel + 1) path (place, es', left)) [] := by
  have hnew (name : Name) (h : name ∈ s.namesInOrder (es'.map Prod.fst)) :
      Relists after cwd written
        (after.collectEntry s fuel path place left name ((es'.lookup name).getD default)) [] := by
    obtain ⟨hname, n', hn'⟩ := entry_of_mem_namesInOrder htidy hes' h
    rw [hn']
    exact relists_new hgrows hbelow hes' hcost hway hname hn' (by rw [at?_append, hnone]; rfl)
  have hnothing : ((s.namesInOrder (es'.map Prod.fst)).filter fun _ => false).mapM
      (fun _ : Name => (.ok [] : Except Fault (List Path))) = .ok [] := by
    rw [List.filter_false]
    rfl
  obtain ⟨xs', hxs', hsame⟩ :=
    mapM_filter _ (fun _ _ hold => absurd hold (by simp)) (fun name h _ => hnew name h)
    hnothing
  rw [collect_eq (htidy place es' hes').1, hxs']
  exact ⟨xs'.flatten, rfl, hsame⟩

/-- A directory that was there lists what it listed, besides what was written. -/
theorem relists_old_dir (hgrows : Grows written before after) (htidy : before.Tidy)
    (hbelow : RelistsBelow before after cwd written s fuel) (hes : before.at? place = some (dir es))
    (hes' : after.at? place = some (dir es')) (hcost : after.cost (place, es', left) ≤ fuel + 1)
    (hway : Walks after true maxLinks (startOf cwd path) path.names (.there place (dir es')) left)
    (hlinks : LinksStay before after (place, es, left)) {f : Nat} {fs : List Path}
    (hfs : before.collect s (f + 1) path (place, es, left) = .ok fs) :
    Relists after cwd written (after.collect s (fuel + 1) path (place, es', left)) fs := by
  have htidy' := hgrows.tidy htidy
  have hnodup := (htidy place es hes).1
  have hnodup' := (htidy' place es' hes').1
  have hnames : es.map Prod.fst <+: es'.map Prod.fst := by
    obtain ⟨es₁, hes₁, hnames⟩ := hgrows.dir hes
    cases hes'.symm.trans hes₁
    exact hnames
  have hold (name : Name) (h : name ∈ s.namesInOrder (es'.map Prod.fst))
      (hmem : decide (name ∈ es.map Prod.fst) = true) (x : List Path)
      (hx : before.collectEntry s f path place left name ((es.lookup name).getD default) = .ok x) :
      Relists after cwd written
        (after.collectEntry s fuel path place left name ((es'.lookup name).getD default)) x := by
    obtain ⟨hname, n', hn'⟩ := entry_of_mem_namesInOrder htidy' hes' h
    obtain ⟨⟨k, n⟩, hpair, rfl⟩ := List.mem_map.mp (of_decide_eq_true hmem)
    have hn := lookup_of_mem hnodup hpair
    rw [hn] at hx
    rw [hn']
    exact relists_old hgrows hbelow hes hes' hcost hway hlinks hname hn hpair hn' hx
  have hnew (name : Name) (h : name ∈ s.namesInOrder (es'.map Prod.fst))
      (hmem : decide (name ∈ es.map Prod.fst) = false) :
      Relists after cwd written
        (after.collectEntry s fuel path place left name ((es'.lookup name).getD default)) [] := by
    obtain ⟨hname, n', hn'⟩ := entry_of_mem_namesInOrder htidy' hes' h
    rw [hn']
    refine relists_new hgrows hbelow hes' hcost hway hname hn' ?_
    rw [at?_entry hes]
    cases hn : es.lookup name with
    | none => rfl
    | some n => exact absurd (mem_names_of_lookup hn) (of_decide_eq_false hmem)
  obtain ⟨xs, hxs, rfl⟩ := collect_eq_ok hnodup hfs
  rw [← s.filter_namesInOrder hnames hnodup'] at hxs
  obtain ⟨xs', hxs', hsame⟩ := mapM_filter _ hold hnew hxs
  rw [collect_eq hnodup', hxs']
  exact ⟨xs'.flatten, rfl, hsame⟩

/-- A directory lists what it listed before, besides what was written. -/
theorem relistsBelow (hgrows : Grows written before after) (htidy : before.Tidy) (fuel : Nat) :
    RelistsBelow before after cwd written s fuel := by
  induction fuel with
  | zero =>
      intro path place es' left fs _ hcost
      exact absurd hcost (by unfold cost; omega)
  | succ fuel ih =>
      intro path place es' left fs hes' hcost hway hbefore
      cases hbefore with
      | new hnone => exact relists_new_dir hgrows (hgrows.tidy htidy) ih hes' hcost hway hnone
      | @old es f fs hes hfs hlinks =>
          cases f with
          | zero => cases hfs
          | succ f => exact relists_old_dir hgrows htidy ih hes hes' hcost hway hlinks hfs

/-- The listing of a path starts where the path leads, and goes through no link that came to lead elsewhere. -/
def LinksStayBelow (before after : Node) (cwd : Place) (path : Path) : Prop :=
  ∀ place es left, Walks before true maxLinks (startOf cwd path) path.names (.there place (dir es)) left →
    LinksStay before after (place, es, left)

/-- A tree that has grown lists below a path what it listed before, besides what was written. -/
theorem relists_filesBelow (hgrows : Grows written before after) (htidy : before.Tidy)
    (hlinks : LinksStayBelow before after cwd path) {fs : List Path}
    (hfs : before.filesBelow cwd s path = .ok fs) :
    Relists after cwd written (after.filesBelow cwd s path) fs := by
  obtain ⟨place, es, left, hway, hcollect⟩ := filesBelow_eq_ok_iff.mp hfs
  obtain ⟨n', hway'⟩ := hway.grows hgrows
  obtain ⟨es', hes', -⟩ := hgrows.dir hway.at_there
  cases hway'.at_there.symm.trans hes'
  obtain ⟨fs', hfs', hsame⟩ := relistsBelow hgrows htidy _ _ _ _ _ _ hes' (cost_of_walks hway') hway'
    (.old hway.at_there hcollect (hlinks _ _ _ hway))
  exact ⟨fs', filesBelow_eq_ok_iff.mpr ⟨place, es', left, hway', hfs'⟩, hsame⟩

end Again

end Node

end SolidityKit
