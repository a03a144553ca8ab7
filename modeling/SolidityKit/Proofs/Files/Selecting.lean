/-
One listing, many selections.

Which files a selection wants is asked last, of the bare name of a file.  It changes neither the way through
the tree nor where that way ends in a fault, so that a listing of wanted files is the listing of all files
without the unwanted ones (`collect_wanted`), directories of whatever name included.

In a tidy tree the entries of a directory have names of their own.  What is listed below an entry starts with
the path of that entry (`entry_under`), so that different entries list different paths, and no path is listed
twice (`nodup_filesBelow`).  Links do no harm here: a directory that is reached through one is listed under the
name of the link.
-/
import SolidityKit.Proofs.Files.Listing

namespace SolidityKit

open Files

/-- The last name of a path; a path without names has an empty one. -/
def Path.lastName (p : Path) : Name := p.names.getLast?.getD ""

@[simp] theorem Path.lastName_entry (p : Path) (name : Name) : (p.entry name).lastName = name := by
  simp [lastName, entry]

/-- The second path is spelled as the first one, with further names or without. -/
def Path.Above (p q : Path) : Prop := p.root = q.root ∧ p.names <+: q.names

instance (p q : Path) : Decidable (p.Above q) := inferInstanceAs (Decidable (_ ∧ _))

theorem Path.Above.trans {p q r : Path} (hpq : p.Above q) (hqr : q.Above r) : p.Above r :=
  ⟨hpq.1.trans hqr.1, hpq.2.trans hqr.2⟩

theorem Path.above_entry (p : Path) (name : Name) : p.Above (p.entry name) := ⟨rfl, List.prefix_append _ _⟩

/-- Of two paths above a third one, one is above the other. -/
theorem Path.Above.or_above {p q r : Path} (hp : p.Above r) (hq : q.Above r) : p.Above q ∨ q.Above p := by
  obtain hpq | hqp := List.prefix_or_prefix_of_prefix hp.2 hq.2
  · exact Or.inl ⟨hp.1.trans hq.1.symm, hpq⟩
  · exact Or.inr ⟨hq.1.trans hp.1.symm, hqp⟩

/-- The same selection, with other wishes. -/
def Selection.wanting (s : Selection) (wanted : Name → Bool) : Selection := { s with wanted }

namespace Node

/-! ### Wishes only filter -/

/-- Lists that are changed one by one are changed as a whole. -/
theorem mapM_filtered {α β ε : Type} {g g' : α → Except ε (List β)} {keep : β → Bool}
    (h : ∀ a, g' a = (g a).map (List.filter keep)) (as : List α) :
    (as.mapM g').map List.flatten = ((as.mapM g).map List.flatten).map (List.filter keep) := by
  induction as with
  | nil => rfl
  | cons a rest ih =>
      rw [List.mapM_cons, List.mapM_cons, h]
      cases g a with
      | error e => rfl
      | ok x =>
          cases hrest : rest.mapM g with
          | error e =>
              rw [hrest] at ih
              cases hrest' : rest.mapM g' with
              | error e' => rw [hrest'] at ih; exact ih
              | ok xs' => rw [hrest'] at ih; cases ih
          | ok xs =>
              rw [hrest] at ih
              cases hrest' : rest.mapM g' with
              | error e' => rw [hrest'] at ih; cases ih
              | ok xs' =>
                  rw [hrest'] at ih
                  have hxs : xs'.flatten = xs.flatten.filter keep := Except.ok.inj ih
                  show Except.ok (x.filter keep ++ xs'.flatten) = Except.ok ((x ++ xs.flatten).filter keep)
                  rw [List.filter_append, hxs]

variable {tree : Node} {s : Selection} {wanted : Name → Bool}

/-- **A selection's wishes filter what is listed, and do nothing else.** -/
theorem collect_wanted (tree : Node) (s : Selection) (wanted : Name → Bool) (fuel : Nat) (path : Path)
    (o : Opened) :
    tree.collect (s.wanting wanted) fuel path o =
      (tree.collect (s.wanting fun _ => true) fuel path o).map (List.filter fun p => wanted p.lastName) := by
  induction fuel generalizing path o with
  | zero => rfl
  | succ fuel ih =>
      obtain ⟨place, es, left⟩ := o
      have hentry (e : Name × Node) : tree.collectEntry (s.wanting wanted) fuel path place left e.1 e.2 =
          (tree.collectEntry (s.wanting fun _ => true) fuel path place left e.1 e.2).map
            (List.filter fun p => wanted p.lastName) := by
        unfold collectEntry
        cases tree.open? left place e.1 e.2 with
        | error c => rfl
        | ok o? =>
            cases o? with
            | some o => exact ih (path.entry e.1) o
            | none =>
                by_cases hsuffix : s.suffix <:+ e.1 <;>
                  by_cases hwanted : wanted e.1 = true <;>
                    simp [Except.map, Selection.takes, Selection.wanting, hsuffix, hwanted]
      rw [collect_succ, collect_succ]
      exact mapM_filtered hentry _

theorem filesBelow_wanted (tree : Node) (cwd : Place) (s : Selection) (wanted : Name → Bool) (path : Path) :
    tree.filesBelow cwd (s.wanting wanted) path =
      (tree.filesBelow cwd (s.wanting fun _ => true) path).map (List.filter fun p => wanted p.lastName) := by
  unfold filesBelow
  cases tree.walk true maxLinks (startOf cwd path) path.names with
  | error c => rfl
  | ok r =>
      obtain ⟨f, left⟩ := r
      cases f with
      | absent d name => rfl
      | there place n =>
          cases n with
          | file c => rfl
          | link target => rfl
          | dir es => exact collect_wanted tree s wanted _ path (place, es, left)

/-! ### No path is listed twice -/

/-- What is listed of an entry is listed in a directory below, or is the entry itself. -/
theorem collectEntry_eq_ok {fuel left : Nat} {path : Path} {place : Place} {name : Name} {n : Node}
    {fs : List Path} (h : tree.collectEntry s fuel path place left name n = .ok fs) :
    (∃ o, tree.open? left place name n = .ok (some o) ∧ tree.collect s fuel (path.entry name) o = .ok fs) ∨
      fs = [] ∨ fs = [path.entry name] := by
  unfold collectEntry at h
  cases hopen : tree.open? left place name n with
  | error c => rw [hopen] at h; cases h
  | ok o? =>
      rw [hopen] at h
      cases o? with
      | some o => exact Or.inl ⟨o, rfl, h⟩
      | none =>
          cases h
          by_cases htakes : s.takes name = true
          · exact Or.inr (Or.inr (if_pos htakes))
          · exact Or.inr (Or.inl (if_neg htakes))

theorem collect_above {fuel : Nat} {path : Path} {o : Opened} {fs : List Path}
    (h : tree.collect s fuel path o = .ok fs) {p : Path} (hp : p ∈ fs) : path.Above p := by
  induction fuel generalizing path o fs with
  | zero => cases h
  | succ fuel ih =>
      obtain ⟨place, es, left⟩ := o
      rw [collect_succ] at h
      obtain ⟨xs, hxs, rfl⟩ := map_eq_ok h
      obtain ⟨e, -, x, hx, hpx⟩ := mem_of_mapM hxs hp
      rcases collectEntry_eq_ok hx with ⟨o, -, hbelow⟩ | rfl | rfl
      · exact (path.above_entry e.1).trans (ih hbelow hpx)
      · cases hpx
      · rw [List.mem_singleton.mp hpx]
        exact path.above_entry e.1

theorem collect_under {fuel : Nat} {path : Path} {o : Opened} {fs : List Path}
    (h : tree.collect s fuel path o = .ok fs) {p : Path} (hp : p ∈ fs) : path.names <+: p.names :=
  (collect_above h hp).2

/-- **All that is listed of a directory is spelled below it.** -/
theorem filesBelow_above {cwd : Place} {path : Path} {fs : List Path} (h : tree.filesBelow cwd s path = .ok fs)
    {p : Path} (hp : p ∈ fs) : path.Above p := by
  obtain ⟨place, es, left, -, hcollect⟩ := filesBelow_eq_ok_iff.mp h
  exact collect_above hcollect hp

/-- What is listed of an entry starts with the path of the entry. -/
theorem entry_under {fuel left : Nat} {path : Path} {place : Place} {name : Name} {n : Node} {fs : List Path}
    (h : tree.collectEntry s fuel path place left name n = .ok fs) {p : Path} (hp : p ∈ fs) :
    path.names ++ [name] <+: p.names := by
  rcases collectEntry_eq_ok h with ⟨o, -, hbelow⟩ | rfl | rfl
  · exact collect_under hbelow hp
  · cases hp
  · rw [List.mem_singleton.mp hp]
    exact List.prefix_rfl

/-- So one path is listed of one entry only. -/
theorem entry_unique {names : List Name} {a b : Name} {p : Path} (ha : names ++ [a] <+: p.names)
    (hb : names ++ [b] <+: p.names) : a = b := by
  have hlength : (names ++ [a]).length = (names ++ [b]).length := by simp
  have hsame := (List.prefix_of_prefix_length_le ha hb hlength.le).eq_of_length hlength
  simpa using hsame

/-- Lists without repetitions that have nothing in common make up a list without repetitions. -/
theorem nodup_of_mapM {α β ε : Type} {g : α → Except ε (List β)} {as : List α} {xs : List (List β)}
    (hnodup : as.Nodup) (heach : ∀ a ∈ as, ∀ x, g a = .ok x → x.Nodup)
    (hapart : ∀ a b x y p, g a = .ok x → g b = .ok y → p ∈ x → p ∈ y → a = b) (h : as.mapM g = .ok xs) :
    xs.flatten.Nodup := by
  induction as generalizing xs with
  | nil =>
      cases h
      exact List.nodup_nil
  | cons a rest ih =>
      obtain ⟨hnot, hrest⟩ := List.nodup_cons.mp hnodup
      obtain ⟨x, more, hx, hmore, rfl⟩ := mapM_cons_eq_ok_iff.mp h
      have hfirst := heach a List.mem_cons_self x hx
      have hothers := ih hrest (fun b hb => heach b (List.mem_cons_of_mem a hb)) hmore
      refine List.nodup_append'.mpr ⟨hfirst, hothers, fun p hp hp' => ?_⟩
      obtain ⟨b, hb, y, hy, hpy⟩ := mem_of_mapM hmore hp'
      rw [hapart a b x y p hx hy hp hpy] at hnot
      exact hnot hb

theorem nodup_collect (htidy : tree.Tidy) {fuel left : Nat} {path : Path} {place : Place}
    {es : List (Name × Node)} {fs : List Path} (hes : tree.at? place = some (dir es))
    (h : tree.collect s fuel path (place, es, left) = .ok fs) : fs.Nodup := by
  induction fuel generalizing path place es left fs with
  | zero => cases h
  | succ fuel ih =>
      obtain ⟨hnodup, -⟩ := htidy place es hes
      obtain ⟨xs, hxs, rfl⟩ := collect_eq_ok hnodup h
      refine nodup_of_mapM ((s.perm_namesInOrder _).nodup_iff.mpr hnodup) (fun name hname x hx => ?_)
        (fun a b x y p hx hy hp hp' => entry_unique (entry_under hx hp) (entry_under hy hp')) hxs
      obtain ⟨hstep, n, hn⟩ := entry_of_mem_namesInOrder htidy hes hname
      rw [hn] at hx
      rcases collectEntry_eq_ok hx with ⟨⟨q, sub, l⟩, hopen, hbelow⟩ | rfl | rfl
      · exact ih ((open?_eq_some_iff hes hstep hn).mp hopen).at_there hbelow
      · exact List.nodup_nil
      · exact List.nodup_singleton _

/-- **A listing of a tidy tree has no path twice.** -/
theorem nodup_filesBelow (htidy : tree.Tidy) {cwd : Place} {path : Path} {fs : List Path}
    (h : tree.filesBelow cwd s path = .ok fs) : fs.Nodup := by
  obtain ⟨place, es, left, hway, hcollect⟩ := filesBelow_eq_ok_iff.mp h
  exact nodup_collect htidy hway.at_there hcollect

end Node

end SolidityKit
