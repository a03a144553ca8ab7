/-
Paths that are resolved already.

A path that starts at the top means the same in every current directory.  If its names lead down to a
directory, one entry after the other, there is no link on the way, so that resolving it gives it back
(`resolve_dirPath`), and so does writing it down and reading it again (`ofPoints_spelling`).  The current
directory and the directories above it are such paths.
-/
import SolidityKit.Proofs.Workspace.ArtifactPaths

namespace SolidityKit

open Files

/-! ### Spelling -/

theorem Text.joinWith_eq_intercalate {α : Type} (sep : α) (pieces : List (List α)) :
    joinWith sep pieces = [sep].intercalate pieces := by
  induction pieces with
  | nil => rfl
  | cons first more ih =>
      cases more with
      | nil => simp [joinWith]
      | cons second more => rw [joinWith_cons first (by simp), ih, List.intercalate_cons_cons]; simp

namespace Path

theorem ofPoints_slash {cs : Points} (h : cs.head? ≠ some (.char '/')) :
    ofPoints (.char '/' :: cs) = ⟨.top, namesOf cs⟩ := by
  cases cs with
  | nil => rfl
  | cons c cs =>
      have hc : c ≠ .char '/' := fun hc => h (by rw [hc]; rfl)
      unfold ofPoints
      split
      · next heq => exact absurd (List.cons.inj (List.cons.inj heq).2).1 hc
      · next heq => exact absurd (List.cons.inj (List.cons.inj heq).2).1 hc
      · next heq => rw [← (List.cons.inj heq).2]
      · next hnot => exact absurd rfl (hnot (c :: cs))

theorem namesOf_joinWith {names : List Name} (h : ∀ name ∈ names, IsName name) :
    namesOf (Text.joinWith (.char '/') names) = names := by
  cases names with
  | nil => rfl
  | cons name more =>
      have hkept : ∀ k ∈ name :: more, (k ≠ "" && k ≠ "." : Bool) = true := fun k hk => by
        simp [(h k hk).1, (h k hk).2.1]
      unfold namesOf
      rw [Text.splitAt_joinWith (List.cons_ne_nil name more) fun k hk => (h k hk).2.2,
        List.filter_eq_self.mpr hkept]

/-- **Reading what a path from the top is spelled as gives the path back.** -/
theorem ofPoints_spelling {names : List Name} (h : ∀ name ∈ names, IsName name) :
    ofPoints (Path.mk .top names).spelling = ⟨.top, names⟩ := by
  have hspelling : (Path.mk .top names).spelling = .char '/' :: Text.joinWith (.char '/') names := by
    rw [Text.joinWith_eq_intercalate]
    rfl
  have hhead : (Text.joinWith (.char '/') names).head? ≠ some (.char '/') := by
    cases names with
    | nil => simp [Text.joinWith]
    | cons name more =>
        -- the first name has a first code point, which is no slash
        obtain ⟨hempty, -, hslash⟩ := h name List.mem_cons_self
        obtain ⟨c, rest, rfl⟩ := List.exists_cons_of_ne_nil hempty
        have hc : c ≠ .char '/' := fun heq => hslash (heq ▸ List.mem_cons_self)
        cases more with
        | nil => simpa [Text.joinWith] using hc
        | cons second more => simpa [Text.joinWith] using hc
  rw [hspelling, ofPoints_slash hhead, namesOf_joinWith h]

end Path

/-! ### Resolving -/

namespace Node

theorem realPath_of_absolute (tree : Node) {p : Path} (h : p.isAbsolute = true) (cwd cwd' : Place) :
    tree.realPath cwd p = tree.realPath cwd' p := by
  unfold realPath startOf
  rw [if_pos h, if_pos h]

theorem get_of_absolute (tree : Node) {p : Path} (h : p.isAbsolute = true) (cwd cwd' : Place) :
    tree.get cwd p = tree.get cwd' p := by
  unfold get find startOf
  rw [if_pos h, if_pos h]

variable {tree : Node} {es : List (Name × Node)}

/-- Names that lead down to a directory are followed to there. -/
theorem walks_to_dir (place : Place) {names : List Name} (hsteps : ∀ name ∈ names, IsStep name)
    (h : tree.at? (place ++ names) = some (dir es)) (left : Nat) :
    Walks tree true left place names (.there (place ++ names) (dir es)) left := by
  induction names generalizing place with
  | nil =>
      rw [List.append_nil] at h ⊢
      exact .arrive h
  | cons name more ih =>
      rw [List.append_cons] at h ⊢
      obtain ⟨above, habove⟩ := dir_above (by simp) (List.append_assoc place [name] more ▸ h)
      obtain ⟨next, hnext⟩ := dir_on_way h
      rw [at?_entry habove] at hnext
      exact .enter habove (hsteps name List.mem_cons_self) hnext (fun target => by simp)
        (ih _ (fun k hk => hsteps k (List.mem_cons_of_mem name hk)) h)

theorem resolveNames_to_dir (place : Place) {names : List Name} (hsteps : ∀ name ∈ names, IsStep name)
    (h : tree.at? (place ++ names) = some (dir es)) {fuel : Nat} (hfuel : names.length < fuel)
    (met : List (Place × Option Place)) :
    tree.resolveNames fuel place names met = ⟨place ++ names, true, met⟩ := by
  induction names generalizing place fuel with
  | nil =>
      obtain ⟨fuel, rfl⟩ := Nat.exists_eq_succ_of_ne_zero (Nat.ne_of_gt hfuel)
      rw [List.append_nil]
      rfl
  | cons name more ih =>
      rw [List.length_cons] at hfuel
      obtain ⟨fuel, rfl⟩ := Nat.exists_eq_succ_of_ne_zero (Nat.ne_of_gt (Nat.zero_lt_of_lt hfuel))
      rw [List.append_cons] at h ⊢
      obtain ⟨next, hnext⟩ := dir_on_way h
      rw [resolveNames_enter (hsteps name List.mem_cons_self) fun target => by simp [hnext]]
      exact ih _ (fun k hk => hsteps k (List.mem_cons_of_mem name hk)) h (by omega)

theorem normalNames_of_steps {names : List Name} (hsteps : ∀ name ∈ names, IsStep name) :
    normalNames names = names := by
  have hfold (acc : List Name) :
      names.foldl (fun acc (n : Name) => if n = "" ∨ n = "." then acc else if n = ".." then acc.dropLast
        else acc ++ [n]) acc =
        acc ++ names := by
    induction names generalizing acc with
    | nil => exact (List.append_nil acc).symm
    | cons name more ih =>
        obtain ⟨hempty, hdot, hup⟩ := hsteps name List.mem_cons_self
        rw [List.foldl_cons, if_neg (not_or.mpr ⟨hempty, hdot⟩), if_neg hup,
          ih fun k hk => hsteps k (List.mem_cons_of_mem name hk), List.append_assoc, List.singleton_append]
  exact hfold []

/-- The names of a place lead down to a directory, one entry after the other, as those of a current
directory do. -/
structure DirPath (tree : Node) (place : Place) : Prop where
  /-- Each name can be that of an entry. -/
  names : ∀ name ∈ place, IsName name ∧ name ≠ ".."
  /-- There is a directory. -/
  dir : ∃ es, tree.at? place = some (dir es)

variable {place : Place}

theorem DirPath.steps (h : tree.DirPath place) : ∀ name ∈ place, IsStep name := fun name hname =>
  ⟨(h.names name hname).1.1, (h.names name hname).1.2.1, (h.names name hname).2⟩

/-- So do the names of the directories above. -/
theorem DirPath.above {above : Place} (h : tree.DirPath place) (hway : above <+: place) :
    tree.DirPath above := by
  obtain ⟨rest, rfl⟩ := hway
  obtain ⟨es, hes⟩ := h.dir
  exact ⟨fun name hname => h.names name (List.mem_append_left rest hname), dir_on_way hes⟩

theorem DirPath.get (h : tree.DirPath place) (cwd : Place) :
    ∃ es, tree.get cwd ⟨.top, place⟩ = .ok (Node.dir es) := by
  obtain ⟨es, hes⟩ := h.dir
  exact ⟨es, get_eq_ok_iff.mpr ⟨place, maxLinks, walks_to_dir [] h.steps hes maxLinks⟩⟩

theorem DirPath.realPath (h : tree.DirPath place) (cwd : Place) :
    tree.realPath cwd ⟨.top, place⟩ = ⟨.top, place⟩ := by
  obtain ⟨es, hes⟩ := h.dir
  have hresolved : tree.resolveNames (place.length + tree.linkNames + 1) [] place [] = ⟨place, true, []⟩ :=
    resolveNames_to_dir [] h.steps hes (by omega) []
  show Path.mk .top (normalNames (tree.resolveNames (place.length + tree.linkNames + 1) [] place []).names) = _
  rw [hresolved, normalNames_of_steps h.steps]

end Node

end SolidityKit
