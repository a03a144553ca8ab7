/-
Files that are written over.

Writing over a file that is there changes its bytes and nothing else: putting the old bytes back gives the old
tree (`put_back`), so that each of the two trees has grown from the other.  `Overwritten written` says just
that.  Between such trees every path goes the same way, whether or not it leads anywhere
(`Overwritten.walk_outline`), and a file reads as before unless it is one of those that were written
(`Overwritten.readBytes_eq`).

Where there are no links, what a path leads to bears the last name of the path (`Plain.last_name`), so that
paths with different last names lead to different places.
-/
import SolidityKit.Proofs.Files.Plain
import SolidityKit.Workspace.FileAccess

namespace SolidityKit.Node

open Files

/-! ### Putting back -/

theorem setEntry_setEntry (name : Name) (old new : Node) (es : List (Name × Node)) :
    setEntry name old (setEntry name new es) = setEntry name old es := by
  induction es with
  | nil => simp [setEntry]
  | cons e rest ih =>
      obtain ⟨k, n⟩ := e
      by_cases hk : k = name
      · simp [setEntry, hk]
      · simp [setEntry, hk, ih]

theorem setEntry_of_lookup {name : Name} {n : Node} {es : List (Name × Node)} (h : es.lookup name = some n) :
    setEntry name n es = es := by
  induction es with
  | nil => cases h
  | cons e rest ih =>
      obtain ⟨k, m⟩ := e
      by_cases hk : k = name
      · subst hk
        rw [List.lookup_cons_self] at h
        cases h
        exact if_pos rfl
      · rw [lookup_cons_of_ne (Ne.symm hk)] at h
        rw [setEntry, if_neg hk, ih h]

/-- Putting back what was at a place undoes what was put there. -/
theorem put_back {tree old : Node} {place : Place} (h : tree.at? place = some old) (new : Node) :
    (tree.put place new).put place old = tree := by
  induction place generalizing tree with
  | nil =>
      cases h
      exact put_nil _ _
  | cons name rest ih =>
      cases tree with
      | file c => cases h
      | link target => cases h
      | dir es =>
          rw [at?_dir_cons] at h
          obtain ⟨n, hn, hold⟩ := Option.bind_eq_some_iff.mp h
          by_cases hrest : rest = []
          · subst hrest
            cases hold
            rw [put_singleton, put_singleton, setEntry_setEntry, setEntry_of_lookup hn]
          · have hnew : (setEntry name (n.put rest new) es).lookup name = some (n.put rest new) := by
              rw [lookup_setEntry, if_pos rfl]
            rw [put_cons hn hrest, put_cons hnew hrest, ih hold, setEntry_setEntry, setEntry_of_lookup hn]

/-! ### Trees that differ in the bytes of files -/

/-- Each of two trees has grown from the other, so that they differ at most in the bytes of the
written files. -/
structure Overwritten (written : Place → Prop) (before after : Node) : Prop where
  /-- The second has grown from the first. -/
  forth : Grows written before after
  /-- The first has grown from the second. -/
  back : Grows written after before

/-- The same kind of thing stands at a place in two trees. -/
inductive Alike : Option Node → Option Node → Prop
  /-- Nothing. -/
  | none : Alike none none
  /-- A directory. -/
  | dir (es es' : List (Name × Node)) : Alike (some (dir es)) (some (dir es'))
  /-- The same link. -/
  | link (target : Points) : Alike (some (link target)) (some (link target))
  /-- A file. -/
  | file (c c' : ByteArray) : Alike (some (file c)) (some (file c'))

/-- Where a path leads to and whether anything is there, without what is there. -/
def outline : Found → Place × Bool
  | .there place _ => (place, true)
  | .absent directory name => (directory ++ [name], false)

namespace Overwritten

variable {written : Place → Prop} {before after : Node}

theorem refl (written : Place → Prop) (tree : Node) : Overwritten written tree tree := ⟨.refl _ _, .refl _ _⟩

theorem trans {mid : Node} (h : Overwritten written before mid) (h' : Overwritten written mid after) :
    Overwritten written before after := ⟨h.forth.trans h'.forth, h'.back.trans h.back⟩

theorem mono {written' : Place → Prop} (h : Overwritten written before after)
    (hw : ∀ p, written p → written' p) :
    Overwritten written' before after := ⟨h.forth.mono hw, h.back.mono hw⟩

theorem plain (h : Overwritten written before after) (hplain : before.Plain) : after.Plain :=
  fun p target hlink => hplain p target (h.forth.link.mp hlink)

theorem alike (h : Overwritten written before after) (p : Place) : Alike (before.at? p) (after.at? p) := by
  cases hbefore : before.at? p with
  | some n =>
      cases n with
      | dir es =>
          obtain ⟨es', hes', -⟩ := h.forth.dir hbefore
          rw [hes']
          exact .dir es es'
      | file c =>
          obtain ⟨c', hc'⟩ := h.forth.stays hbefore
          rw [hc']
          exact .file c c'
      | link target =>
          rw [h.forth.link.mpr hbefore]
          exact .link target
  | none =>
      cases hafter : after.at? p with
      | none => exact .none
      | some n =>
          -- what is there afterwards was there before
          cases n with
          | dir es =>
              obtain ⟨es', hes', -⟩ := h.back.dir hafter
              cases hbefore.symm.trans hes'
          | file c =>
              obtain ⟨c', hc'⟩ := h.back.stays hafter
              cases hbefore.symm.trans hc'
          | link target => cases hbefore.symm.trans (h.forth.link.mp hafter)

/-- An entry is missing in both trees, or it is the same link in both, or a link in neither. -/
theorem entry_alike (h : Overwritten written before after) {place : Place} {es es' : List (Name × Node)}
    (hes : before.at? place = some (Node.dir es)) (hes' : after.at? place = some (Node.dir es')) (name : Name) :
    Alike (es.lookup name) (es'.lookup name) := by
  rw [← at?_entry hes, ← at?_entry hes']
  exact h.alike _

/-- Between two links the names are gone through, and where a link is followed both trees follow it. -/
theorem names_outline (h : Overwritten written before after) {followLast : Bool} (left : Nat)
    (hfollow : ∀ place names,
      (after.follower followLast left place names).map (fun r => (outline r.1, r.2)) =
        (before.follower followLast left place names).map fun r => (outline r.1, r.2))
    (place : Place) (names : List Name) :
    (after.walk followLast left place names).map (fun r => (outline r.1, r.2)) =
      (before.walk followLast left place names).map fun r => (outline r.1, r.2) := by
  induction names generalizing place with
  | nil =>
      have halike := h.alike place
      rw [walk_nil, walk_nil]
      generalize before.at? place = found at halike ⊢
      generalize after.at? place = found' at halike ⊢
      cases halike <;> rfl
  | cons name rest ih =>
      obtain ⟨found, hbefore⟩ : ∃ found, before.at? place = found := ⟨_, rfl⟩
      obtain ⟨found', hafter⟩ : ∃ found', after.at? place = found' := ⟨_, rfl⟩
      have halike := h.alike place
      rw [hbefore, hafter] at halike
      cases halike with
      | none => rw [walk_nowhere hbefore, walk_nowhere hafter]
      | file c c' => rw [walk_blocked hbefore (by simp), walk_blocked hafter (by simp)]
      | link target => rw [walk_blocked hbefore (by simp), walk_blocked hafter (by simp)]
      | dir es es' =>
          rcases name_cases name with hstay | rfl | hname
          · rw [walk_stay hbefore hstay, walk_stay hafter hstay, ih]
          · rw [walk_up hbefore, walk_up hafter, ih]
          obtain ⟨n, hn⟩ : ∃ n, es.lookup name = n := ⟨_, rfl⟩
          obtain ⟨n', hn'⟩ : ∃ n', es'.lookup name = n' := ⟨_, rfl⟩
          have hentry := h.entry_alike hbefore hafter name
          rw [hn, hn'] at hentry
          cases hentry with
          | none => rw [walk_missing hbefore hname hn, walk_missing hafter hname hn']
          | link target =>
              rw [walk_link hbefore hname hn, walk_link hafter hname hn']
              split
              · rfl
              · exact hfollow _ _
          | file c c' => rw [walk_enter hbefore hname hn (by simp), walk_enter hafter hname hn' (by simp), ih]
          | dir sub sub' =>
              rw [walk_enter hbefore hname hn (by simp), walk_enter hafter hname hn' (by simp), ih]

/-- Every path goes the same way in both trees. -/
theorem walk_outline (h : Overwritten written before after) (followLast : Bool) (left : Nat) (place : Place)
    (names : List Name) :
    (after.walk followLast left place names).map (fun r => (outline r.1, r.2)) =
      (before.walk followLast left place names).map fun r => (outline r.1, r.2) := by
  induction left generalizing place names with
  | zero => exact h.names_outline 0 (fun _ _ => rfl) place names
  | succ left ih => exact h.names_outline (left + 1) ih place names

/-- A path leads to a place in both trees, or fails for the same cause in both. -/
theorem find_cases (h : Overwritten written before after) (cwd : Place) (p : Path) :
    (∃ c, before.find cwd p = .error c ∧ after.find cwd p = .error c) ∨
      (∃ d name, before.find cwd p = .ok (.absent d name) ∧ ∃ d' name', after.find cwd p =
        .ok (.absent d' name')) ∨
      ∃ place n n', before.find cwd p = .ok (.there place n) ∧ after.find cwd p = .ok (.there place n') := by
  have houtline := h.walk_outline true maxLinks (startOf cwd p) p.names
  unfold find
  cases hbefore : before.walk true maxLinks (startOf cwd p) p.names with
  | error c =>
      cases hafter : after.walk true maxLinks (startOf cwd p) p.names with
      | error c' =>
          rw [hbefore, hafter] at houtline
          cases houtline
          exact Or.inl ⟨c, rfl, rfl⟩
      | ok r => rw [hbefore, hafter] at houtline; cases houtline
  | ok r =>
      cases hafter : after.walk true maxLinks (startOf cwd p) p.names with
      | error c => rw [hbefore, hafter] at houtline; cases houtline
      | ok r' =>
          rw [hbefore, hafter] at houtline
          obtain ⟨f, l⟩ := r
          obtain ⟨f', l'⟩ := r'
          simp only [Except.map, Except.ok.injEq, Prod.mk.injEq] at houtline
          obtain ⟨hfound, -⟩ := houtline
          cases f with
          | there place n =>
              cases f' with
              | absent d name => cases hfound
              | there place' n' =>
                  cases hfound
                  exact Or.inr (Or.inr ⟨place, n, n', rfl, rfl⟩)
          | absent d name =>
              cases f' with
              | there place n => cases hfound
              | absent d' name' => exact Or.inr (Or.inl ⟨d, name, rfl, d', name', rfl⟩)

theorem get_error_iff (h : Overwritten written before after) {cwd : Place} {p : Path} {c : Cause} :
    after.get cwd p = .error c ↔ before.get cwd p = .error c := by
  unfold get
  rcases h.find_cases cwd p with ⟨c, hbefore, hafter⟩ | ⟨d, name, hbefore, d', name', hafter⟩ |
    ⟨place, n, n', hbefore, hafter⟩
  · rw [hbefore, hafter]
  · rw [hbefore, hafter]
    exact Iff.rfl
  · rw [hbefore, hafter]
    exact ⟨fun h => (by cases h), fun h => (by cases h)⟩

/-- The bytes of a file are the same unless it is written. -/
theorem readBytes_eq (h : Overwritten written before after) {cwd : Place} {p : Path}
    (hp : ∀ place n, before.LeadsTo cwd p place n → ¬ written place) :
    after.readBytes cwd p = before.readBytes cwd p := by
  unfold readBytes get
  rcases h.find_cases cwd p with ⟨c, hbefore, hafter⟩ | ⟨d, name, hbefore, d', name', hafter⟩ |
    ⟨place, n, n', hbefore, hafter⟩
  · rw [hbefore, hafter]
  · rw [hbefore, hafter]
    rfl
  · rw [hbefore, hafter]
    have hat := (find_eq_there_iff.mp hbefore).at_there
    have hat' := (find_eq_there_iff.mp hafter).at_there
    have halike := h.alike place
    rw [hat, hat'] at halike
    cases halike with
    | dir es es' => rfl
    | link target => rfl
    | file c c' =>
        have hsame := (h.forth.file (hp _ _ (find_eq_there_iff.mp hbefore))).mpr hat
        cases hat'.symm.trans hsame
        rfl

end Overwritten

/-- Writing over a file. -/
theorem overwritten_put {tree : Node} {place : Place} {old : ByteArray} (h : tree.at? place = some (file old))
    (new : ByteArray) : Overwritten (· = place) tree (tree.put place (file new)) := by
  have hput {t : Node} {c : ByteArray} (ht : t.at? place = some (file c)) (c' : ByteArray) :
      Grows (· = place) t (t.put place (file c')) :=
    grows_put_file (hasRoom_of_at? ht) (fun n hn => ⟨c, Option.some.inj (hn.symm.trans ht)⟩)
      (fun _ _ _ hnone => by cases hnone.symm.trans ht) c'
  refine ⟨hput h new, ?_⟩
  have hback := hput (at?_put_self (hasRoom_of_at? h) (file new)) old
  rwa [put_back h] at hback

/-! ### Resolving names -/

/-- A name that is not that of a link is gone through. -/
theorem resolveNames_enter {tree : Node} {place : Place} {name : Name} (hname : IsStep name)
    (hlink : ∀ target, tree.at? (place ++ [name]) ≠ some (link target)) (fuel : Nat) (rest : List Name)
    (met : List (Place × Option Place)) :
    tree.resolveNames (fuel + 1) place (name :: rest) met =
      tree.resolveNames fuel (place ++ [name]) rest met := by
  rw [resolveNames, if_neg (not_or.mpr ⟨hname.1, hname.2.1⟩), if_neg hname.2.2]
  dsimp only
  split
  · next target hat => exact absurd hat (hlink target)
  · rfl

/-! ### Trees without links -/

namespace Plain

/-- What a path leads to bears the last name of the path. -/
theorem last_name {tree : Node} (hplain : tree.Plain) {cwd place : Place} {p : Path} {n : Node}
    {above : List Name}
    {name : Name} (hname : IsStep name) (hp : p.names = above ++ [name]) (h : tree.LeadsTo cwd p place n) :
    ∃ d, place = d ++ [name] := by
  obtain ⟨l, hway⟩ := h
  rw [hp] at hway
  clear hp
  generalize startOf cwd p = start at hway
  generalize maxLinks = left at hway
  generalize hnames : above ++ [name] = names at hway
  generalize hf : Found.there place n = f at hway
  induction hway generalizing above with
  | arrive => simp at hnames
  | stay hdir hstay hrest ih =>
      cases above with
      | nil =>
          obtain ⟨rfl, -⟩ := List.cons.inj hnames
          rcases hstay with rfl | rfl
          · exact absurd rfl hname.1
          · exact absurd rfl hname.2.1
      | cons k above => exact ih (List.cons.inj hnames).2 hf
  | up hdir hrest ih =>
      cases above with
      | nil =>
          obtain ⟨rfl, -⟩ := List.cons.inj hnames
          exact absurd rfl hname.2.2
      | cons k above => exact ih (List.cons.inj hnames).2 hf
  | @enter left l q es k m rest f hdir hstep hn hlink hrest ih =>
      cases above with
      | nil =>
          obtain ⟨rfl, rfl⟩ := List.cons.inj hnames
          subst hf
          cases hrest
          exact ⟨q, rfl⟩
      | cons k above => exact ih (List.cons.inj hnames).2 hf
  | follow hdir hstep hn => exact absurd (by rw [at?_entry hdir, hn]) (hplain _ _)
  | atLink _ _ _ hlast => cases hlast
  | absent => cases hf

/-- Without links, the names of a path are all there is to resolve. -/
theorem resolveNames_eq {tree tree' : Node} (hplain : tree.Plain) (hplain' : tree'.Plain) {fuel fuel' : Nat}
    {names : List Name} (hfuel : names.length < fuel) (hfuel' : names.length < fuel') (place : Place)
    (met : List (Place × Option Place)) :
    tree'.resolveNames fuel' place names met = tree.resolveNames fuel place names met := by
  induction names generalizing fuel fuel' place with
  | nil =>
      obtain ⟨fuel, rfl⟩ := Nat.exists_eq_succ_of_ne_zero (Nat.ne_of_gt hfuel)
      obtain ⟨fuel', rfl⟩ := Nat.exists_eq_succ_of_ne_zero (Nat.ne_of_gt hfuel')
      rfl
  | cons name rest ih =>
      rw [List.length_cons] at hfuel hfuel'
      obtain ⟨fuel, rfl⟩ := Nat.exists_eq_succ_of_ne_zero (Nat.ne_of_gt (Nat.zero_lt_of_lt hfuel))
      obtain ⟨fuel', rfl⟩ := Nat.exists_eq_succ_of_ne_zero (Nat.ne_of_gt (Nat.zero_lt_of_lt hfuel'))
      have hrest (next : Place) :
          tree'.resolveNames fuel' next rest met = tree.resolveNames fuel next rest met :=
        ih (by omega) (by omega) next
      rcases name_cases name with hstay | rfl | hname
      · rw [resolveNames, resolveNames, if_pos hstay, if_pos hstay, hrest]
      · have hup : ¬ ((".." : Name) = "" ∨ (".." : Name) = ".") := by decide
        rw [resolveNames, resolveNames, if_neg hup, if_neg hup, if_pos rfl, if_pos rfl, hrest]
      · rw [resolveNames_enter hname (hplain' _), resolveNames_enter hname (hplain _), hrest]

theorem realPath_eq {tree tree' : Node} (hplain : tree.Plain) (hplain' : tree'.Plain) (cwd : Place) (p : Path) :
    tree'.realPath cwd p = tree.realPath cwd p := by
  have hnames : tree'.resolveNames (p.names.length + tree'.linkNames + 1) (startOf cwd p) p.names [] =
      tree.resolveNames (p.names.length + tree.linkNames + 1) (startOf cwd p) p.names [] :=
    resolveNames_eq hplain hplain' (by omega) (by omega) _ _
  rw [realPath, realPath, hnames]

end Plain

end SolidityKit.Node
