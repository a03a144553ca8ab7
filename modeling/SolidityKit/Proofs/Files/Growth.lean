/-
Trees that grow.

Making directories and writing files never takes anything away: a directory stays a directory and its
entries stay in their order, a link stays as it is, a file stays a file.  `Grows written` says so of a tree
before and after, with all files unchanged but those at the places that were `written`.

Whatever a path led to, it leads to the same place in a tree that has grown (`Walks.grows`); a path that
missed a last name leads to what has been put there (`Walks.filled`).
-/
import SolidityKit.Proofs.Files.Walks

namespace SolidityKit.Node

open Files

/-- The names in a directory are distinct, and each leads to its entry. -/
def Tidy (tree : Node) : Prop :=
  ∀ p es, tree.at? p = some (dir es) → (es.map Prod.fst).Nodup ∧ ∀ name ∈ es.map Prod.fst, IsStep name

/-- What growth does to a tree. -/
structure Grows (written : Place → Prop) (before after : Node) : Prop where
  /-- A directory stays one and keeps its entries in their order; new ones come behind. -/
  dir : ∀ {p es}, before.at? p = some (dir es) →
    ∃ es', after.at? p = some (Node.dir es') ∧ es.map Prod.fst <+: es'.map Prod.fst
  /-- Links stay, and there are no new ones. -/
  link : ∀ {p target}, after.at? p = some (link target) ↔ before.at? p = some (link target)
  /-- A file stays one. -/
  stays : ∀ {p content}, before.at? p = some (file content) → ∃ content', after.at? p = some (file content')
  /-- At all other places than the written ones, the files are the same. -/
  file : ∀ {p content}, ¬ written p → (after.at? p = some (file content) ↔ before.at? p = some (file content))
  /-- Names stay in order. -/
  tidy : before.Tidy → after.Tidy

namespace Grows

variable {written : Place → Prop} {before after : Node}

theorem refl (written : Place → Prop) (tree : Node) : Grows written tree tree where
  dir h := ⟨_, h, List.prefix_rfl⟩
  link := Iff.rfl
  stays h := ⟨_, h⟩
  file _ := Iff.rfl
  tidy := id

theorem trans {mid : Node} (h : Grows written before mid) (h' : Grows written mid after) :
    Grows written before after where
  dir hes := by
    obtain ⟨es₁, hes₁, hpre₁⟩ := h.dir hes
    obtain ⟨es₂, hes₂, hpre₂⟩ := h'.dir hes₁
    exact ⟨es₂, hes₂, hpre₁.trans hpre₂⟩
  link := h'.link.trans h.link
  stays hc := by
    obtain ⟨_, hc₁⟩ := h.stays hc
    exact h'.stays hc₁
  file hw := (h'.file hw).trans (h.file hw)
  tidy := h'.tidy ∘ h.tidy

theorem mono {written' : Place → Prop} (h : Grows written before after) (hw : ∀ p, written p → written' p) :
    Grows written' before after where
  dir := h.dir
  link := h.link
  stays := h.stays
  file hp := h.file fun hwp => hp (hw _ hwp)
  tidy := h.tidy

/-- An entry that is no link is still there, and still none. -/
theorem entry (h : Grows written before after) {p : Place} {es : List (Name × Node)} {name : Name} {n : Node}
    (hdir : before.at? p = some (Node.dir es)) (hn : es.lookup name = some n)
    (hlink : ∀ target, n ≠ Node.link target) :
    ∃ es' n', after.at? p = some (Node.dir es') ∧ es'.lookup name = some n' ∧
      ∀ target, n' ≠ Node.link target := by
  obtain ⟨es', hes', -⟩ := h.dir hdir
  rw [← at?_entry hdir] at hn
  cases n with
  | dir sub =>
      obtain ⟨sub', hsub', -⟩ := h.dir hn
      exact ⟨es', Node.dir sub', hes', by rw [← at?_entry hes', hsub'], by simp⟩
  | file c =>
      obtain ⟨c', hc'⟩ := h.stays hn
      exact ⟨es', Node.file c', hes', by rw [← at?_entry hes', hc'], by simp⟩
  | link target => exact absurd rfl (hlink target)

theorem link_entry (h : Grows written before after) {p : Place} {es : List (Name × Node)} {name : Name}
    {target : Points}
    (hdir : before.at? p = some (Node.dir es)) (hn : es.lookup name = some (Node.link target)) :
    ∃ es', after.at? p = some (Node.dir es') ∧ es'.lookup name = some (Node.link target) := by
  obtain ⟨es', hes', -⟩ := h.dir hdir
  rw [← at?_entry hdir] at hn
  exact ⟨es', hes', by rw [← at?_entry hes', h.link.mpr hn]⟩

theorem keeps_file (h : Grows written before after) {p : Place} {content : ByteArray} (hw : ¬ written p)
    (hc : before.at? p = some (Node.file content)) : after.at? p = some (Node.file content) :=
  (h.file hw).mpr hc

end Grows

/-! ### Putting a leaf -/

/-- There is nothing below the node. -/
def IsLeaf (n : Node) : Prop := ∀ q, q ≠ [] → n.at? q = none

theorem isLeaf_file (content : ByteArray) : IsLeaf (file content) := by
  intro q hq
  obtain ⟨name, rest, rfl⟩ := List.exists_cons_of_ne_nil hq
  rfl

theorem isLeaf_empty : IsLeaf (dir []) := by
  intro q hq
  obtain ⟨name, rest, rfl⟩ := List.exists_cons_of_ne_nil hq
  rfl

/-- What setting entries does to the names in a directory. -/
structure Extends (fresh : Name → Prop) (es es' : List (Name × Node)) : Prop where
  /-- The names that were there come first, in their order. -/
  names : es.map Prod.fst <+: es'.map Prod.fst
  /-- Distinct names stay distinct. -/
  nodup : (es.map Prod.fst).Nodup → (es'.map Prod.fst).Nodup
  /-- Other names are fresh ones. -/
  others : ∀ k ∈ es'.map Prod.fst, k ∈ es.map Prod.fst ∨ fresh k

theorem extends_setEntry {fresh : Name → Prop} {name : Name} {es : List (Name × Node)}
    (hname : name ∈ es.map Prod.fst ∨ fresh name) (n : Node) : Extends fresh es (setEntry name n es) where
  names := names_prefix_setEntry name n es
  nodup := nodup_names_setEntry
  others k hk := by
    rcases mem_names_setEntry hk with rfl | hk
    · exact hname
    · exact Or.inl hk

/-- Putting a node into a directory sets one of its entries. -/
theorem put_dir (es : List (Name × Node)) {q : Place} (hq : q ≠ []) (new : Node) :
    ∃ es', (dir es).put q new = dir es' ∧ Extends (fun k => q = [k]) es es' := by
  obtain ⟨name, rest, rfl⟩ := List.exists_cons_of_ne_nil hq
  by_cases hrest : rest = []
  · subst hrest
    refine ⟨_, put_singleton es name new, extends_setEntry ?_ new⟩
    exact Or.inr rfl
  · cases hn : es.lookup name with
    | some n => exact ⟨_, put_cons hn hrest new, extends_setEntry (Or.inl (mem_names_of_lookup hn)) _⟩
    | none =>
        obtain ⟨k, more, rfl⟩ := List.exists_cons_of_ne_nil hrest
        exact ⟨es, by simp [put, hn], ⟨List.prefix_rfl, id, fun _ hk => Or.inl hk⟩⟩

/-- Above a place with room for an entry there are directories all the way. -/
theorem HasRoom.dir_above {tree : Node} {q r : Place} (hroom : tree.HasRoom (q ++ r)) (hr : r ≠ []) :
    ∃ es, tree.at? q = some (dir es) := by
  rcases hroom with h | ⟨p, name, es, hplace, hes⟩
  · exact absurd (List.append_eq_nil_iff.mp h).2 hr
  obtain ⟨r', last, rfl⟩ := (List.eq_nil_or_concat r).resolve_left hr
  rw [List.concat_eq_append, ← List.append_assoc] at hplace
  obtain ⟨rfl, -⟩ := List.append_inj' hplace rfl
  by_cases hr' : r' = []
  · subst hr'
    exact ⟨es, by simpa using hes⟩
  · exact Node.dir_above hr' hes

/-- With a leaf put where there is no directory, each place is the one of the leaf, or a directory above
it, or as it was. -/
theorem at?_put_leaf {tree new : Node} {place : Place} (hroom : tree.HasRoom place) (hnew : new.IsLeaf)
    (hold : ∀ es, tree.at? place ≠ some (dir es)) (q : Place) :
    (q = place ∧ (tree.put place new).at? q = some new) ∨ (tree.put place new).at? q = tree.at? q ∨
      ∃ es es', tree.at? q = some (dir es) ∧ (tree.put place new).at? q = some (dir es') ∧
        Extends (fun k => place = q ++ [k]) es es' := by
  by_cases hbelow : place <+: q
  · obtain ⟨r, rfl⟩ := hbelow
    by_cases hr : r = []
    · subst hr
      rw [List.append_nil]
      exact Or.inl ⟨rfl, at?_put_self hroom new⟩
    · refine Or.inr (Or.inl ?_)
      rw [at?_put_append hroom, hnew r hr]
      -- nothing was below the place either, because there was no directory
      cases hat : tree.at? (place ++ r) with
      | none => rfl
      | some n =>
          obtain ⟨es, hes⟩ := dir_above hr hat
          exact absurd hes (hold es)
  · by_cases habove : q <+: place
    · obtain ⟨r, rfl⟩ := habove
      have hr : r ≠ [] := by
        rintro rfl
        exact hbelow (by simp)
      obtain ⟨es, hes⟩ := hroom.dir_above hr
      obtain ⟨es', hput, hextends⟩ := put_dir es hr new
      refine Or.inr (Or.inr ⟨es, es', hes, ?_, hextends.names, hextends.nodup, fun k hk => ?_⟩)
      · rw [at?_put_above tree new q hr, hes, Option.map_some, hput]
      · exact (hextends.others k hk).imp id fun h => by rw [h]
    · exact Or.inr (Or.inl (at?_put_beside tree new hbelow habove))

/-- No name comes twice where a leaf is put, as long as its own name is one that an entry can have. -/
theorem tidy_put_leaf {tree new : Node} {place : Place} (hroom : tree.HasRoom place) (hnew : new.IsLeaf)
    (hold : ∀ es, tree.at? place ≠ some (dir es))
    (hname : ∀ d name, place = d ++ [name] → tree.at? place = none → IsStep name) (htidy : tree.Tidy) :
    (tree.put place new).Tidy := by
  intro p es hes
  rcases at?_put_leaf hroom hnew hold p with ⟨rfl, hput⟩ | hsame | ⟨es₁, es', hes₁, hes', hextends⟩
  · cases hput.symm.trans hes
    cases es with
    | nil => exact ⟨List.nodup_nil, by simp⟩
    | cons e rest =>
        -- a leaf has no entries
        have hnone := hnew [e.1] (by simp)
        rw [at?_dir_cons, List.lookup_cons_self] at hnone
        cases hnone
  · exact htidy p es (hsame.symm.trans hes)
  · cases hes'.symm.trans hes
    obtain ⟨hnodup, hsteps⟩ := htidy p es₁ hes₁
    refine ⟨hextends.nodup hnodup, fun k hk => ?_⟩
    rcases hextends.others k hk with hk | rfl
    · exact hsteps k hk
    · cases hn : es₁.lookup k with
      | none => exact hname p k rfl (by rw [at?_entry hes₁, hn])
      | some n => exact hsteps k (mem_names_of_lookup hn)

/-- A leaf other than a link is put where there was nothing, or a file in place of a file. -/
theorem grows_put_leaf {written : Place → Prop} {tree new : Node} {place : Place} (hroom : tree.HasRoom place)
    (hnew : new.IsLeaf) (hlink : ∀ target, new ≠ link target)
    (hold : ∀ n, tree.at? place = some n → ∃ content content', n = file content ∧ new = file content')
    (hwritten : ∀ content, new = file content → written place)
    (hname : ∀ d name, place = d ++ [name] → tree.at? place = none → IsStep name) :
    Grows written tree (tree.put place new) := by
  have hnodir : ∀ es, tree.at? place ≠ some (dir es) := by
    intro es hes
    obtain ⟨c, c', hc, -⟩ := hold _ hes
    cases hc
  have hcases := at?_put_leaf hroom hnew hnodir
  constructor
  case dir =>
    intro p es hes
    rcases hcases p with ⟨rfl, -⟩ | hsame | ⟨es₁, es', hes₁, hes', hpre⟩
    · exact absurd hes (hnodir es)
    · exact ⟨es, hsame.trans hes, List.prefix_rfl⟩
    · cases hes.symm.trans hes₁
      exact ⟨es', hes', hpre.names⟩
  case link =>
    intro p target
    rcases hcases p with ⟨rfl, hput⟩ | hsame | ⟨es₁, es', hes₁, hes', -⟩
    · refine ⟨fun h => absurd (Option.some.inj (hput.symm.trans h)) (hlink target), fun h => ?_⟩
      obtain ⟨c, c', hc, -⟩ := hold _ h
      cases hc
    · rw [hsame]
    · exact ⟨fun h => absurd (hes'.symm.trans h) (by simp), fun h => absurd (hes₁.symm.trans h) (by simp)⟩
  case stays =>
    intro p c hc
    rcases hcases p with ⟨rfl, hput⟩ | hsame | ⟨es₁, es', hes₁, -, -⟩
    · obtain ⟨_, c', -, rfl⟩ := hold _ hc
      exact ⟨c', hput⟩
    · exact ⟨c, hsame.trans hc⟩
    · exact absurd (hes₁.symm.trans hc) (by simp)
  case file =>
    intro p c hp
    rcases hcases p with ⟨rfl, hput⟩ | hsame | ⟨es₁, es', hes₁, hes', -⟩
    · refine ⟨fun h => absurd (hwritten c (Option.some.inj (hput.symm.trans h))) hp, fun h => ?_⟩
      obtain ⟨_, c', -, hc'⟩ := hold _ h
      exact absurd (hwritten c' hc') hp
    · rw [hsame]
    · exact ⟨fun h => absurd (hes'.symm.trans h) (by simp), fun h => absurd (hes₁.symm.trans h) (by simp)⟩
  case tidy => exact tidy_put_leaf hroom hnew hnodir hname

/-- Writing a file where there is none, or in place of one. -/
theorem grows_put_file {tree : Node} {place : Place} (hroom : tree.HasRoom place)
    (hold : ∀ n, tree.at? place = some n → ∃ content, n = file content)
    (hname : ∀ d name, place = d ++ [name] → tree.at? place = none → IsStep name) (content : ByteArray) :
    Grows (· = place) tree (tree.put place (file content)) := by
  refine grows_put_leaf hroom (isLeaf_file content) (by simp) ?_ (fun _ _ => rfl) hname
  intro n hn
  obtain ⟨c, rfl⟩ := hold n hn
  exact ⟨c, content, rfl, rfl⟩

theorem grows_put_dir {written : Place → Prop} {tree : Node} {place : Place} (hroom : tree.HasRoom place)
    (hold : tree.at? place = none) (hname : ∀ d name, place = d ++ [name] → IsStep name) :
    Grows written tree (tree.put place (dir [])) :=
  grows_put_leaf hroom isLeaf_empty (by simp) (fun n hn => absurd (hold.symm.trans hn) (by simp))
    (fun _ hc => absurd hc (by simp)) fun d name hplace _ => hname d name hplace

/-! ### Where paths lead -/

section Walks

variable {written : Place → Prop} {before after : Node} {followLast : Bool} {left l : Nat} {place p : Place}
  {names : List Name}

/-- What a way finds, it finds at the same place in a tree that has grown. -/
theorem Walks.grows (hgrows : Grows written before after) {n : Node}
    (h : Walks before followLast left place names (.there p n) l) :
    ∃ n', Walks after followLast left place names (.there p n') l := by
  generalize hf : Found.there p n = f at h
  induction h with
  | @arrive left place m hat =>
      cases hf
      cases n with
      | dir es =>
          obtain ⟨es', hes', -⟩ := hgrows.dir hat
          exact ⟨_, .arrive hes'⟩
      | file c =>
          obtain ⟨c', hc'⟩ := hgrows.stays hat
          exact ⟨_, .arrive hc'⟩
      | link target => exact ⟨_, .arrive (hgrows.link.mpr hat)⟩
  | stay hdir hname _ ih =>
      obtain ⟨n', h⟩ := ih hf
      obtain ⟨es', hes', -⟩ := hgrows.dir hdir
      exact ⟨n', .stay hes' hname h⟩
  | up hdir _ ih =>
      obtain ⟨n', h⟩ := ih hf
      obtain ⟨es', hes', -⟩ := hgrows.dir hdir
      exact ⟨n', .up hes' h⟩
  | enter hdir hname hn hlink _ ih =>
      obtain ⟨n', h⟩ := ih hf
      obtain ⟨es', m', hes', hm', hlink'⟩ := hgrows.entry hdir hn hlink
      exact ⟨n', .enter hes' hname hm' hlink' h⟩
  | follow hdir hname hn hlast _ ih =>
      obtain ⟨n', h⟩ := ih hf
      obtain ⟨es', hes', hn'⟩ := hgrows.link_entry hdir hn
      exact ⟨n', .follow hes' hname hn' hlast h⟩
  | atLink hdir hname hn hlast =>
      cases hf
      obtain ⟨es', hes', hn'⟩ := hgrows.link_entry hdir hn
      exact ⟨_, .atLink hes' hname hn' hlast⟩
  | absent => cases hf

/-- A way that missed its last name finds what has been put there. -/
theorem Walks.filled (hgrows : Grows written before after) {name : Name} {n : Node}
    (h : Walks before followLast left place names (.absent p name) l) (hn : after.at? (p ++ [name]) = some n)
    (hlink : ∀ target, n ≠ link target) :
    Walks after followLast left place names (.there (p ++ [name]) n) l := by
  generalize hf : Found.absent p name = f at h
  induction h with
  | arrive => cases hf
  | stay hdir hname _ ih =>
      obtain ⟨es', hes', -⟩ := hgrows.dir hdir
      exact .stay hes' hname (ih hf)
  | up hdir _ ih =>
      obtain ⟨es', hes', -⟩ := hgrows.dir hdir
      exact .up hes' (ih hf)
  | enter hdir hname hm hlink' _ ih =>
      obtain ⟨es', m', hes', hm', hlink'⟩ := hgrows.entry hdir hm hlink'
      exact .enter hes' hname hm' hlink' (ih hf)
  | follow hdir hname hm hlast _ ih =>
      obtain ⟨es', hes', hm'⟩ := hgrows.link_entry hdir hm
      exact .follow hes' hname hm' hlast (ih hf)
  | atLink => cases hf
  | absent hdir hname _ _ =>
      cases hf
      obtain ⟨es', hes', -⟩ := hgrows.dir hdir
      rw [at?_entry hes'] at hn
      exact .enter hes' hname hn hlink (.arrive (by rw [at?_entry hes', hn]))

/-- What a path leads to, it leads to at the same place in a tree that has grown. -/
theorem LeadsTo.grows (hgrows : Grows written before after) {cwd : Place} {q : Path} {n : Node}
    (h : before.LeadsTo cwd q place n) : ∃ n', after.LeadsTo cwd q place n' := by
  obtain ⟨l, h⟩ := h
  obtain ⟨n', h'⟩ := h.grows hgrows
  exact ⟨n', l, h'⟩

theorem LeadsTo.grows_dir (hgrows : Grows written before after) {cwd : Place} {q : Path}
    {es : List (Name × Node)}
    (h : before.LeadsTo cwd q place (dir es)) : ∃ es', after.LeadsTo cwd q place (dir es') := by
  obtain ⟨n', h'⟩ := h.grows hgrows
  obtain ⟨es', hes', -⟩ := hgrows.dir h.at_there
  cases h'.at_there.symm.trans hes'
  exact ⟨es', h'⟩

theorem LeadsTo.exists_file (hgrows : Grows written before after) {cwd : Place} {q : Path} {content : ByteArray}
    (h : before.LeadsTo cwd q place (file content)) :
    ∃ content', after.LeadsTo cwd q place (file content') := by
  obtain ⟨n', h'⟩ := h.grows hgrows
  obtain ⟨content', hc'⟩ := hgrows.stays h.at_there
  cases h'.at_there.symm.trans hc'
  exact ⟨content', h'⟩

/-- A file that a path leads to is the same unless it was written. -/
theorem LeadsTo.grows_file (hgrows : Grows written before after) {cwd : Place} {q : Path} {content : ByteArray}
    (h : before.LeadsTo cwd q place (file content)) (hw : ¬ written place) :
    after.LeadsTo cwd q place (file content) := by
  obtain ⟨n', h'⟩ := h.grows hgrows
  cases h'.at_there.symm.trans (hgrows.keeps_file hw h.at_there)
  exact h'

end Walks

/-! ### Making and writing -/

theorem isStep_of_concat {d : Place} {name : Name} (h : IsStep name) (d' : Place) (name' : Name)
    (hplace : d ++ [name] = d' ++ [name']) : IsStep name' := by
  obtain ⟨-, hlast⟩ := List.append_inj' hplace rfl
  rwa [← (List.cons.inj hlast).1]

/-- A directory that has just been made is empty, and nothing else has changed. -/
theorem leadsTo_makeDir {tree tree' : Node} {cwd : Place} {p : Path} (h : tree.makeDir cwd p = .ok tree') :
    ∃ place, tree'.LeadsTo cwd p place (dir []) ∧ tree.at? place = none ∧
      Grows (fun _ => False) tree tree' := by
  unfold makeDir findLink at h
  cases hw : tree.walk false maxLinks (startOf cwd p) p.names with
  | error c => rw [hw] at h; cases h
  | ok r =>
      rw [hw] at h
      obtain ⟨f, l⟩ := r
      cases f with
      | there place n => cases h
      | absent d name =>
          cases h
          have hway := walk_eq_ok_iff.mp hw
          obtain ⟨⟨es, hes, hnone⟩, hname, -⟩ := hway.dir_absent
          have hroom : tree.HasRoom (d ++ [name]) := Or.inr ⟨d, name, es, rfl, hes⟩
          have hold : tree.at? (d ++ [name]) = none := by rw [at?_entry hes, hnone]
          have hgrows : Grows (fun _ => False) tree _ := grows_put_dir hroom hold (isStep_of_concat hname)
          exact ⟨d ++ [name], ⟨l, hway.absent_of_link.filled hgrows (at?_put_self hroom _) (by simp)⟩,
            hold, hgrows⟩

/-- A file that has just been written is at its path, and no other file has changed. -/
theorem leadsTo_writeBytes {tree tree' : Node} {cwd : Place} {p : Path} {content : ByteArray}
    (hstart : ∀ target, tree.at? (startOf cwd p) ≠ some (link target))
    (h : tree.writeBytes cwd p content = .ok tree') :
    ∃ place, tree'.LeadsTo cwd p place (file content) ∧ Grows (· = place) tree tree' := by
  unfold writeBytes find at h
  cases hw : tree.walk true maxLinks (startOf cwd p) p.names with
  | error c => rw [hw] at h; cases h
  | ok r =>
      rw [hw] at h
      obtain ⟨f, l⟩ := r
      have hway := walk_eq_ok_iff.mp hw
      cases f with
      | there place n =>
          cases n with
          | dir es => cases h
          | link target => exact absurd rfl (hway.not_link hstart target)
          | file old =>
              cases h
              have hold := hway.at_there
              have hroom := hasRoom_of_at? hold
              have hgrows := grows_put_file hroom (fun n hn => ⟨old, Option.some.inj (hn.symm.trans hold)⟩)
                (fun _ _ _ hnone => absurd (hold.symm.trans hnone) (by simp)) content
              obtain ⟨n', h'⟩ := hway.grows hgrows
              cases h'.at_there.symm.trans (at?_put_self hroom _)
              exact ⟨place, ⟨l, h'⟩, hgrows⟩
      | absent d name =>
          cases h
          obtain ⟨⟨es, hes, hnone⟩, hname, -⟩ := hway.dir_absent
          have hroom : tree.HasRoom (d ++ [name]) := Or.inr ⟨d, name, es, rfl, hes⟩
          have hold : tree.at? (d ++ [name]) = none := by rw [at?_entry hes, hnone]
          have hgrows := grows_put_file hroom (fun n hn => absurd (hold.symm.trans hn) (by simp))
            (fun d' name' hplace _ => isStep_of_concat hname d' name' hplace) content
          exact ⟨d ++ [name], ⟨l, hway.filled hgrows (at?_put_self hroom _) (by simp)⟩, hgrows⟩

end SolidityKit.Node
