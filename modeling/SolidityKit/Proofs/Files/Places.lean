/-
What stands at the places of a tree.

Everything that is proved about file trees goes through `at?`: what a tree holds at a place.  Putting a node
somewhere changes what is at and below its place, and makes each directory above it a directory with one
entry set (`at?_put_append`, `at?_put_above`, `at?_put_beside`).
-/
import SolidityKit.Files.Tree

namespace SolidityKit.Node

open Files

/-! ### Entries -/

theorem lookup_cons_of_ne {k m : Name} (h : k ≠ m) (n : Node) (es : List (Name × Node)) :
    ((m, n) :: es).lookup k = es.lookup k := by
  have hb : (k == m) = false := by simpa using h
  rw [List.lookup_cons, hb]

theorem lookup_setEntry (name k : Name) (n : Node) (es : List (Name × Node)) :
    (setEntry name n es).lookup k = if k = name then some n else es.lookup k := by
  by_cases hk : k = name
  · subst hk
    rw [if_pos rfl]
    induction es with
    | nil => exact List.lookup_cons_self
    | cons e rest ih =>
        obtain ⟨m, old⟩ := e
        by_cases hm : m = k
        · simp [setEntry, hm]
        · rw [setEntry, if_neg hm, lookup_cons_of_ne (Ne.symm hm), ih]
  · rw [if_neg hk]
    induction es with
    | nil => exact lookup_cons_of_ne hk n []
    | cons e rest ih =>
        obtain ⟨m, old⟩ := e
        by_cases hm : m = name
        · subst hm
          rw [setEntry, if_pos rfl, lookup_cons_of_ne hk, lookup_cons_of_ne hk]
        · rw [setEntry, if_neg hm]
          by_cases hkm : k = m
          · subst hkm
            rw [List.lookup_cons_self, List.lookup_cons_self]
          · rw [lookup_cons_of_ne hkm, lookup_cons_of_ne hkm, ih]

/-- Setting an entry keeps the names that are there, in their order. -/
theorem names_prefix_setEntry (name : Name) (n : Node) (es : List (Name × Node)) :
    es.map Prod.fst <+: (setEntry name n es).map Prod.fst := by
  induction es with
  | nil => exact List.nil_prefix
  | cons e rest ih =>
      obtain ⟨m, old⟩ := e
      by_cases hm : m = name
      · simp [setEntry, hm]
      · simpa [setEntry, hm] using ih

theorem mem_names_setEntry {name k : Name} {n : Node} {es : List (Name × Node)}
    (h : k ∈ (setEntry name n es).map Prod.fst) : k = name ∨ k ∈ es.map Prod.fst := by
  induction es with
  | nil => simpa [setEntry] using h
  | cons e rest ih =>
      obtain ⟨m, old⟩ := e
      by_cases hm : m = name
      · simp only [setEntry, hm, if_true, List.map_cons, List.mem_cons] at h ⊢
        exact Or.inr h
      · simp only [setEntry, hm, if_false, List.map_cons, List.mem_cons] at h ⊢
        rcases h with h | h
        · exact Or.inr (Or.inl h)
        · exact (ih h).imp id Or.inr

theorem nodup_names_setEntry {name : Name} {n : Node} {es : List (Name × Node)}
    (h : (es.map Prod.fst).Nodup) : ((setEntry name n es).map Prod.fst).Nodup := by
  induction es with
  | nil => simp [setEntry]
  | cons e rest ih =>
      obtain ⟨m, old⟩ := e
      rw [List.map_cons, List.nodup_cons] at h
      by_cases hm : m = name
      · simpa [setEntry, hm] using h
      · simp only [setEntry, hm, if_false, List.map_cons, List.nodup_cons]
        refine ⟨fun hmem => ?_, ih h.2⟩
        rcases mem_names_setEntry hmem with he | hmem
        · exact hm he
        · exact h.1 hmem

theorem mem_names_of_lookup {name : Name} {es : List (Name × Node)} {n : Node} (h : es.lookup name = some n) :
    name ∈ es.map Prod.fst := by
  obtain ⟨l₁, l₂, rfl, -⟩ := List.lookup_eq_some_iff.mp h
  simp

theorem lookup_of_mem_names {name : Name} {es : List (Name × Node)} (h : name ∈ es.map Prod.fst) :
    ∃ n, es.lookup name = some n := by
  cases hn : es.lookup name with
  | some n => exact ⟨n, rfl⟩
  | none =>
      obtain ⟨e, he, rfl⟩ := List.mem_map.mp h
      exact absurd rfl (bne_iff_ne.mp (List.lookup_eq_none_iff.mp hn e he))

theorem lookup_of_mem {name : Name} {es : List (Name × Node)} {n : Node} (hnodup : (es.map Prod.fst).Nodup)
    (h : (name, n) ∈ es) : es.lookup name = some n := by
  induction es with
  | nil => cases h
  | cons e rest ih =>
      obtain ⟨k, m⟩ := e
      rw [List.map_cons, List.nodup_cons] at hnodup
      rcases List.mem_cons.mp h with he | hmem
      · cases he
        exact List.lookup_cons_self
      · have hne : name ≠ k := by
          rintro rfl
          exact hnodup.1 (List.mem_map.mpr ⟨_, hmem, rfl⟩)
        rw [lookup_cons_of_ne hne, ih hnodup.2 hmem]

/-! ### Places -/

@[simp] theorem at?_dir_cons (es : List (Name × Node)) (name : Name) (rest : Place) :
    (dir es).at? (name :: rest) = (es.lookup name).bind (at? rest) := rfl

theorem at?_append (tree : Node) (p q : Place) : tree.at? (p ++ q) = (tree.at? p).bind (at? q) := by
  induction p generalizing tree with
  | nil => rfl
  | cons name rest ih =>
      show (tree.child? name).bind (at? (rest ++ q)) = ((tree.child? name).bind (at? rest)).bind (at? q)
      cases tree.child? name with
      | none => rfl
      | some n => exact ih n

theorem at?_entry {tree : Node} {p : Place} {es : List (Name × Node)} (h : tree.at? p = some (dir es))
    (name : Name) : tree.at? (p ++ [name]) = es.lookup name := by
  rw [at?_append, h, Option.bind_some, at?_dir_cons]
  cases es.lookup name <;> rfl

/-- Above whatever stands somewhere there are directories. -/
theorem dir_above {tree n : Node} {p q : Place} (hq : q ≠ []) (h : tree.at? (p ++ q) = some n) :
    ∃ es, tree.at? p = some (dir es) := by
  rw [at?_append] at h
  obtain ⟨m, hm, hn⟩ := Option.bind_eq_some_iff.mp h
  obtain ⟨name, rest, rfl⟩ := List.exists_cons_of_ne_nil hq
  cases m with
  | dir es => exact ⟨es, hm⟩
  | file c => exact absurd hn (by simp [at?, child?])
  | link target => exact absurd hn (by simp [at?, child?])

/-- On the way to a directory there are directories. -/
theorem dir_on_way {tree : Node} {p q : Place} {es : List (Name × Node)}
    (h : tree.at? (p ++ q) = some (dir es)) :
    ∃ es', tree.at? p = some (dir es') := by
  by_cases hq : q = []
  · rw [hq, List.append_nil] at h
    exact ⟨es, h⟩
  · exact dir_above hq h

/-! ### Putting a node somewhere -/

@[simp] theorem put_nil (tree new : Node) : tree.put [] new = new := by cases tree <;> rfl

theorem put_singleton (es : List (Name × Node)) (name : Name) (new : Node) :
    (dir es).put [name] new = dir (setEntry name new es) := by
  simp [put]

theorem put_cons {es : List (Name × Node)} {name : Name} {n : Node} (h : es.lookup name = some n)
    {rest : Place} (hrest : rest ≠ []) (new : Node) :
    (dir es).put (name :: rest) new = dir (setEntry name (n.put rest new) es) := by
  obtain ⟨k, more, rfl⟩ := List.exists_cons_of_ne_nil hrest
  simp [put, h]

/-- Something can be put at a place: it is the top, or there is a directory above it. -/
def HasRoom (tree : Node) (place : Place) : Prop :=
  place = [] ∨ ∃ p name es, place = p ++ [name] ∧ tree.at? p = some (dir es)

theorem hasRoom_of_at? {tree n : Node} {place : Place} (h : tree.at? place = some n) : tree.HasRoom place := by
  rcases List.eq_nil_or_concat place with rfl | ⟨p, name, rfl⟩
  · exact Or.inl rfl
  · rw [List.concat_eq_append] at h ⊢
    obtain ⟨es, hes⟩ := dir_above (by simp) h
    exact Or.inr ⟨p, name, es, rfl, hes⟩

/-- With room for a place of several names, there is room for the rest of them in the entry of the first. -/
theorem HasRoom.entry {tree : Node} {name : Name} {rest : Place} (hrest : rest ≠ [])
    (h : tree.HasRoom (name :: rest)) :
    ∃ es n, tree = dir es ∧ es.lookup name = some n ∧ n.HasRoom rest := by
  rcases h with h | ⟨p, last, es, hplace, hes⟩
  · cases h
  · cases p with
    | nil => exact absurd (List.cons.inj hplace).2 hrest
    | cons k p =>
        obtain ⟨rfl, rfl⟩ := List.cons.inj hplace
        cases tree with
        | dir top =>
            rw [at?_dir_cons] at hes
            obtain ⟨n, hn, hp⟩ := Option.bind_eq_some_iff.mp hes
            exact ⟨top, n, rfl, hn, Or.inr ⟨p, last, es, rfl, hp⟩⟩
        | file c => exact absurd hes (by simp [at?, child?])
        | link target => exact absurd hes (by simp [at?, child?])

/-- At and below the place of what was put there. -/
theorem at?_put_append {tree : Node} {place : Place} (h : tree.HasRoom place) (new : Node) (q : Place) :
    (tree.put place new).at? (place ++ q) = new.at? q := by
  induction place generalizing tree with
  | nil => rw [put_nil, List.nil_append]
  | cons name rest ih =>
      by_cases hrest : rest = []
      · subst hrest
        obtain ⟨es, rfl⟩ : ∃ es, tree = dir es := by
          rcases h with h | ⟨p, last, es, hplace, hes⟩
          · cases h
          · cases p with
            | nil => exact ⟨es, Option.some.inj hes⟩
            | cons k p => exact absurd (List.cons.inj hplace).2.symm (by simp)
        rw [put_singleton, List.singleton_append, at?_dir_cons, lookup_setEntry, if_pos rfl, Option.bind_some]
      · obtain ⟨es, n, rfl, hn, hroom⟩ := h.entry hrest
        rw [put_cons hn hrest, List.cons_append, at?_dir_cons, lookup_setEntry, if_pos rfl, Option.bind_some]
        exact ih hroom

theorem at?_put_self {tree : Node} {place : Place} (h : tree.HasRoom place) (new : Node) :
    (tree.put place new).at? place = some new := by
  have := at?_put_append h new []
  rwa [List.append_nil] at this

/-- Above the place, the node is put into what stands there. -/
theorem at?_put_above (tree new : Node) (p : Place) {q : Place} (hq : q ≠ []) :
    (tree.put (p ++ q) new).at? p = (tree.at? p).map fun n => n.put q new := by
  induction p generalizing tree with
  | nil => rfl
  | cons name rest ih =>
      have hrest : rest ++ q ≠ [] := by simp [hq]
      cases tree with
      | dir es =>
          cases hn : es.lookup name with
          | some n =>
              rw [List.cons_append, put_cons hn hrest, at?_dir_cons, lookup_setEntry, if_pos rfl,
                at?_dir_cons, hn]
              exact ih n
          | none =>
              have hput : (dir es).put (name :: (rest ++ q)) new = dir es := by
                obtain ⟨k, more, hk⟩ := List.exists_cons_of_ne_nil hrest
                rw [hk]
                simp [put, hn]
              rw [List.cons_append, hput, at?_dir_cons, hn]
              rfl
      | file c => rfl
      | link target => rfl

/-- Beside the place, everything stays as it is. -/
theorem at?_put_beside (tree new : Node) {place q : Place} (hbelow : ¬ place <+: q) (habove : ¬ q <+: place) :
    (tree.put place new).at? q = tree.at? q := by
  induction place generalizing tree q with
  | nil => exact absurd List.nil_prefix hbelow
  | cons name rest ih =>
      cases q with
      | nil => exact absurd List.nil_prefix habove
      | cons k q =>
          cases tree with
          | file c => rfl
          | link target => rfl
          | dir es =>
              rw [List.cons_prefix_cons, not_and] at hbelow habove
              by_cases hrest : rest = []
              · subst hrest
                have hk : k ≠ name := fun h => hbelow h.symm List.nil_prefix
                rw [put_singleton, at?_dir_cons, at?_dir_cons, lookup_setEntry, if_neg hk]
              · cases hn : es.lookup name with
                | none =>
                    obtain ⟨m, more, rfl⟩ := List.exists_cons_of_ne_nil hrest
                    simp [put, hn]
                | some n =>
                    rw [put_cons hn hrest, at?_dir_cons, at?_dir_cons, lookup_setEntry]
                    by_cases hk : k = name
                    · subst hk
                      rw [if_pos rfl, hn]
                      exact ih n (hbelow rfl) (habove rfl)
                    · rw [if_neg hk]

end SolidityKit.Node
