/-
The order of directories.

A directory has its entries in the order in which the system lists them, and the next time, or on another
machine, it may list them in another one.  `Relisted` relates two trees that differ in this alone.  What stands
at a place is then the same up to relisting, so that paths lead to the same places (`LeadsTo.relisted`) and the
same files are taken below them.  A sorted listing is determined by what it lists, and so it cannot differ
either (`filesBelow_relisted`).
-/
import SolidityKit.Proofs.Files.SortedListing

namespace SolidityKit.Node

open Files

/-- The same tree, with the entries of each directory in any order. -/
inductive Relisted : Node → Node → Prop
  /-- A file is the same. -/
  | file (content : ByteArray) : Relisted (file content) (file content)
  /-- A link is the same. -/
  | link (target : Points) : Relisted (link target) (link target)
  /-- A directory has the same names in some order, and each of them stands for the same up to relisting. -/
  | dir {es es' : List (Name × Node)} (hnames : (es.map Prod.fst).Perm (es'.map Prod.fst))
      (hentries : ∀ name n n', es.lookup name = some n → es'.lookup name = some n' → Relisted n n') :
      Relisted (dir es) (dir es')

section Relisted

variable {a b n : Node} {es : List (Name × Node)} {cwd p place : Place} {name : Name}

namespace Relisted

theorem symm (h : Relisted a b) : Relisted b a := by
  induction h with
  | file content => exact .file content
  | link target => exact .link target
  | dir hnames _ ih => exact .dir hnames.symm fun name n n' hn hn' => ih name n' n hn' hn

theorem at? (h : Relisted a b) (hn : a.at? p = some n) : ∃ n', b.at? p = some n' ∧ Relisted n n' := by
  induction p generalizing a b with
  | nil =>
      cases hn
      exact ⟨b, rfl, h⟩
  | cons name rest ih =>
      cases h with
      | file content => cases hn
      | link target => cases hn
      | dir hnames hentries =>
          rw [at?_dir_cons] at hn
          obtain ⟨m, hm, hrest⟩ := Option.bind_eq_some_iff.mp hn
          obtain ⟨m', hm'⟩ := lookup_of_mem_names (hnames.mem_iff.mp (mem_names_of_lookup hm))
          rw [at?_dir_cons, hm', Option.bind_some]
          exact ih (hentries name m m' hm hm') hrest

/-- A directory stays one, with the same names. -/
theorem at?_dir (h : Relisted a b) (hes : a.at? p = some (Node.dir es)) :
    ∃ es', b.at? p = some (Node.dir es') ∧ (es.map Prod.fst).Perm (es'.map Prod.fst) := by
  obtain ⟨n', hn', hrel⟩ := h.at? hes
  cases hrel with
  | dir hnames _ => exact ⟨_, hn', hnames⟩

theorem entry (h : Relisted a b) (hes : a.at? p = some (Node.dir es)) (hn : es.lookup name = some n) :
    ∃ es' n', b.at? p = some (Node.dir es') ∧ es'.lookup name = some n' ∧ Relisted n n' := by
  obtain ⟨es', hes', -⟩ := h.at?_dir hes
  rw [← at?_entry hes] at hn
  obtain ⟨n', hn', hrel⟩ := h.at? hn
  rw [at?_entry hes'] at hn'
  exact ⟨es', n', hes', hn', hrel⟩

theorem tidy (h : Relisted a b) (htidy : a.Tidy) : b.Tidy := by
  intro p es' hes'
  obtain ⟨es, hes, hnames⟩ := h.symm.at?_dir hes'
  obtain ⟨hnodup, hsteps⟩ := htidy p es hes
  exact ⟨hnames.nodup_iff.mpr hnodup, fun name hname => hsteps name (hnames.mem_iff.mp hname)⟩

theorem plain (h : Relisted a b) (hplain : a.Plain) : b.Plain := by
  intro p target hlink
  obtain ⟨n, hn, hrel⟩ := h.symm.at? hlink
  cases hrel
  exact hplain p target hn

end Relisted

/-- What a way finds, it finds in a relisted tree, up to relisting. -/
theorem Walks.relisted (hrel : Relisted a b) {followLast : Bool} {left l : Nat} {names : List Name}
    (h : Walks a followLast left place names (.there p n) l) :
    ∃ n', Walks b followLast left place names (.there p n') l ∧ Relisted n n' := by
  generalize hf : Found.there p n = f at h
  induction h with
  | arrive hat =>
      cases hf
      obtain ⟨n', hn', hsame⟩ := hrel.at? hat
      exact ⟨n', .arrive hn', hsame⟩
  | stay hdir hname _ ih =>
      obtain ⟨n', h, hsame⟩ := ih hf
      obtain ⟨es', hes', -⟩ := hrel.at?_dir hdir
      exact ⟨n', .stay hes' hname h, hsame⟩
  | up hdir _ ih =>
      obtain ⟨n', h, hsame⟩ := ih hf
      obtain ⟨es', hes', -⟩ := hrel.at?_dir hdir
      exact ⟨n', .up hes' h, hsame⟩
  | enter hdir hname hn hlink _ ih =>
      obtain ⟨n', h, hsame⟩ := ih hf
      obtain ⟨es', m', hes', hm', hentry⟩ := hrel.entry hdir hn
      have hlink' : ∀ target, m' ≠ link target := by
        rintro target rfl
        cases hentry
        exact hlink target rfl
      exact ⟨n', .enter hes' hname hm' hlink' h, hsame⟩
  | follow hdir hname hn hlast _ ih =>
      obtain ⟨n', h, hsame⟩ := ih hf
      obtain ⟨es', m', hes', hm', hentry⟩ := hrel.entry hdir hn
      cases hentry
      exact ⟨n', .follow hes' hname hm' hlast h, hsame⟩
  | atLink hdir hname hn hlast =>
      cases hf
      obtain ⟨es', m', hes', hm', hentry⟩ := hrel.entry hdir hn
      cases hentry
      exact ⟨_, .atLink hes' hname hm' hlast, .link _⟩
  | absent => cases hf

theorem LeadsTo.relisted (hrel : Relisted a b) {path : Path} (h : a.LeadsTo cwd path place (dir es)) :
    ∃ es', b.LeadsTo cwd path place (dir es') := by
  obtain ⟨l, hway⟩ := h
  obtain ⟨n', hway', hsame⟩ := hway.relisted hrel
  cases hsame with
  | dir hnames hentries => exact ⟨_, l, hway'⟩

theorem Takes.relisted (hrel : Relisted a b) {s : Selection} {rel : Place} (h : a.Takes s place rel) :
    b.Takes s place rel := by
  obtain ⟨above, name, n, hnames, hn, hdir, htakes⟩ := h
  obtain ⟨n', hn', hsame⟩ := hrel.at? hn
  refine ⟨above, name, n', hnames, hn', fun es' => ?_, htakes⟩
  rintro rfl
  cases hsame with
  | dir => exact hdir _ rfl

/-- **A sorted listing does not depend on the order of directories.** -/
theorem filesBelow_relisted (htidy : a.Tidy) (hplain : a.Plain) (hrel : Relisted a b) {s : Selection}
    (hs : s.sorted = true) {path : Path} (hdir : a.LeadsTo cwd path place (dir es)) :
    b.filesBelow cwd s path = a.filesBelow cwd s path := by
  obtain ⟨es', hdir'⟩ := hdir.relisted hrel
  obtain ⟨rels, hfs, hlists⟩ := lists_filesBelow (s := s) htidy hplain hdir
  obtain ⟨rels', hfs', hlists'⟩ := lists_filesBelow (s := s) (hrel.tidy htidy) (hrel.plain hplain) hdir'
  rw [hs] at hlists hlists'
  have hkind : Lists true (a.Takes s place) rels' :=
    ⟨fun rel => (hlists'.mem_iff rel).trans ⟨.relisted hrel.symm, .relisted hrel⟩, hlists'.ordered⟩
  rw [hfs, hfs', hkind.unique hlists]

end Relisted

end SolidityKit.Node
