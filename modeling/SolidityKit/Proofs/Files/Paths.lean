/-
What the spelling of a path says about its names.

A path that is read from a text has names that a directory can hold, `..` apart, and no code point in them
that is not in the text (`isName_of_mem_ofPoints`, `mem_of_mem_ofPoints`).  Whether the system can take a path
depends on the code points in its spelling, and these are the ones in its names besides slashes (`usable_iff`).
-/
import SolidityKit.Files.Path
import SolidityKit.Proofs.Text.CodePoints
import SolidityKit.Proofs.Text.Lines

namespace SolidityKit

/-- A name between slashes: not empty, not a dot alone, and without a slash. -/
def Files.IsName (name : Name) : Prop := name ≠ "" ∧ name ≠ "." ∧ .char '/' ∉ name

instance (name : Files.Name) : Decidable (Files.IsName name) := inferInstanceAs (Decidable (_ ∧ _ ∧ _))

namespace Path

open Files

/-! ### Reading a path -/

theorem mem_of_mem_splitAt {sep c : CodePoint} {cs piece : Points} (h : piece ∈ Text.splitAt sep cs)
    (hc : c ∈ piece) : c ∈ cs := by
  rw [← Text.joinWith_splitAt sep cs]
  generalize Text.splitAt sep cs = pieces at h
  induction pieces with
  | nil => cases h
  | cons first more ih =>
      cases more with
      | nil => rwa [List.mem_singleton.mp h] at hc
      | cons second more =>
          simp only [Text.joinWith, List.mem_append, List.mem_cons]
          rcases List.mem_cons.mp h with rfl | h
          · exact Or.inl hc
          · exact Or.inr (Or.inr (ih h))

theorem mem_namesOf {cs : Points} {name : Name} (h : name ∈ namesOf cs) : IsName name ∧ ∀ c ∈ name, c ∈ cs := by
  obtain ⟨hpiece, hkept⟩ := List.mem_filter.mp h
  rw [Bool.and_eq_true, decide_eq_true_eq, decide_eq_true_eq] at hkept
  exact ⟨⟨hkept.1, hkept.2, Text.notMem_of_mem_splitAt hpiece⟩, fun c hc => mem_of_mem_splitAt hpiece hc⟩

theorem mem_ofPoints {cs : Points} {name : Name} (h : name ∈ (ofPoints cs).names) :
    IsName name ∧ ∀ c ∈ name, c ∈ cs := by
  unfold ofPoints at h
  split at h
  · obtain ⟨hname, hc⟩ := mem_namesOf h
    exact ⟨hname, fun c hmem => by simp [hc c hmem]⟩
  · obtain ⟨hname, hc⟩ := mem_namesOf h
    exact ⟨hname, fun c hmem => by simp [hc c hmem]⟩
  · obtain ⟨hname, hc⟩ := mem_namesOf h
    exact ⟨hname, fun c hmem => by simp [hc c hmem]⟩
  · exact mem_namesOf h

theorem isName_of_mem_ofPoints {cs : Points} {name : Name} (h : name ∈ (ofPoints cs).names) : IsName name :=
  (mem_ofPoints h).1

theorem mem_of_mem_ofPoints {cs : Points} {name : Name} (h : name ∈ (ofPoints cs).names) {c : CodePoint}
    (hc : c ∈ name) : c ∈ cs :=
  (mem_ofPoints h).2 c hc

/-! ### Paths that the system can take -/

/-- The system can take the path. -/
def Usable (p : Path) : Prop := p.spelling.Usable

instance (p : Path) : Decidable p.Usable := inferInstanceAs (Decidable p.spelling.Usable)

theorem isUsable_iff {p : Path} : p.isUsable = true ↔ p.Usable := List.all_eq_true

theorem mem_intercalate {c : CodePoint} {sep : Points} (hc : c ∉ sep) (pieces : List Points) :
    c ∈ sep.intercalate pieces ↔ ∃ piece ∈ pieces, c ∈ piece := by
  induction pieces with
  | nil => simp
  | cons first more ih =>
      cases more with
      | nil => simp
      | cons second more =>
          rw [List.intercalate_cons_cons, List.mem_append, List.mem_append, ih]
          simp [hc]

theorem usable_iff (p : Path) : p.Usable ↔ ∀ name ∈ p.names, Points.Usable name := by
  obtain ⟨root, names⟩ := p
  unfold Usable spelling
  split
  · next hroot hempty =>
      simp only at hempty
      subst hempty
      exact ⟨fun _ name hname => absurd hname List.not_mem_nil, fun _ => by decide⟩
  · next hne =>
      -- the slashes, at the start and between names, are usable themselves
      have hstart : ∀ c ∈ root.spelling, c.isUsable = true := by cases root <;> decide
      have hslash : CodePoint.isUsable (.char '/') = true := by decide
      constructor
      · intro h name hname c hc
        by_cases hsep : c ∈ [CodePoint.char '/']
        · rwa [List.mem_singleton.mp hsep]
        · exact h c (List.mem_append_right _ ((mem_intercalate hsep names).mpr ⟨name, hname, hc⟩))
      · intro h c hc
        rcases List.mem_append.mp hc with hc | hc
        · exact hstart c hc
        · by_cases hsep : c ∈ [CodePoint.char '/']
          · rwa [List.mem_singleton.mp hsep]
          · obtain ⟨name, hname, hc⟩ := (mem_intercalate hsep names).mp hc
            exact h name hname c hc

theorem Usable.parent {p : Path} (h : p.Usable) : p.parent.Usable := by
  rw [usable_iff] at h ⊢
  exact fun name hname => h name (List.dropLast_subset _ hname)

end Path

end SolidityKit
