/-
Documents whose texts are whole.

The only way for a surrogate to get into a JSON text is a text that has one, as a value or as a key.  A
document without such texts is printed in characters (`plain_printAt`), so that what was printed has bytes.
-/
import SolidityKit.Json.Printer

namespace SolidityKit

/-- No text in the document has a surrogate that stands alone. -/
inductive Value.Whole : Value → Prop
  /-- A scalar that is no such text. -/
  | scalar {s : Scalar} (hs : ∀ cs, s ≠ .torn cs) : Whole (.scalar s)
  /-- The items of a list. -/
  | list {items : List Value} (hitems : ∀ v ∈ items, Whole v) : Whole (.list items)
  /-- The keys and the values of a map. -/
  | map {es : Entries} (hkeys : ∀ e ∈ es, ∀ cs, e.1 ≠ .torn cs) (hvalues : ∀ e ∈ es, Whole e.2) :
      Whole (.map es)

theorem Value.Whole.of_texts {es : List (String × Value)} (h : ∀ e ∈ es, e.2.Whole) :
    (Value.map (es.map fun e => (.text e.1, e.2))).Whole := by
  refine .map (fun e he cs hkey => ?_) fun e he => ?_ <;> obtain ⟨e', he', rfl⟩ := List.mem_map.mp he
  · cases hkey
  · exact h e' he'

namespace Json

/-- All code points are characters. -/
def IsPlain (cs : List CodePoint) : Prop := ∃ t : Text, cs = Points.ofText t

namespace IsPlain

variable {cs ds : List CodePoint}

theorem of_plain (t : Text) : IsPlain (Points.ofText t) := ⟨t, rfl⟩

theorem append (hcs : IsPlain cs) (hds : IsPlain ds) : IsPlain (cs ++ ds) := by
  obtain ⟨t, rfl⟩ := hcs
  obtain ⟨u, rfl⟩ := hds
  exact ⟨t ++ u, (List.map_append ..).symm⟩

theorem cons (c : Char) (hcs : IsPlain cs) : IsPlain (.char c :: cs) := by
  obtain ⟨t, rfl⟩ := hcs
  exact ⟨c :: t, rfl⟩

theorem flatMap {f : CodePoint → List CodePoint} (hf : ∀ c, IsPlain (f (.char c))) (t : Text) :
    IsPlain ((Points.ofText t).flatMap f) := by
  induction t with
  | nil => exact .of_plain []
  | cons c rest ih => exact (hf c).append ih

end IsPlain

theorem plain_printPoints (t : Text) : IsPlain (printPoints (Points.ofText t)) :=
  ((IsPlain.flatMap (fun c => .of_plain (escaped c)) t).append (.of_plain ['"'])).cons '"'

theorem plain_printScalar {s : Scalar} (hs : ∀ cs, s ≠ .torn cs) : IsPlain (printScalar s) := by
  cases s with
  | torn cs => exact absurd rfl (hs cs)
  | text t => exact plain_printPoints _
  | date d => exact plain_printPoints _
  | moment d c => exact plain_printPoints _
  | other v => exact plain_printPoints _
  | _ => exact .of_plain _

theorem plain_printKey {s : Scalar} (hs : ∀ cs, s ≠ .torn cs) : IsPlain (printKey s) := by
  cases s with
  | torn cs => exact absurd rfl (hs cs)
  | text t => exact plain_printPoints _
  | _ => exact ((plain_printScalar (fun _ h => by cases h)).append (.of_plain ['"'])).cons '"'

theorem plain_lineBefore (spread : Spread) (depth : Nat) : IsPlain (lineBefore spread depth) := by
  cases spread with
  | oneLine => exact .of_plain []
  | indented n => exact IsPlain.cons '\n' ⟨List.replicate (n * depth) ' ', List.map_replicate.symm⟩

theorem plain_between (spread : Spread) (depth : Nat) : IsPlain (between spread depth) := by
  cases spread with
  | oneLine => exact .of_plain _
  | indented n => exact (plain_lineBefore _ depth).cons ','

section Parts

variable {spread : Spread} {depth : Nat}

theorem plain_printItems {items : List Value} (h : ∀ v ∈ items, IsPlain (printAt spread depth v)) :
    IsPlain (printItems spread depth items) := by
  induction items with
  | nil => exact .of_plain []
  | cons v rest ih =>
      have hv := h v List.mem_cons_self
      have hrest := ih fun w hw => h w (List.mem_cons_of_mem v hw)
      cases rest with
      | nil => exact hv
      | cons w more => exact (hv.append (plain_between spread depth)).append hrest

theorem plain_printEntries {es : Entries} (hkeys : ∀ e ∈ es, ∀ cs, e.1 ≠ .torn cs)
    (h : ∀ e ∈ es, IsPlain (printAt spread depth e.2)) : IsPlain (printEntries spread depth es) := by
  induction es with
  | nil => exact .of_plain []
  | cons e rest ih =>
      obtain ⟨k, v⟩ := e
      have hk : IsPlain (printKey k) := plain_printKey (hkeys _ List.mem_cons_self)
      have hv := h _ List.mem_cons_self
      have hrest := ih (fun e he => hkeys e (List.mem_cons_of_mem _ he)) fun e he =>
        h e (List.mem_cons_of_mem _ he)
      cases rest with
      | nil => exact hk.append ((hv.cons ' ').cons ':')
      | cons f more =>
          have hentry := hk.append ((hv.cons ' ').cons ':')
          exact (hentry.append (plain_between spread depth)).append hrest

end Parts

/-- A document whose texts are whole is printed in characters. -/
theorem plain_printAt {v : Value} (h : v.Whole) (spread : Spread) (depth : Nat) :
    IsPlain (printAt spread depth v) := by
  have hbefore (d : Nat) := plain_lineBefore spread d
  induction h generalizing depth with
  | scalar hs => exact plain_printScalar hs
  | @list items hitems ih =>
      have hprinted : IsPlain (printItems spread (depth + 1) items) := plain_printItems fun v hv =>
        ih v hv (depth + 1)
      cases items with
      | nil => exact .of_plain _
      | cons v rest =>
          exact ((((hbefore _).append hprinted).append (hbefore depth)).append (.of_plain [']'])).cons '['
  | @map es hkeys hvalues ih =>
      have hprinted : IsPlain (printEntries spread (depth + 1) es) :=
        plain_printEntries hkeys fun e he => ih e he (depth + 1)
      cases es with
      | nil => exact .of_plain ['{', '}']
      | cons e rest =>
          exact ((((hbefore _).append hprinted).append (hbefore depth)).append (.of_plain ['}'])).cons '{'

end Json

end SolidityKit
