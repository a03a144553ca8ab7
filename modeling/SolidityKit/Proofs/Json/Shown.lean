/-
What a JSON text shows.

Apart from brackets, commas, colons and the space between them, which make up the frame of a text, a document
is printed with the code points of its scalars and keys and with no others, however it is spread over lines
(`mem_print_iff`).  So a text whose document is part of another has bytes if the other one has
(`IsPlain.of_shows`).

No scalar shows a carriage return, since it is escaped.  Reading a file turns carriage returns into line feeds,
and thus gives back the text that was printed (`unifyLineEnds_print`).
-/
import SolidityKit.Proofs.Json.Printing
import SolidityKit.Proofs.Number.Numerals
import SolidityKit.Proofs.Text.Lines

namespace SolidityKit

/-- A scalar or a key in the document is printed with the code point. -/
inductive Value.Shows (c : CodePoint) : Value → Prop
  /-- The scalar itself. -/
  | scalar {s : Scalar} (hs : c ∈ Json.printScalar s) : Shows c (.scalar s)
  /-- An item of a list shows it. -/
  | item {items : List Value} {v : Value} (hv : v ∈ items) (h : Shows c v) : Shows c (.list items)
  /-- A key of a map. -/
  | key {es : Entries} {e : Scalar × Value} (he : e ∈ es) (hk : c ∈ Json.printKey e.1) : Shows c (.map es)
  /-- A value of a map shows it. -/
  | value {es : Entries} {e : Scalar × Value} (he : e ∈ es) (h : Shows c e.2) : Shows c (.map es)

theorem Value.shows_scalar {c : CodePoint} {s : Scalar} : (Value.scalar s).Shows c ↔ c ∈ Json.printScalar s :=
  ⟨fun h => by cases h; assumption, .scalar⟩

theorem Value.shows_list {c : CodePoint} {items : List Value} :
    (Value.list items).Shows c ↔ ∃ v ∈ items, v.Shows c :=
  ⟨fun h => by cases h with | item hv h => exact ⟨_, hv, h⟩, fun ⟨_, hv, h⟩ => .item hv h⟩

theorem Value.shows_map {c : CodePoint} {es : Entries} :
    (Value.map es).Shows c ↔ ∃ e ∈ es, c ∈ Json.printKey e.1 ∨ e.2.Shows c := by
  constructor
  · intro h
    cases h with
    | key he hk => exact ⟨_, he, Or.inl hk⟩
    | value he h => exact ⟨_, he, Or.inr h⟩
  · rintro ⟨e, he, hk | h⟩
    · exact .key he hk
    · exact .value he h

/-- A map whose entries are among those of another shows no more. -/
theorem Value.Shows.of_subset {c : CodePoint} {es fs : Entries} (hsub : es ⊆ fs) (h : (Value.map es).Shows c) :
    (Value.map fs).Shows c := by
  obtain ⟨e, he, h⟩ := Value.shows_map.mp h
  exact Value.shows_map.mpr ⟨e, hsub he, h⟩

namespace Json

/-! ### The frame of a text -/

/-- What stands around scalars and keys. -/
def frame : List CodePoint := Points.ofText ['[', ']', '{', '}', ',', ':', ' ', '\n']

section Frame

variable {c : CodePoint} {spread : Spread} {depth : Nat}

theorem notMem_lineBefore (hc : c ∉ frame) (spread : Spread) (depth : Nat) : c ∉ lineBefore spread depth := by
  cases spread with
  | oneLine => exact List.not_mem_nil
  | indented n =>
      rintro h
      rcases List.mem_cons.mp h with rfl | h
      · exact hc (by decide)
      · rw [List.eq_of_mem_replicate h] at hc
        exact hc (by decide)

theorem notMem_between (hc : c ∉ frame) (spread : Spread) (depth : Nat) : c ∉ between spread depth := by
  have hcomma : c ≠ .char ',' := fun h => hc (by rw [h]; decide)
  cases spread with
  | oneLine =>
      have hspace : c ≠ .char ' ' := fun h => hc (by rw [h]; decide)
      simpa [between, Points.ofText] using ⟨hcomma, hspace⟩
  | indented n => simpa [between, hcomma] using notMem_lineBefore hc (.indented n) depth

theorem mem_printItems_iff (hc : c ∉ frame) (items : List Value) :
    c ∈ printItems spread depth items ↔ ∃ v ∈ items, c ∈ printAt spread depth v := by
  induction items with
  | nil => simp [printItems]
  | cons v rest ih =>
      cases rest with
      | nil => simp [printItems]
      | cons w more =>
          rw [List.exists_mem_cons_iff, ← ih, printItems]
          · simp [notMem_between hc]
          · simp

theorem mem_printEntries_iff (hc : c ∉ frame) (es : List (Scalar × Value)) :
    c ∈ printEntries spread depth es ↔ ∃ e ∈ es, c ∈ printKey e.1 ∨ c ∈ printAt spread depth e.2 := by
  have hcolon : c ≠ .char ':' := fun h => hc (by rw [h]; decide)
  have hspace : c ≠ .char ' ' := fun h => hc (by rw [h]; decide)
  induction es with
  | nil => simp [printEntries]
  | cons e rest ih =>
      cases rest with
      | nil => simp [printEntries, hcolon, hspace]
      | cons f more =>
          have hsplit : c ∈ printEntries spread depth (e :: f :: more) ↔
              (c ∈ printKey e.1 ∨ c ∈ printAt spread depth e.2) ∨
              c ∈ printEntries spread depth (f :: more) := by
            rw [printEntries]
            · simp [hcolon, hspace, notMem_between hc, or_assoc]
            · simp
          refine hsplit.trans ((or_congr_right ih).trans ?_)
          exact (List.exists_mem_cons_iff (fun e => c ∈ printKey e.1 ∨ c ∈ printAt spread depth e.2)
            e (f :: more)).symm

theorem mem_printAt_list (hc : c ∉ frame) (items : List Value) :
    c ∈ printAt spread depth (.list items) ↔ ∃ v ∈ items, c ∈ printAt spread (depth + 1) v := by
  have hopen : c ≠ .char '[' := fun h => hc (by rw [h]; decide)
  have hclose : c ≠ .char ']' := fun h => hc (by rw [h]; decide)
  rw [← mem_printItems_iff hc]
  cases items with
  | nil => simp [printAt, printItems, Points.ofText, hopen, hclose]
  | cons v rest =>
      rw [printAt]
      · simp [hopen, hclose, notMem_lineBefore hc]
      · simp

theorem mem_printAt_map (hc : c ∉ frame) (es : Entries) :
    c ∈ printAt spread depth (.map es) ↔ ∃ e ∈ es, c ∈ printKey e.1 ∨ c ∈ printAt spread (depth + 1) e.2 := by
  have hopen : c ≠ .char '{' := fun h => hc (by rw [h]; decide)
  have hclose : c ≠ .char '}' := fun h => hc (by rw [h]; decide)
  rw [← mem_printEntries_iff hc]
  cases es with
  | nil => simp [printAt, printEntries, hopen, hclose]
  | cons e rest =>
      rw [printAt]
      · simp [hopen, hclose, notMem_lineBefore hc]
      · simp

/-- The frame apart, a document is printed with what it shows. -/
theorem mem_printAt_iff (hc : c ∉ frame) :
    (v : Value) → (depth : Nat) → (c ∈ printAt spread depth v ↔ v.Shows c)
  | .scalar s, depth => by rw [printAt, Value.shows_scalar]
  | .list items, depth => by
      rw [mem_printAt_list hc, Value.shows_list]
      exact exists_congr fun v => and_congr_right fun hv => mem_printAt_iff hc v (depth + 1)
  | .map es, depth => by
      rw [mem_printAt_map hc, Value.shows_map]
      exact exists_congr fun e => and_congr_right fun he => or_congr_right (mem_printAt_iff hc e.2 (depth + 1))
termination_by v => sizeOf v
decreasing_by
  · have := List.sizeOf_lt_of_mem hv
    simp only [Value.list.sizeOf_spec]
    omega
  · have hpair := List.sizeOf_lt_of_mem he
    have hsecond : sizeOf e.2 < sizeOf e := by
      obtain ⟨k, w⟩ := e
      simp only [Prod.mk.sizeOf_spec]
      omega
    simp only [Value.map.sizeOf_spec]
    omega

theorem mem_print_iff (hc : c ∉ frame) (spread : Spread) (v : Value) : c ∈ print spread v ↔ v.Shows c :=
  mem_printAt_iff hc v 0

end Frame

/-! ### Texts with bytes -/

theorem isPlain_iff {cs : List CodePoint} : IsPlain cs ↔ ∀ n, .surrogate n ∉ cs := by
  constructor
  · rintro ⟨t, rfl⟩ n h
    obtain ⟨c, -, hc⟩ := List.mem_map.mp h
    cases hc
  · intro h
    induction cs with
    | nil => exact .of_plain []
    | cons c cs ih =>
        have hrest := ih fun n hn => h n (List.mem_cons_of_mem _ hn)
        cases c with
        | char c => exact hrest.cons c
        | surrogate n => exact absurd List.mem_cons_self (h n)

/-- A document that shows no more than one that is printed in characters is printed in characters. -/
theorem IsPlain.of_shows {spread : Spread} {v w : Value} (hsub : ∀ c, w.Shows c → v.Shows c)
    (h : IsPlain (print spread v)) : IsPlain (print spread w) := by
  have hframe (n : Fin 0x800) : CodePoint.surrogate n ∉ frame := by simp [frame, Points.ofText]
  rw [isPlain_iff] at h ⊢
  intro n hn
  rw [mem_print_iff (hframe n)] at hn
  exact h n ((mem_print_iff (hframe n) spread v).mpr (hsub _ hn))

/-! ### No carriage returns -/

theorem return_notMem_escaped (c : Char) : '\r' ∉ escaped c := by
  have hcontrols : ∀ n < 0x20, '\r' ∉ Text.hexPadded 4 n := by decide
  unfold escaped
  split
  iterate 5 decide
  next hreturn _ =>
    split_ifs with hff hbs hlow
    · decide
    · decide
    · simpa using hcontrols _ hlow
    · simpa [eq_comm] using hreturn

theorem return_notMem_printPoints (cs : List CodePoint) : .char '\r' ∉ printPoints cs := by
  simp only [printPoints, List.cons_append, List.mem_cons, List.mem_append, List.mem_flatMap,
    CodePoint.char.injEq, List.not_mem_nil, or_false, not_or, not_exists, not_and]
  refine ⟨by decide, fun p _ => ?_, by decide⟩
  cases p with
  | char c => simpa using return_notMem_escaped c
  | surrogate n => simp

theorem return_notMem_layOut {ds : Text} (hds : '\r' ∉ ds) (l : Decimal.Layout) (place : Int) :
    '\r' ∉ Decimal.layOut l ds place := by
  have hdigits (n : Nat) : '\r' ∉ Nat.toDigits 10 n :=
    fun h => absurd (Numeral.isDigit_of_mem_toDigits h) (by decide)
  have htake (n : Nat) : '\r' ∉ ds.take n := fun h => hds (List.mem_of_mem_take h)
  have hdrop (n : Nat) : '\r' ∉ ds.drop n := fun h => hds (List.mem_of_mem_drop h)
  have hzeros (n : Nat) : '\r' ∉ List.replicate n '0' :=
    fun h => absurd (List.eq_of_mem_replicate h) (by decide)
  unfold Decimal.layOut
  split
  · split
    · simp [hzeros, hds]
    · dsimp only
      split <;> simp [htake, hdrop, hzeros]
  · have hsign (b : Prop) [Decidable b] : '\r' ≠ if b then '-' else '+' := by split <;> decide
    have htail : '\r' ∉ ds.tail := fun h => hds (List.mem_of_mem_tail h)
    simp [Decimal.padded, hdigits, htake, hzeros, hsign, htail]

theorem return_notMem_toText (x : Binary64) : '\r' ∉ x.toText .json := by
  have hsign (s : Bool) : '\r' ∉ if s then ['-'] else [] := by cases s <;> decide
  unfold Binary64.toText
  split
  · decide
  · simpa [hsign] using (by decide : '\r' ∉ Decimal.Layout.json.infinity.toList)
  · simp [hsign]
  · next s m d _ =>
      have hds : '\r' ∉ (Decimal.shortest m d).digitsAndPlace.1 := by
        intro h
        rw [Decimal.digitsAndPlace, Text.dropRightWhile_eq_rdropWhile] at h
        have hdigit := (List.rdropWhile_prefix _ _).subset h
        exact absurd (Numeral.isDigit_of_mem_toDigits hdigit) (by decide)
      simpa [hsign] using return_notMem_layOut hds .json _

theorem return_notMem_printScalar (s : Scalar) : .char '\r' ∉ printScalar s := by
  have hplain {t : Text} (h : '\r' ∉ t) : CodePoint.char '\r' ∉ Points.ofText t := by
    simpa [Points.ofText] using h
  cases s with
  | null => decide
  | bool b => cases b <;> decide
  | int n => exact hplain (Numeral.notMem_text (by decide) (by decide))
  | float x => exact hplain (return_notMem_toText x)
  | text s => exact return_notMem_printPoints _
  | torn cs => exact return_notMem_printPoints _
  | date d => exact return_notMem_printPoints _
  | moment d c => exact return_notMem_printPoints _
  | other v => exact return_notMem_printPoints _

theorem return_notMem_printKey (s : Scalar) : .char '\r' ∉ printKey s := by
  have hquoted : CodePoint.char '\r' ∉ .char '"' :: printScalar s ++ [.char '"'] := by
    simp [return_notMem_printScalar s]
  cases s with
  | text s => exact return_notMem_printPoints _
  | torn cs => exact return_notMem_printPoints _
  | _ => exact hquoted

theorem not_shows_return {v : Value} : ¬ v.Shows (.char '\r') := by
  intro h
  induction h with
  | scalar hs => exact return_notMem_printScalar _ hs
  | item _ _ ih => exact ih
  | key _ hk => exact return_notMem_printKey _ hk
  | value _ _ ih => exact ih

/-- **A JSON text is read from a file as it was written.** -/
theorem unifyLineEnds_print {spread : Spread} {v : Value} {t : Text} (h : print spread v = Points.ofText t) :
    Text.unifyLineEnds t = t := by
  have hreturn : '\r' ∉ t := by
    intro hmem
    have hshown : CodePoint.char '\r' ∈ print spread v := h ▸ List.mem_map_of_mem hmem
    exact not_shows_return ((mem_print_iff (by decide) spread v).mp hshown)
  simpa [Text.unifyLineEnds] using Text.unifyLineEnds_append hreturn []

end Json

end SolidityKit
