/-
One round over a broadcast record.

`fillFrom` mixes three things: the order in which the transactions are visited, what the network
says, and where an answer is stored.  `Run` keeps the first and the third and forgets the second: it
relates the progress before the loop to the progress after it, one constructor for each thing that
can happen to a transaction.  Everything proved about a round is an induction over `Run`.

What one round does to the list of receipts is `Effect`.  A receipt is looked for by hash anywhere in
the list, but an answer is stored at the place of its transaction, so a list whose receipts do not
stand at the places of their transactions can lose one: `backfill_drops_misplaced_receipt`.  What
holds is that a receipt leaves its place only for an answer to a transaction of another hash that has
this place, which is `backfill_keeps_receipts`.
-/
import SolidityKit.Receipts.Backfill
import SolidityKit.Proofs.Value.Entries

namespace SolidityKit

namespace Receipts

/-! ### Storing an answer -/

theorem store_at (receipts : List Value) (place : Nat) (v : Value) :
    (store receipts place v)[place]? = some v := by
  unfold store
  rw [List.getElem?_set_self]
  simp only [List.length_append, List.length_replicate]
  omega

/-- Storing leaves every other place as it was; a place that comes into being holds null. -/
theorem store_elsewhere (receipts : List Value) {place k : Nat} (v : Value) (hne : k ≠ place) :
    (store receipts place v)[k]? =
      if k < receipts.length then receipts[k]? else if k < place then some .null else none := by
  unfold store
  rw [List.getElem?_set_ne (Ne.symm hne)]
  by_cases hk : k < receipts.length
  · rw [if_pos hk, List.getElem?_append_left hk]
  · rw [if_neg hk, List.getElem?_append_right (Nat.le_of_not_lt hk), List.getElem?_replicate]
    by_cases hp : k < place
    · rw [if_pos hp, if_pos (by omega)]
    · rw [if_neg hp, if_neg (by omega)]

theorem store_keeps {receipts : List Value} {place k : Nat} (v : Value) {r : Value}
    (h : receipts[k]? = some r) (hne : k ≠ place) : (store receipts place v)[k]? = some r := by
  obtain ⟨hk, -⟩ := List.getElem?_eq_some_iff.mp h
  rw [store_elsewhere receipts v hne, if_pos hk, h]

/-- An entry of the list afterwards is the answer, or stood there before, or is a null that
fills the list up. -/
theorem store_cases {receipts : List Value} {place k : Nat} {v r : Value}
    (h : (store receipts place v)[k]? = some r) :
    (k = place ∧ r = v) ∨ (k ≠ place ∧ receipts[k]? = some r) ∨ r = .null := by
  by_cases hkp : k = place
  · subst hkp
    rw [store_at] at h
    exact Or.inl ⟨rfl, (Option.some.inj h).symm⟩
  rw [store_elsewhere receipts v hkp] at h
  by_cases hlt : k < receipts.length
  · rw [if_pos hlt] at h
    exact Or.inr (Or.inl ⟨hkp, h⟩)
  rw [if_neg hlt] at h
  by_cases hp : k < place
  · rw [if_pos hp] at h
    exact Or.inr (Or.inr (Option.some.inj h).symm)
  · rw [if_neg hp] at h
    cases h

/-! ### What can happen to a transaction -/

variable {σ : Type}

/-- Going on with the answer of an action, in the state that the action left. -/
theorem bind_apply {α β : Type} (m : StateM σ α) (f : α → StateM σ β) (s : σ) :
    (m >>= f) s = f (m s).1 (m s).2 := rfl

/-- The progress after an outcome; one that breaks the round off leaves it as it was. -/
def Progress.after (p : Progress) (place : Nat) (hash : Value) : Rpc.Outcome → Progress
  | .answer v => p.answered place hash v
  | .failed f => p.failed place hash f
  | .broken _ => p

/-- A transaction is passed over, or it has a hash without a receipt. -/
theorem skipped_or_asked (p : Progress) (tx : Value) :
    (∀ hash, hash? tx = some hash → p.receipts.any (isFor hash) = true) ∨
      ∃ hash, hash? tx = some hash ∧ p.receipts.any (isFor hash) = false := by
  cases hhash : hash? tx with
  | none => exact Or.inl fun hash h => absurd h (by simp)
  | some hash =>
      cases hany : p.receipts.any (isFor hash) with
      | true => exact Or.inl fun hash' h => by cases h; exact hany
      | false => exact Or.inr ⟨hash, rfl, hany⟩

theorem fillFrom_skip (fetch : Value → StateM σ Rpc.Outcome) (place : Nat) {tx : Value} (more : List Value)
    {p : Progress} (hskip : ∀ hash, hash? tx = some hash → p.receipts.any (isFor hash) = true) (s : σ) :
    fillFrom fetch place (tx :: more) p s = fillFrom fetch (place + 1) more p s := by
  rw [fillFrom]
  cases hhash : hash? tx with
  | none => rfl
  | some hash => simp only [hskip hash hhash, if_true]

/-- A transaction that is asked for leaves an outcome, and the rest of the loop goes on from there. -/
theorem fillFrom_ask {fetch : Value → StateM σ Rpc.Outcome} (place : Nat) {tx hash : Value} (more : List Value)
    {p : Progress} {s : σ} (hhash : hash? tx = some hash) (habsent : p.receipts.any (isFor hash) = false)
    (hsettled : ∀ reason, (fetch hash s).1 ≠ .broken reason) :
    fillFrom fetch place (tx :: more) p s =
      fillFrom fetch (place + 1) more (p.after place hash (fetch hash s).1) (fetch hash s).2 := by
  rw [fillFrom, hhash]
  simp only [habsent, Bool.false_eq_true, if_false]
  rw [bind_apply]
  cases hout : (fetch hash s).1 with
  | answer v => rfl
  | failed f => rfl
  | broken reason => exact absurd hout (hsettled reason)

/-- Every fetch ends with an admissible answer or fails; none breaks the round off. -/
def Settles (admissible : Value → Value → Prop) (fetch : Value → StateM σ Rpc.Outcome) : Prop :=
  ∀ hash s, (∃ v, (fetch hash s).1 = .answer v ∧ admissible hash v) ∨
    ∃ f, (fetch hash s).1 = .failed f

/-- An honest node answers with null or with a receipt of the hash that it was asked for. -/
def Honest (fetch : Value → StateM σ Rpc.Outcome) : Prop :=
  Settles (fun hash v => v.isNull = true ∨ isFor hash v = true) fetch

/-- The ways to go through the transactions from a place on. -/
inductive Run (admissible : Value → Value → Prop) :
    Nat → List Value → Progress → Progress → Prop
  /-- There are no transactions left. -/
  | done (place : Nat) (p : Progress) : Run admissible place [] p p
  /-- The transaction has no hash, or its receipt is there. -/
  | skip {place : Nat} {tx : Value} {more : List Value} {p q : Progress}
      (hskip : ∀ hash, hash? tx = some hash → p.receipts.any (isFor hash) = true)
      (rest : Run admissible (place + 1) more p q) : Run admissible place (tx :: more) p q
  /-- A receipt was fetched. -/
  | answered {place : Nat} {tx hash v : Value} {more : List Value} {p q : Progress}
      (hhash : hash? tx = some hash) (habsent : p.receipts.any (isFor hash) = false)
      (hv : admissible hash v)
      (rest : Run admissible (place + 1) more (p.answered place hash v) q) :
      Run admissible place (tx :: more) p q
  /-- The fetch failed. -/
  | failed {place : Nat} {tx hash : Value} {f : Rpc.Fault} {more : List Value} {p q : Progress}
      (hhash : hash? tx = some hash) (habsent : p.receipts.any (isFor hash) = false)
      (rest : Run admissible (place + 1) more (p.failed place hash f) q) :
      Run admissible place (tx :: more) p q

theorem Settles.not_broken {admissible : Value → Value → Prop} {fetch : Value → StateM σ Rpc.Outcome}
    (h : Settles admissible fetch) (hash : Value) (s : σ) (reason : String) :
    (fetch hash s).1 ≠ .broken reason := by
  intro hbroken
  rcases h hash s with ⟨v, hv, -⟩ | ⟨f, hf⟩
  · cases hbroken.symm.trans hv
  · cases hbroken.symm.trans hf

/-- If no fetch breaks the round off, the loop comes to its end and what it did is a run. -/
theorem fillFrom_run {admissible : Value → Value → Prop} {fetch : Value → StateM σ Rpc.Outcome}
    (hfetch : Settles admissible fetch) :
    ∀ (txs : List Value) (place : Nat) (p : Progress) (s : σ),
      ∃ q s', fillFrom fetch place txs p s = ((q, none), s') ∧ Run admissible place txs p q := by
  intro txs
  induction txs with
  | nil => intro place p s; exact ⟨p, s, rfl, .done place p⟩
  | cons tx more ih =>
      intro place p s
      rcases skipped_or_asked p tx with hskip | ⟨hash, hhash, habsent⟩
      · obtain ⟨q, s', heq, hrun⟩ := ih (place + 1) p s
        exact ⟨q, s', (fillFrom_skip fetch place more hskip s).trans heq, .skip hskip hrun⟩
      · -- the rest of the loop depends on what the fetch said, in the state that it left
        have hask := fillFrom_ask place more hhash habsent (hfetch.not_broken hash s)
        obtain ⟨q, s', heq, hrun⟩ := ih (place + 1) (p.after place hash (fetch hash s).1) (fetch hash s).2
        refine ⟨q, s', hask.trans heq, ?_⟩
        rcases hfetch hash s with ⟨v, hout, hv⟩ | ⟨f, hout⟩
        · rw [hout] at hrun
          exact .answered hhash habsent hv hrun
        · rw [hout] at hrun
          exact .failed hhash habsent hrun

/-! ### What a run does to the list of receipts -/

/-- What going through the transactions from a place on does, when it fetches `new`. -/
structure Effect (place : Nat) (txs : List Value) (p q : Progress) (new : List (Nat × Value)) :
    Prop where
  /-- The report grows by what was fetched. -/
  fetched : q.report.fetched = new ++ p.report.fetched
  /-- Nothing is stored before the first transaction. -/
  later : ∀ e ∈ new, place ≤ e.1
  /-- What was fetched stands at the place of its transaction. -/
  stored : ∀ e ∈ new, q.receipts[e.1]? = some e.2
  /-- A place for which nothing was fetched holds what it held. -/
  kept : ∀ k r, p.receipts[k]? = some r → (∀ v, (k, v) ∉ new) → q.receipts[k]? = some r
  /-- What stood at the place of a fetched transaction belongs to another hash. -/
  replaced : ∀ e ∈ new, ∃ tx hash, txs[e.1 - place]? = some tx ∧ hash? tx = some hash ∧
    ∀ r, p.receipts[e.1]? = some r → isFor hash r = false
  /-- Beside what was there and what was fetched, the list holds only nulls. -/
  origin : ∀ k r, q.receipts[k]? = some r →
    (k, r) ∈ new ∨ (p.receipts[k]? = some r ∧ ∀ v, (k, v) ∉ new) ∨ r = .null

/-- Nothing happens where nothing is fetched. -/
theorem Effect.of_same {place : Nat} {txs : List Value} {p q : Progress}
    (hfetched : q.report.fetched = p.report.fetched) (hreceipts : q.receipts = p.receipts) :
    Effect place txs p q [] where
  fetched := hfetched
  later := by simp
  stored := by simp
  kept := fun k r h _ => by rw [hreceipts]; exact h
  replaced := by simp
  origin := fun k r h => Or.inr (Or.inl ⟨by rw [← hreceipts]; exact h, by simp⟩)

/-- A later transaction is found one place earlier among those behind the first. -/
theorem getElem?_later {tx : Value} {more : List Value} {place k : Nat} (h : place + 1 ≤ k) :
    (tx :: more)[k - place]? = more[k - (place + 1)]? := by
  rw [show k - place = (k - (place + 1)) + 1 by omega, List.getElem?_cons_succ]

/-- A transaction for which nothing is stored leaves the effect to those after it. -/
theorem Effect.of_rest {place : Nat} {tx : Value} {more : List Value} {p p' q : Progress}
    {new : List (Nat × Value)} (hfetched : p'.report.fetched = p.report.fetched)
    (hreceipts : p'.receipts = p.receipts) (h : Effect (place + 1) more p' q new) :
    Effect place (tx :: more) p q new where
  fetched := by rw [h.fetched, hfetched]
  later := fun e he => Nat.le_of_succ_le (h.later e he)
  stored := h.stored
  kept := fun k r hk hnew => h.kept k r (by rw [hreceipts]; exact hk) hnew
  replaced := fun e he => by
    obtain ⟨tx', hash, htx, hhash, hother⟩ := h.replaced e he
    refine ⟨tx', hash, ?_, hhash, fun r hr => hother r (by rw [hreceipts]; exact hr)⟩
    rw [getElem?_later (h.later e he)]
    exact htx
  origin := fun k r hk => by rw [← hreceipts]; exact h.origin k r hk

/-- An answer is stored at its place, and no later transaction touches that place. -/
theorem Effect.of_answered {place : Nat} {tx hash v : Value} {more : List Value} {p q : Progress}
    {new : List (Nat × Value)} (hhash : hash? tx = some hash)
    (habsent : p.receipts.any (isFor hash) = false)
    (h : Effect (place + 1) more (p.answered place hash v) q new) :
    Effect place (tx :: more) p q (new ++ [(place, v)]) := by
  have hpast : ∀ w, (place, w) ∉ new := fun w hw => absurd (h.later _ hw) (Nat.not_succ_le_self place)
  constructor
  case fetched =>
    rw [h.fetched]
    simp [Progress.answered]
  case later =>
    intro e he
    rcases List.mem_append.mp he with he | he
    · exact Nat.le_of_succ_le (h.later e he)
    · obtain rfl := List.mem_singleton.mp he
      exact Nat.le_refl place
  case stored =>
    intro e he
    rcases List.mem_append.mp he with he | he
    · exact h.stored e he
    · rw [List.mem_singleton.mp he]
      exact h.kept place v (store_at p.receipts place v) hpast
  case kept =>
    intro k r hk hnew
    have hne : k ≠ place := by
      rintro rfl
      exact hnew v (by simp)
    exact h.kept k r (store_keeps v hk hne) fun w hw => hnew w (by simp [hw])
  case replaced =>
    intro e he
    rcases List.mem_append.mp he with he | he
    · obtain ⟨tx', hash', htx, hhash', hother⟩ := h.replaced e he
      have hplace := h.later e he
      refine ⟨tx', hash', ?_, hhash', fun r hr => hother r (store_keeps v hr (by omega))⟩
      rw [getElem?_later hplace]
      exact htx
    · rw [List.mem_singleton.mp he]
      refine ⟨tx, hash, by simp, hhash, fun r hr => ?_⟩
      rw [List.any_eq_false] at habsent
      simpa using habsent r (List.mem_of_getElem? hr)
  case origin =>
    intro k r hk
    rcases h.origin k r hk with hnew | ⟨hold, hnot⟩ | hnull
    · exact Or.inl (by simp [hnew])
    · rcases store_cases hold with ⟨rfl, rfl⟩ | ⟨hne, hbefore⟩ | hnull
      · exact Or.inl (by simp)
      · exact Or.inr (Or.inl ⟨hbefore, fun w hw => by simp [hne, hnot] at hw⟩)
      · exact Or.inr (Or.inr hnull)
    · exact Or.inr (Or.inr hnull)

/-- Every run has an effect. -/
theorem Run.effect {admissible : Value → Value → Prop} {place : Nat} {txs : List Value}
    {p q : Progress} (h : Run admissible place txs p q) : ∃ new, Effect place txs p q new := by
  induction h with
  | done place p => exact ⟨[], .of_same rfl rfl⟩
  | skip _ _ ih =>
      obtain ⟨new, hnew⟩ := ih
      exact ⟨new, .of_rest rfl rfl hnew⟩
  | answered hhash habsent _ _ ih =>
      obtain ⟨new, hnew⟩ := ih
      exact ⟨_, .of_answered hhash habsent hnew⟩
  | failed _ _ _ ih =>
      obtain ⟨new, hnew⟩ := ih
      refine ⟨new, .of_rest ?_ ?_ hnew⟩ <;> rfl

/-! ### A whole round -/

/-- A round that no fetch breaks off ends with a report, and its loop is a run from place zero. -/
theorem backfill_run {admissible : Value → Value → Prop} {fetch : Value → StateM σ Rpc.Outcome}
    (hfetch : Settles admissible fetch) {es : Entries} {txs : List Value}
    (htxs : members ((Entries.field? "transactions" es).getD .null) = .ok txs) (s : σ) :
    ∃ q, Run admissible 0 txs { receipts := receiptsOf es } q ∧
      (backfill (.map es) fetch s).1.outcome = .ok q.inOrder.report ∧
      (backfill (.map es) fetch s).1.record =
        .map (Entries.setField "receipts" (.list q.receipts) es) := by
  obtain ⟨q, s', heq, hrun⟩ := fillFrom_run hfetch txs 0 { receipts := receiptsOf es } s
  have hround : (backfill (.map es) fetch s).1 =
      { record := .map (Entries.setField "receipts" (.list q.receipts) es)
        notices := q.inOrder.notices
        outcome := .ok q.inOrder.report } := by
    simp only [backfill, htxs]
    rw [bind_apply, heq]
    rfl
  refine ⟨q, hrun, ?_, ?_⟩
  · rw [hround]
  · rw [hround]

/--
**A receipt leaves its place only for an answer.**

A round over any record with an honest node ends with a report.  Afterwards a receipt stands where it
stood unless something was fetched for the transaction that has this place; then the answer stands
there, and the transaction has another hash than the receipt.  So a receipt is still in the list, at
some place, exactly if it stood at a place for which nothing was fetched or was itself fetched.
-/
theorem backfill_keeps_receipts {fetch : Value → StateM σ Rpc.Outcome} (hfetch : Honest fetch)
    (es : Entries) {txs : List Value}
    (htxs : members ((Entries.field? "transactions" es).getD .null) = .ok txs) (s : σ) :
    ∃ report after, (backfill (.map es) fetch s).1.outcome = .ok report ∧
      (backfill (.map es) fetch s).1.record.field? "receipts" = some (.list after) ∧
      (∀ k r, (receiptsOf es)[k]? = some r → (∀ v, (k, v) ∉ report.fetched) →
        after[k]? = some r) ∧
      (∀ k v, (k, v) ∈ report.fetched → after[k]? = some v ∧
        ∃ tx hash, txs[k]? = some tx ∧ hash? tx = some hash ∧
          ∀ r, (receiptsOf es)[k]? = some r → isFor hash r = false) ∧
      (∀ r hash, isFor hash r = true → (r ∈ after ↔
        (∃ k, (receiptsOf es)[k]? = some r ∧ ∀ v, (k, v) ∉ report.fetched) ∨
          ∃ k, (k, r) ∈ report.fetched)) := by
  obtain ⟨q, hrun, houtcome, hrecord⟩ := backfill_run hfetch htxs s
  obtain ⟨new, heffect⟩ := hrun.effect
  have hmem : ∀ e, e ∈ q.inOrder.report.fetched ↔ e ∈ new := by
    intro e
    have hfetched : q.report.fetched = new := by simpa using heffect.fetched
    simp [Progress.inOrder, hfetched]
  have hkept : ∀ k r, (receiptsOf es)[k]? = some r →
      (∀ v, (k, v) ∉ q.inOrder.report.fetched) → q.receipts[k]? = some r :=
    fun k r hk hnew => heffect.kept k r hk fun v hv => hnew v ((hmem _).mpr hv)
  refine ⟨q.inOrder.report, q.receipts, houtcome, ?_, hkept, ?_, ?_⟩
  · rw [hrecord]
    exact Entries.field?_setField _ _ _
  · intro k v hv
    have hnew := (hmem _).mp hv
    exact ⟨heffect.stored _ hnew, by simpa using heffect.replaced _ hnew⟩
  · intro r hash hr
    constructor
    · intro hin
      obtain ⟨k, hk⟩ := List.mem_iff_getElem?.mp hin
      rcases heffect.origin k r hk with hnew | ⟨hold, hnot⟩ | hnull
      · exact Or.inr ⟨k, (hmem _).mpr hnew⟩
      · exact Or.inl ⟨k, hold, fun v hv => hnot v ((hmem _).mp hv)⟩
      · rw [hnull] at hr
        exact absurd hr (by simp [isFor, Value.field?, Value.null])
    · rintro (⟨k, hk, hnot⟩ | ⟨k, hk⟩)
      · exact List.mem_of_getElem? (hkept k r hk hnot)
      · exact List.mem_of_getElem? (heffect.stored _ ((hmem _).mp hk))

/-! ### A record whose receipts do not stand at the places of their transactions -/

/-- A receipt of a hash. -/
def receiptFor (hash : String) : Value := .map [(.text "transactionHash", .text hash)]

/-- A node that has a receipt for every hash. -/
def answering : Value → StateM Unit Rpc.Outcome
  | .scalar (.text hash) => pure (.answer (receiptFor hash))
  | _ => pure (.failed (.notMap Rpc.receiptMethod))

/-- Three transactions; the receipt of the first stands at the place of the second. -/
def crossed : Entries :=
  [(.text "transactions", .list (["0xa", "0xb", "0xc"].map fun hash => .map [(.text "hash", .text hash)])),
   (.text "receipts", .list [.null, receiptFor "0xa", receiptFor "0xc"])]

theorem isFor_receiptFor (hash : String) : isFor (.text hash) (receiptFor hash) = true := by
  simp [isFor, receiptFor, Value.field?, Entries.field?, Entries.get?, Scalar.sameKey, Value.text,
    Value.sameValue, Scalar.sameValue, Scalar.asInt?]

theorem answering_honest : Honest answering := by
  intro hash s
  cases hash with
  | scalar key =>
      cases key with
      | text h => exact Or.inl ⟨receiptFor h, rfl, Or.inr (isFor_receiptFor h)⟩
      | _ => exact Or.inr ⟨_, rfl⟩
  | _ => exact Or.inr ⟨_, rfl⟩

/-- The third receipt stands at the place of its own transaction and stays there. -/
theorem backfill_keeps_placed_receipt :
    Honest answering ∧ ∃ report after, (backfill (.map crossed) answering ()).1.outcome = .ok report ∧
      (backfill (.map crossed) answering ()).1.record.field? "receipts" = some (.list after) ∧
      (∀ v, (2, v) ∉ report.fetched) ∧ after[2]? = some (receiptFor "0xc") := by
  obtain ⟨report, after, houtcome, hafter, hkept, hfetched, -⟩ :=
    backfill_keeps_receipts answering_honest crossed rfl ()
  have hnot : ∀ v, (2, v) ∉ report.fetched := by
    intro v hv
    obtain ⟨-, tx, hash, htx, hhash, hother⟩ := hfetched 2 v hv
    cases htx
    cases hhash
    exact absurd (hother (receiptFor "0xc") rfl) (by rw [isFor_receiptFor]; simp)
  exact ⟨answering_honest, report, after, houtcome, hafter, hnot, hkept 2 _ rfl hnot⟩

/--
The first receipt is lost although its transaction is listed and every fetch succeeds: the answer for
the second transaction is stored over it, after the first transaction was found to have a receipt.
-/
theorem backfill_drops_misplaced_receipt :
    Honest answering ∧ receiptFor "0xa" ∈ receiptsOf crossed ∧
      isFor (.text "0xa") (receiptFor "0xa") = true ∧
      (∃ txs, members ((Entries.field? "transactions" crossed).getD .null) = .ok txs ∧
        ∃ tx ∈ txs, hash? tx = some (.text "0xa")) ∧
      ∃ after, (backfill (.map crossed) answering ()).1.record.field? "receipts" = some (.list after) ∧
        after.any (isFor (.text "0xa")) = false := by
  refine ⟨answering_honest, ?_, isFor_receiptFor "0xa", ⟨_, rfl, ?_⟩, _, rfl, rfl⟩
  · exact List.mem_cons_of_mem _ List.mem_cons_self
  · exact ⟨_, List.mem_cons_self, rfl⟩

end Receipts

end SolidityKit
