/-
Many rounds over one broadcast record.

A record that starts without receipts is completed in as many rounds as it takes; in each round a request may
fail, be answered with null or bring a receipt.  What carries over from round to round is `Aligned`: each
receipt stands at the place of its own transaction.  A single receipt list need not be aligned, and then a
round can lose a receipt; a list that only rounds have filled is.  From that alone it follows that a round
overwrites nothing but nulls (`Aligned.extends_store`), so that a hash with a receipt is never asked for again.

Alignment is shown of one answer (`Aligned.store`), then of one round (`Run.aligned`), then of any number of
rounds (`aligned_of_rounds`).  What a round asks for is not in its report, so it is read off a node that keeps
a list: `recording` answers as the node does (`backfill_recording`).
-/
import SolidityKit.Proofs.Receipts.Round
import Mathlib.Logic.Relation

namespace SolidityKit

namespace Receipts

variable {σ : Type}

/-! ### Receipts at the places of their transactions -/

/-- Each receipt in the list stands at the place of its own transaction. -/
structure Aligned (txs receipts : List Value) : Prop where
  /-- There are no more places than transactions. -/
  length_le : receipts.length ≤ txs.length
  /-- What stands at a place is null or a receipt of the transaction that has this place. -/
  own : ∀ (k : Nat) (r : Value), receipts[k]? = some r → r.isNull = false →
    ∃ tx hash, txs[k]? = some tx ∧ hash? tx = some hash ∧ isFor hash r = true

/-- Every entry that is not null stays where it is. -/
def Extends (before after : List Value) : Prop :=
  ∀ (k : Nat) (r : Value), before[k]? = some r → r.isNull = false → after[k]? = some r

theorem Extends.refl (receipts : List Value) : Extends receipts receipts := fun _ _ h _ => h

theorem Extends.trans {a b c : List Value} (hab : Extends a b) (hbc : Extends b c) : Extends a c :=
  fun k r h hr => hbc k r (hab k r h hr) hr

theorem aligned_nil (txs : List Value) : Aligned txs [] := ⟨Nat.zero_le _, by simp⟩

theorem isNull_of_isFor {hash r : Value} (h : isFor hash r = true) : r.isNull = false := by
  unfold isFor Value.field? at h
  cases r with
  | map es => rfl
  | scalar _ => simp at h
  | list _ => simp at h

theorem isMap_of_isFor {hash r : Value} (h : isFor hash r = true) : r.isMap = true := by
  unfold isFor Value.field? at h
  cases r with
  | map es => rfl
  | scalar _ => simp at h
  | list _ => simp at h

/-- A hash that has a receipt keeps it. -/
theorem Extends.any_isFor {before after : List Value} (h : Extends before after) {hash : Value}
    (hany : before.any (isFor hash) = true) : after.any (isFor hash) = true := by
  obtain ⟨r, hr, hfor⟩ := List.any_eq_true.mp hany
  obtain ⟨k, hk⟩ := List.mem_iff_getElem?.mp hr
  exact List.any_eq_true.mpr ⟨r, List.mem_of_getElem? (h k r hk (isNull_of_isFor hfor)), hfor⟩

section Storing

variable {txs receipts : List Value} {place : Nat} {tx hash v : Value}

theorem length_store (receipts : List Value) (place : Nat) (v : Value) :
    (store receipts place v).length = max receipts.length (place + 1) := by
  unfold store
  rw [List.length_set, List.length_append, List.length_replicate]
  omega

/-- In an aligned list, the place of a transaction without a receipt holds null or nothing. -/
theorem Aligned.null_at (h : Aligned txs receipts) (htx : txs[place]? = some tx) (hhash : hash? tx = some hash)
    (habsent : receipts.any (isFor hash) = false) {r : Value} (hr : receipts[place]? = some r) :
    r.isNull = true := by
  cases hnull : r.isNull with
  | true => rfl
  | false =>
      obtain ⟨tx', hash', htx', hhash', hfor⟩ := h.own place r hr hnull
      rw [htx] at htx'
      cases htx'
      rw [hhash] at hhash'
      cases hhash'
      exact absurd hfor (List.any_eq_false.mp habsent r (List.mem_of_getElem? hr))

/-- So an answer is stored over nothing but null. -/
theorem Aligned.extends_store (h : Aligned txs receipts) (htx : txs[place]? = some tx)
    (hhash : hash? tx = some hash)
    (habsent : receipts.any (isFor hash) = false) (v : Value) : Extends receipts (store receipts place v) := by
  intro k r hk hr
  by_cases hkp : k = place
  · subst hkp
    rw [h.null_at htx hhash habsent hk] at hr
    simp at hr
  · exact store_keeps v hk hkp

/-- **An honest answer keeps the list aligned.** -/
theorem Aligned.store (h : Aligned txs receipts) (htx : txs[place]? = some tx) (hhash : hash? tx = some hash)
    (hv : v.isNull = true ∨ isFor hash v = true) : Aligned txs (store receipts place v) where
  length_le := by
    obtain ⟨hlt, -⟩ := List.getElem?_eq_some_iff.mp htx
    have hle := h.length_le
    rw [length_store]
    omega
  own k r hk hr := by
    rcases store_cases hk with ⟨rfl, rfl⟩ | ⟨-, hbefore⟩ | rfl
    · rcases hv with hv | hv
      · rw [hv] at hr
        simp at hr
      · exact ⟨tx, hash, htx, hhash, hv⟩
    · exact h.own k r hbefore hr
    · simp [Value.isNull, Value.null] at hr

end Storing

/-! ### One round -/

/-- What an honest node may answer. -/
abbrev HonestAnswer (hash v : Value) : Prop := v.isNull = true ∨ isFor hash v = true

section OneRound

variable {txs more : List Value} {place : Nat} {p q : Progress}

/-- The transactions from a place on: the first of them has this place, and the others follow it. -/
theorem drop_eq_cons {tx : Value} (h : txs.drop place = tx :: more) :
    txs[place]? = some tx ∧ txs.drop (place + 1) = more := by
  refine ⟨?_, ?_⟩
  · rw [← List.head?_drop, h]
    rfl
  · rw [← List.tail_drop, h]
    rfl

/-- **A round keeps the list aligned and every receipt in its place.** -/
theorem Run.aligned (h : Run HonestAnswer place more p q) (hmore : txs.drop place = more)
    (ha : Aligned txs p.receipts) : Aligned txs q.receipts ∧ Extends p.receipts q.receipts := by
  induction h with
  | done place p => exact ⟨ha, .refl _⟩
  | skip _ _ ih => exact ih (drop_eq_cons hmore).2 ha
  | answered hhash habsent hv _ ih =>
      obtain ⟨htx, hrest⟩ := drop_eq_cons hmore
      obtain ⟨hq, hext⟩ := ih hrest (ha.store htx hhash hv)
      exact ⟨hq, (ha.extends_store htx hhash habsent _).trans hext⟩
  | failed _ _ _ ih => exact ih (drop_eq_cons hmore).2 ha

/-- The report of a run only grows. -/
theorem Run.report_grows {admissible : Value → Value → Prop} (h : Run admissible place more p q) :
    p.report.fetched ⊆ q.report.fetched ∧ p.report.failures ⊆ q.report.failures := by
  induction h with
  | done place p => exact ⟨List.Subset.refl _, List.Subset.refl _⟩
  | skip _ _ ih => exact ih
  | answered _ _ _ _ ih => exact ⟨fun e he => ih.1 (List.mem_cons_of_mem _ he), ih.2⟩
  | failed _ _ _ ih => exact ⟨ih.1, fun e he => ih.2 (List.mem_cons_of_mem _ he)⟩

/-- A round in which nothing failed and nothing is pending leaves no transaction without a receipt. -/
theorem Run.complete (h : Run HonestAnswer place more p q) (hmore : txs.drop place = more)
    (ha : Aligned txs p.receipts) (hfailures : q.report.failures = [])
    (hpending : ∀ e ∈ q.report.fetched, e.2.isNull = false) :
    ∀ tx ∈ more, ∀ hash, hash? tx = some hash → q.receipts.any (isFor hash) = true := by
  induction h with
  | done place p => simp
  | @skip place tx more p q hskip rest ih =>
      have hrest := (drop_eq_cons hmore).2
      intro tx' htx' hash hhash
      rcases List.mem_cons.mp htx' with rfl | htx'
      · exact (rest.aligned hrest ha).2.any_isFor (hskip hash hhash)
      · exact ih hrest ha hfailures hpending tx' htx' hash hhash
  | @answered place tx hash' v more p q hhash' habsent hv rest ih =>
      obtain ⟨hplace, hrest⟩ := drop_eq_cons hmore
      have ha' : Aligned txs (p.answered place hash' v).receipts := ha.store hplace hhash' hv
      intro tx' htx' hash hhash
      rcases List.mem_cons.mp htx' with rfl | htx'
      · rw [hhash'] at hhash
        cases hhash
        have hfetched : (place, v) ∈ q.report.fetched := rest.report_grows.1 List.mem_cons_self
        have hnull : v.isNull = false := hpending _ hfetched
        refine (rest.aligned hrest ha').2.any_isFor (List.any_eq_true.mpr ⟨v, ?_, ?_⟩)
        · exact List.mem_of_getElem? (store_at p.receipts place v)
        · rcases hv with hv | hv
          · rw [hnull] at hv
            simp at hv
          · exact hv
      · exact ih hrest ha' hfailures hpending tx' htx' hash hhash
  | @failed place tx hash' f more p q hhash' habsent rest ih =>
      -- the failure is in the report to the end
      have hfailed : (place, f.message) ∈ q.report.failures := rest.report_grows.2 List.mem_cons_self
      rw [hfailures] at hfailed
      simp at hfailed

end OneRound

/-- An honest outcome keeps the list aligned, and every receipt in its place. -/
theorem Aligned.after {txs : List Value} {place : Nat} {tx hash : Value} {p : Progress} {o : Rpc.Outcome}
    (ha : Aligned txs p.receipts) (htx : txs[place]? = some tx) (hhash : hash? tx = some hash)
    (habsent : p.receipts.any (isFor hash) = false)
    (ho : (∃ v, o = .answer v ∧ HonestAnswer hash v) ∨ ∃ f, o = .failed f) :
    Aligned txs (p.after place hash o).receipts ∧ Extends p.receipts (p.after place hash o).receipts := by
  rcases ho with ⟨v, rfl, hv⟩ | ⟨f, rfl⟩
  · exact ⟨ha.store htx hhash hv, ha.extends_store htx hhash habsent v⟩
  · exact ⟨ha, .refl _⟩

/-! ### What a round asks for -/

/-- The same node, with a list of the hashes that it was asked for, latest first. -/
def recording (fetch : Value → StateM σ Rpc.Outcome) (hash : Value) : StateM (σ × List Value) Rpc.Outcome :=
  fun s => ((fetch hash s.1).1, (fetch hash s.1).2, hash :: s.2)

/-- The hashes that a round asks for, latest first. -/
def requests (record : Value) (fetch : Value → StateM σ Rpc.Outcome) (s : σ) : List Value :=
  (backfill record (recording fetch) (s, [])).2.2

/-- Keeping a list changes nothing in how a round goes. -/
theorem fillFrom_recording (fetch : Value → StateM σ Rpc.Outcome) (txs : List Value) (place : Nat)
    (p : Progress) (s : σ) (asked : List Value) :
    (fillFrom (recording fetch) place txs p (s, asked)).1 = (fillFrom fetch place txs p s).1 ∧
      (fillFrom (recording fetch) place txs p (s, asked)).2.1 = (fillFrom fetch place txs p s).2 := by
  induction txs generalizing place p s asked with
  | nil => exact ⟨rfl, rfl⟩
  | cons tx more ih =>
      unfold fillFrom
      cases hash? tx with
      | none => exact ih (place + 1) p s asked
      | some hash =>
          by_cases hany : p.receipts.any (isFor hash) = true
          · simp only [hany, if_true]
            exact ih (place + 1) p s asked
          · simp only [hany, Bool.false_eq_true, if_false]
            rw [bind_apply, bind_apply]
            simp only [recording]
            cases (fetch hash s).1 with
            | answer v => exact ih (place + 1) (p.answered place hash v) (fetch hash s).2 (hash :: asked)
            | failed f => exact ih (place + 1) (p.failed place hash f) (fetch hash s).2 (hash :: asked)
            | broken reason => exact ⟨rfl, rfl⟩

/-- The round whose loop over the transactions ends so. -/
def Round.ofLoop (es : Entries) (loop : Progress × Option String) : Round where
  record := .map (Entries.setField "receipts" (.list loop.1.receipts) es)
  notices := loop.1.inOrder.notices
  outcome := match loop.2 with
    | some reason => .error (.broken reason)
    | none => .ok loop.1.inOrder.report

theorem backfill_map {es : Entries} {txs : List Value}
    (htxs : members ((Entries.field? "transactions" es).getD .null) = .ok txs)
    (fetch : Value → StateM σ Rpc.Outcome) (s : σ) :
    backfill (.map es) fetch s =
      (.ofLoop es (fillFrom fetch 0 txs { receipts := receiptsOf es } s).1,
        (fillFrom fetch 0 txs { receipts := receiptsOf es } s).2) := by
  unfold backfill
  simp only [htxs]
  rfl

theorem backfill_recording (record : Value) (fetch : Value → StateM σ Rpc.Outcome) (s : σ) :
    (backfill record (recording fetch) (s, [])).1 = (backfill record fetch s).1 := by
  cases record with
  | scalar _ => rfl
  | list _ => rfl
  | map es =>
      cases hm : members ((Entries.field? "transactions" es).getD .null) with
      | error f =>
          unfold backfill
          simp only [hm]
          rfl
      | ok txs =>
          obtain ⟨hsame, -⟩ := fillFrom_recording fetch txs 0 { receipts := receiptsOf es } s []
          rw [backfill_map hm, backfill_map hm, hsame]

theorem honest_recording {f : Value → StateM σ Rpc.Outcome} (hf : Honest f) : Honest (recording f) :=
  fun hash s => hf hash s.1

/-- In an aligned list only hashes without a receipt are asked for. -/
theorem fillFrom_asks {txs : List Value} {fetch : Value → StateM σ Rpc.Outcome} (hfetch : Honest fetch) :
    ∀ (more : List Value) (place : Nat) (p : Progress) (s : σ) (asked : List Value), txs.drop place = more →
      Aligned txs p.receipts → ∀ hash ∈ (fillFrom (recording fetch) place more p (s, asked)).2.2,
        hash ∈ asked ∨ p.receipts.any (isFor hash) = false := by
  intro more
  induction more with
  | nil => intro place p s asked _ _ hash hhash; exact Or.inl hhash
  | cons tx more ih =>
      intro place p s asked hmore ha
      obtain ⟨htx, hrest⟩ := drop_eq_cons hmore
      rcases skipped_or_asked p tx with hskip | ⟨hash, hhash, habsent⟩
      · rw [fillFrom_skip _ place more hskip]
        exact ih (place + 1) p s asked hrest ha
      · intro hash' hmem
        rw [fillFrom_ask place more hhash habsent
          ((honest_recording hfetch).not_broken hash (s, asked))] at hmem
        obtain ⟨ha', hext⟩ := ha.after htx hhash habsent (hfetch hash s)
        -- what is asked for later is absent from a list that extends this one
        rcases ih (place + 1) _ (fetch hash s).2 (hash :: asked) hrest ha' hash' hmem with h | h
        · rcases List.mem_cons.mp h with rfl | h
          · exact Or.inr habsent
          · exact Or.inl h
        · refine Or.inr (Bool.eq_false_iff.mpr fun hbefore => ?_)
          rw [hext.any_isFor hbefore] at h
          simp at h

/-! ### Any number of rounds -/

/-- The receipts in a record. -/
def receiptsIn : Value → List Value
  | .map es => receiptsOf es
  | _ => []

/-- One record becomes another in a round with an honest node. -/
def HonestRound (before after : Value) : Prop :=
  ∃ (σ : Type) (fetch : Value → StateM σ Rpc.Outcome) (s : σ), Honest fetch ∧
    after = (backfill before fetch s).1.record

/-- One record becomes another in any number of rounds, each with an honest node of its own. -/
abbrev Rounds : Value → Value → Prop := Relation.ReflTransGen HonestRound

/-- A record with these transactions, whose receipts stand at the places of their transactions. -/
structure AlignedRecord (txs : List Value) (record : Value) : Prop where
  /-- The record lists the transactions. -/
  transactions : record.field? "transactions" = some (.list txs)
  /-- The receipts stand at their places. -/
  aligned : Aligned txs (receiptsIn record)

/-- A round over a record whose receipts are aligned ends as its loop does. -/
theorem AlignedRecord.ends {txs : List Value} {record : Value} (h : AlignedRecord txs record)
    {fetch : Value → StateM σ Rpc.Outcome} {s s' : σ} {p : Progress}
    (hloop : fillFrom fetch 0 txs { receipts := receiptsIn record } s = ((p, none), s')) :
    (backfill record fetch s).1.outcome = .ok p.inOrder.report ∧
      (backfill record fetch s).1.record.field? "receipts" = some (.list p.receipts) ∧
      (backfill record fetch s).1.record.field? "transactions" = some (.list txs) ∧
      receiptsIn (backfill record fetch s).1.record = p.receipts ∧ (backfill record fetch s).2 = s' := by
  obtain ⟨htxs, -⟩ := h
  cases record with
  | scalar _ => simp [Value.field?] at htxs
  | list _ => simp [Value.field?] at htxs
  | map es =>
      have hfield : Entries.field? "transactions" es = some (.list txs) := htxs
      have hmembers : members ((Entries.field? "transactions" es).getD .null) = .ok txs := by
        rw [hfield]
        rfl
      have hloop' : fillFrom fetch 0 txs { receipts := receiptsOf es } s = ((p, none), s') := hloop
      have hreceipts : Entries.field? "receipts" (Entries.setField "receipts" (.list p.receipts) es) =
          some (.list p.receipts) := Entries.field?_setField _ _ _
      rw [backfill_map hmembers, hloop']
      refine ⟨rfl, hreceipts, (Entries.field?_setField_of_ne (by decide) _ _).trans hfield, ?_, rfl⟩
      show receiptsOf (Entries.setField "receipts" (.list p.receipts) es) = _
      rw [receiptsOf, hreceipts]

/-- What one round does to a record whose receipts are aligned. -/
theorem AlignedRecord.round {txs : List Value} {record : Value} (h : AlignedRecord txs record)
    {fetch : Value → StateM σ Rpc.Outcome} (hfetch : Honest fetch) (s : σ) :
    ∃ q : Progress, Run HonestAnswer 0 txs { receipts := receiptsIn record } q ∧
      (backfill record fetch s).1.outcome = .ok q.inOrder.report ∧
      (backfill record fetch s).1.record.field? "receipts" = some (.list q.receipts) ∧
      (backfill record fetch s).1.record.field? "transactions" = some (.list txs) ∧
      receiptsIn (backfill record fetch s).1.record = q.receipts := by
  obtain ⟨q, s', heq, hrun⟩ := fillFrom_run hfetch txs 0 { receipts := receiptsIn record } s
  obtain ⟨houtcome, hfield, htxs, hreceipts, -⟩ := h.ends heq
  exact ⟨q, hrun, houtcome, hfield, htxs, hreceipts⟩

theorem AlignedRecord.honestRound {txs : List Value} {before after : Value} (h : AlignedRecord txs before)
    (hround : HonestRound before after) :
    AlignedRecord txs after ∧ Extends (receiptsIn before) (receiptsIn after) := by
  obtain ⟨σ, fetch, s, hfetch, rfl⟩ := hround
  obtain ⟨q, hrun, -, -, htxs, hreceipts⟩ := h.round hfetch s
  obtain ⟨ha, hext⟩ := hrun.aligned (List.drop_zero) h.aligned
  refine ⟨⟨htxs, ?_⟩, ?_⟩
  · rw [hreceipts]
    exact ha
  · rw [hreceipts]
    exact hext

/-- **Whatever the rounds, receipts stay aligned and in their places.** -/
theorem AlignedRecord.rounds {txs : List Value} {before after : Value} (h : AlignedRecord txs before)
    (hrounds : Rounds before after) :
    AlignedRecord txs after ∧ Extends (receiptsIn before) (receiptsIn after) := by
  induction hrounds with
  | refl => exact ⟨h, .refl _⟩
  | tail _ hround ih =>
      obtain ⟨ha, hext⟩ := ih.1.honestRound hround
      exact ⟨ha, ih.2.trans hext⟩

/-- A record without receipts is aligned. -/
theorem alignedRecord_of_empty {es : Entries} {txs : List Value}
    (htxs : Entries.field? "transactions" es = some (.list txs))
    (hempty : Entries.field? "receipts" es = none ∨ Entries.field? "receipts" es = some (.list [])) :
    AlignedRecord txs (.map es) where
  transactions := htxs
  aligned := by
    have hnone : receiptsOf es = [] := by
      unfold receiptsOf
      rcases hempty with h | h <;> rw [h]
    rw [receiptsIn, hnone]
    exact aligned_nil txs

/--
**Rounds only ever complete a record.**

A record starts without receipts, and any number of rounds with honest nodes leads to `record`.  After one more
round there are no more receipts than transactions; each entry that is not null is a receipt of the transaction
that has its place; each such entry of an earlier record still stands where it stood; no hash that had a
receipt was asked for, by a node that keeps a list and is otherwise the same; and if the report names no
failure and nothing pending, every transaction with a hash has its receipt in the list.
-/
theorem backfill_rounds_complete {es : Entries} {txs : List Value}
    (htxs : Entries.field? "transactions" es = some (.list txs))
    (hempty : Entries.field? "receipts" es = none ∨ Entries.field? "receipts" es = some (.list []))
    {record : Value} (hrounds : Rounds (.map es) record) {fetch : Value → StateM σ Rpc.Outcome}
    (hfetch : Honest fetch) (s : σ) :
    ∃ report after, (backfill record fetch s).1.outcome = .ok report ∧
      (backfill record fetch s).1.record.field? "receipts" = some (.list after) ∧
      after.length ≤ txs.length ∧
      (∀ (i : Nat) (r : Value), after[i]? = some r → r.isNull = false → r.isMap = true ∧
        ∃ tx hash, txs[i]? = some tx ∧ hash? tx = some hash ∧ isFor hash r = true) ∧
      (∀ earlier, Rounds (.map es) earlier → Rounds earlier record →
        ∀ (i : Nat) (r : Value), (receiptsIn earlier)[i]? = some r → r.isNull = false → after[i]? = some r) ∧
      (backfill record (recording fetch) (s, [])).1 = (backfill record fetch s).1 ∧
      (∀ hash, (receiptsIn record).any (isFor hash) = true → hash ∉ requests record fetch s) ∧
      (report.failures = [] → report.pending = [] →
        ∀ tx ∈ txs, ∀ hash, hash? tx = some hash → after.any (isFor hash) = true) := by
  have hstart := alignedRecord_of_empty htxs hempty
  have hrecord := (hstart.rounds hrounds).1
  obtain ⟨q, hrun, houtcome, hfield, -, hreceipts⟩ := hrecord.round hfetch s
  obtain ⟨ha, hext⟩ := hrun.aligned List.drop_zero hrecord.aligned
  refine ⟨q.inOrder.report, q.receipts, houtcome, hfield, ha.length_le, ?_, ?_,
    backfill_recording record fetch s, ?_, ?_⟩
  · intro i r hr hnull
    obtain ⟨tx, hash, htx, hhash, hfor⟩ := ha.own i r hr hnull
    exact ⟨isMap_of_isFor hfor, tx, hash, htx, hhash, hfor⟩
  · intro earlier hbefore hafter
    exact ((hstart.rounds hbefore).1.rounds hafter).2.trans hext
  · intro hash hany hasked
    cases record with
    | scalar _ => simp [receiptsIn] at hany
    | list _ => simp [receiptsIn] at hany
    | map es' =>
        have hmembers : members ((Entries.field? "transactions" es').getD .null) = .ok txs := by
          have htxs' : Entries.field? "transactions" es' = some (.list txs) := hrecord.transactions
          rw [htxs']
          rfl
        rw [requests, backfill_map hmembers] at hasked
        rcases fillFrom_asks hfetch txs 0 _ s [] List.drop_zero hrecord.aligned hash hasked with h | h
        · simp at h
        · have hany' : (receiptsOf es').any (isFor hash) = true := hany
          rw [hany'] at h
          simp at h
  · intro hfailures hpending
    refine hrun.complete List.drop_zero hrecord.aligned ?_ ?_
    · simpa [Progress.inOrder] using hfailures
    · intro e he
      have hnone : ∀ e ∈ q.inOrder.report.fetched, e.2.isNull = false := by
        simpa [Report.pending] using hpending
      exact hnone e (by simpa [Progress.inOrder] using he)

/-- A node that fails for one hash and has no receipt yet for any other. -/
def hesitating : Value → StateM Unit Rpc.Outcome
  | .scalar (.text "0xb") => pure (.failed (.notMap Rpc.receiptMethod))
  | _ => pure (.answer .null)

theorem hesitating_honest : Honest hesitating := by
  intro hash s
  unfold hesitating
  split
  · exact Or.inr ⟨_, rfl⟩
  · exact Or.inl ⟨_, rfl, Or.inl rfl⟩

/-- A transaction without a hash between three others, two of which have the same hash; no receipts. -/
def unanswered : Entries :=
  [(.text "transactions", .list [.map [(.text "hash", .text "0xa")], .map [],
    .map [(.text "hash", .text "0xb")], .map [(.text "hash", .text "0xa")]])]

/-- A failure and two pending answers in the first round leave nothing behind that the second round
cannot complete. -/
theorem backfill_completes_second_round :
    Honest hesitating ∧ Honest answering ∧
      ∃ record, Rounds (.map unanswered) record ∧ receiptsIn record = [.null, .null, .null, .null] ∧
        ∃ after, (backfill record answering ()).1.record.field? "receipts" = some (.list after) ∧
          after.length ≤ 4 ∧ after.any (isFor (.text "0xa")) = true ∧
          after.any (isFor (.text "0xb")) = true := by
  have hfirst : Rounds (.map unanswered) (backfill (.map unanswered) hesitating ()).1.record :=
    .single ⟨Unit, hesitating, (), hesitating_honest, rfl⟩
  have hnone : Entries.field? "receipts" unanswered = none := rfl
  obtain ⟨report, after, houtcome, hafter, hlength, -, -, -, -, hcomplete⟩ :=
    backfill_rounds_complete rfl (Or.inl hnone) hfirst answering_honest ()
  have hreport : report = { fetched := [(0, receiptFor "0xa"), (2, receiptFor "0xb")] } := by
    cases houtcome
    rfl
  have hall := hcomplete (by rw [hreport]) (by rw [hreport]; rfl)
  refine ⟨hesitating_honest, answering_honest, _, hfirst, rfl, after, hafter, hlength, ?_, ?_⟩
  · exact hall (.map [(.text "hash", .text "0xa")]) (by simp) (.text "0xa") rfl
  · exact hall (.map [(.text "hash", .text "0xb")]) (by simp) (.text "0xb") rfl

end Receipts

end SolidityKit
