/-
What one answer has to do with the other transactions.

Whether a transaction is asked for is decided by a search through the whole list of receipts, which earlier
answers of the same round have changed.  Two rounds that differ in one answer could therefore part ways.
They do not if the list is aligned and no two transactions have the same hash: then a receipt of a hash can
stand only at the place of its own transaction (`Aligned.any_isFor`), and what stands there no other
transaction has touched.

So the two rounds stay `Alike`: at every place but those of the one hash, and at every place still to come, the
lists hold the same, and the reports say the same.  `fillFrom_alike` shows of one transaction that this is
kept, and by induction of the rest of the round that both ask for the same hashes.  Alignment is what any
number of rounds with honest nodes leaves behind (`AlignedRecord.rounds`).
-/
import SolidityKit.Proofs.Receipts.Rounds

namespace SolidityKit

/-! ### Texts as hashes -/

/-- Whether a value is a text, be it with surrogates that stand alone. -/
def Value.isText : Value → Bool
  | .scalar (.text _) | .scalar (.torn _) => true
  | _ => false

/-- A text has the value of no other value than itself. -/
theorem Value.sameValue_text {v t : Value} (ht : t.isText = true) : v.sameValue t = true ↔ v = t := by
  unfold isText at ht
  split at ht
  · cases v with
    | scalar a => cases a <;> simp [sameValue, Scalar.sameValue, Scalar.asInt?]
    | list vs => simp [sameValue, samePart]
    | map es => simp [sameValue, samePart]
  · cases v with
    | scalar a => cases a <;> simp [sameValue, Scalar.sameValue, Scalar.asInt?]
    | list vs => simp [sameValue, samePart]
    | map es => simp [sameValue, samePart]
  · cases ht

namespace Receipts

theorem isFor_text {hash r : Value} (ht : hash.isText = true) :
    isFor hash r = true ↔ r.field? "transactionHash" = some hash := by
  unfold isFor
  cases r.field? "transactionHash" with
  | none => simp
  | some t => simp [Value.sameValue_text ht]

/-! ### What stands at a place -/

/-- What stands at a place; where nothing does, null. -/
def entryAt (receipts : List Value) (place : Nat) : Value := (receipts[place]?).getD .null

/-- The hash of the transaction that has a place. -/
def hashAt (txs : List Value) (place : Nat) : Option Value := (txs[place]?).bind hash?

theorem hashAt_eq {txs : List Value} {place : Nat} {tx : Value} (htx : txs[place]? = some tx) :
    hashAt txs place = hash? tx := by
  rw [hashAt, htx]
  rfl

/-- Storing changes what stands at one place. -/
theorem entryAt_store (receipts : List Value) (place k : Nat) (v : Value) :
    entryAt (store receipts place v) k = if k = place then v else entryAt receipts k := by
  unfold entryAt
  by_cases hk : k = place
  · rw [if_pos hk, hk, store_at]
    rfl
  · rw [if_neg hk, store_elsewhere receipts v hk]
    by_cases hlt : k < receipts.length
    · rw [if_pos hlt]
    · rw [if_neg hlt, List.getElem?_eq_none (Nat.le_of_not_lt hlt)]
      split <;> rfl

/-- The hashes of transactions are texts, and no two are the same. -/
structure Distinct (txs : List Value) : Prop where
  /-- They are texts. -/
  texts : ∀ hash ∈ txs.filterMap hash?, hash.isText = true
  /-- They are not repeated. -/
  nodup : (txs.filterMap hash?).Nodup

namespace Distinct

variable {txs : List Value} {tx tx' hash : Value} {i j : Nat}

theorem isText (h : Distinct txs) (hi : hashAt txs i = some hash) : hash.isText = true := by
  obtain ⟨tx, htx, hhash⟩ := Option.bind_eq_some_iff.mp hi
  exact h.texts hash (List.mem_filterMap.mpr ⟨tx, List.mem_of_getElem? htx, hhash⟩)

/-- A hash is that of one place only. -/
theorem place_eq (h : Distinct txs) (hi : hashAt txs i = some hash) (hj : hashAt txs j = some hash) :
    i = j := by
  obtain ⟨tx, htx, hhash⟩ := Option.bind_eq_some_iff.mp hi
  obtain ⟨tx', htx', hhash'⟩ := Option.bind_eq_some_iff.mp hj
  obtain ⟨hlt, rfl⟩ := List.getElem?_eq_some_iff.mp htx
  obtain ⟨hlt', rfl⟩ := List.getElem?_eq_some_iff.mp htx'
  have hpairs := List.pairwise_iff_getElem.mp (List.pairwise_filterMap.mp h.nodup)
  rcases Nat.lt_trichotomy i j with hij | hij | hij
  · exact absurd rfl (hpairs i j hlt hlt' hij hash hhash hash hhash')
  · exact hij
  · exact absurd rfl (hpairs j i hlt' hlt hij hash hhash' hash hhash)

end Distinct

/-- **In an aligned list, the receipt of a hash can only stand at the place of its transaction.** -/
theorem Aligned.any_isFor {txs receipts : List Value} (ha : Aligned txs receipts) (hd : Distinct txs)
    {place : Nat} {hash : Value} (hhash : hashAt txs place = some hash) :
    receipts.any (isFor hash) = isFor hash (entryAt receipts place) := by
  rw [Bool.eq_iff_iff, List.any_eq_true]
  constructor
  · rintro ⟨r, hr, hfor⟩
    obtain ⟨k, hk⟩ := List.mem_iff_getElem?.mp hr
    obtain ⟨tx, hash', htx, hhash', hfor'⟩ := ha.own k r hk (isNull_of_isFor hfor)
    rw [← hashAt_eq htx] at hhash'
    -- a receipt belongs to one hash, and a hash to one place
    rw [isFor_text (hd.isText hhash)] at hfor
    rw [isFor_text (hd.isText hhash'), hfor] at hfor'
    cases hfor'
    rw [hd.place_eq hhash hhash', entryAt, hk]
    exact (isFor_text (hd.isText hhash)).mpr hfor
  · intro hfor
    unfold entryAt at hfor
    cases hk : receipts[place]? with
    | none =>
        rw [hk] at hfor
        simp [isFor, Value.field?, Value.null] at hfor
    | some r =>
        rw [hk] at hfor
        exact ⟨r, List.mem_of_getElem? hk, hfor⟩

/-! ### Two rounds side by side -/

variable {σ : Type}

/-- Two nodes that answer alike but for one hash, and go on alike after every answer. -/
def AgreeBut (h : Value) (f g : Value → StateM σ Rpc.Outcome) : Prop :=
  ∀ hash s, (f hash s).2 = (g hash s).2 ∧ (hash ≠ h → (f hash s).1 = (g hash s).1)

/-- Two rounds that have come to the same place and differ at most at the place of one hash. -/
structure Alike (txs : List Value) (h : Value) (place : Nat) (p q : Progress) : Prop where
  /-- The receipts are the same elsewhere, and still the same from the place on. -/
  entries : ∀ k, hashAt txs k ≠ some h ∨ place ≤ k → entryAt p.receipts k = entryAt q.receipts k
  /-- The same was fetched elsewhere. -/
  fetched : ∀ k v, hashAt txs k ≠ some h → ((k, v) ∈ p.report.fetched ↔ (k, v) ∈ q.report.fetched)
  /-- The same failed elsewhere, for the same reasons. -/
  failures : ∀ k m, hashAt txs k ≠ some h → ((k, m) ∈ p.report.failures ↔ (k, m) ∈ q.report.failures)

namespace Alike

variable {txs : List Value} {h hash : Value} {place : Nat} {p q : Progress}

theorem refl (txs : List Value) (h : Value) (place : Nat) (p : Progress) : Alike txs h place p p :=
  ⟨fun _ _ => rfl, fun _ _ _ => Iff.rfl, fun _ _ _ => Iff.rfl⟩

theorem next (ha : Alike txs h place p q) : Alike txs h (place + 1) p q :=
  ⟨fun k hk => ha.entries k (hk.imp_right Nat.le_of_succ_le), ha.fetched, ha.failures⟩

/-- Both rounds go on with the same outcome. -/
theorem after_same (ha : Alike txs h place p q) (hash : Value) (o : Rpc.Outcome) :
    Alike txs h (place + 1) (p.after place hash o) (q.after place hash o) := by
  cases o with
  | answer v =>
      refine ⟨fun k hk => ?_, fun k u hk => ?_, ha.failures⟩
      · show entryAt (store p.receipts place v) k = entryAt (store q.receipts place v) k
        rw [entryAt_store, entryAt_store, ha.next.entries k hk]
      · show (k, u) ∈ (place, v) :: _ ↔ (k, u) ∈ (place, v) :: _
        rw [List.mem_cons, List.mem_cons, ha.fetched k u hk]
  | failed f =>
      refine ⟨ha.next.entries, ha.fetched, fun k m hk => ?_⟩
      show (k, m) ∈ (place, _) :: _ ↔ (k, m) ∈ (place, _) :: _
      rw [List.mem_cons, List.mem_cons, ha.failures k m hk]
  | broken reason => exact ha.next

/-- One round goes on with an outcome for the one hash. -/
theorem after_left (ha : Alike txs h (place + 1) p q) (hh : hashAt txs place = some h) (o : Rpc.Outcome) :
    Alike txs h (place + 1) (p.after place h o) q := by
  have hne (k : Nat) (hk : hashAt txs k ≠ some h) : k ≠ place := fun heq => hk (heq ▸ hh)
  cases o with
  | answer v =>
      refine ⟨fun k hk => ?_, fun k u hk => ?_, ha.failures⟩
      · have hkp : k ≠ place := by
          rcases hk with hk | hk
          · exact hne k hk
          · omega
        show entryAt (store p.receipts place v) k = _
        rw [entryAt_store, if_neg hkp, ha.entries k hk]
      · show (k, u) ∈ (place, v) :: _ ↔ _
        rw [List.mem_cons, ← ha.fetched k u hk]
        simp [hne k hk]
  | failed f =>
      refine ⟨ha.entries, ha.fetched, fun k m hk => ?_⟩
      show (k, m) ∈ (place, _) :: _ ↔ _
      rw [List.mem_cons, ← ha.failures k m hk]
      simp [hne k hk]
  | broken reason => exact ha

theorem symm (ha : Alike txs h place p q) : Alike txs h place q p :=
  ⟨fun k hk => (ha.entries k hk).symm, fun k v hk => (ha.fetched k v hk).symm,
    fun k m hk => (ha.failures k m hk).symm⟩

/-- Each round goes on with an outcome of its own for the one hash. -/
theorem after_each (ha : Alike txs h place p q) (hh : hashAt txs place = some h) (o o' : Rpc.Outcome) :
    Alike txs h (place + 1) (p.after place h o) (q.after place h o') :=
  ((ha.next.after_left hh o).symm.after_left hh o').symm

end Alike

/-- Two rounds that are alike ask for the same hashes and stay alike. -/
theorem fillFrom_alike {txs : List Value} {h : Value} {f g : Value → StateM σ Rpc.Outcome} (hd : Distinct txs)
    (hf : Honest f) (hg : Honest g) (hfg : AgreeBut h f g) :
    ∀ (more : List Value) (place : Nat) (p q : Progress) (s : σ) (asked : List Value), txs.drop place = more →
      Aligned txs p.receipts → Aligned txs q.receipts → Alike txs h place p q →
        ∃ p' q' end', fillFrom (recording f) place more p (s, asked) = ((p', none), end') ∧
          fillFrom (recording g) place more q (s, asked) = ((q', none), end') ∧
          ∃ last, Alike txs h last p' q' := by
  intro more
  induction more with
  | nil => intro place p q s asked _ _ _ hpq; exact ⟨p, q, (s, asked), rfl, rfl, place, hpq⟩
  | cons tx more ih =>
      intro place p q s asked hmore hp hq hpq
      obtain ⟨htx, hrest⟩ := drop_eq_cons hmore
      rcases skipped_or_asked p tx with hskip | ⟨hash, hhash, habsent⟩
      · -- the other list has the same entry at this place, and so the receipt
        have hskip' (hash : Value) (hhash : hash? tx = some hash) : q.receipts.any (isFor hash) = true := by
          have hat : hashAt txs place = some hash := (hashAt_eq htx).trans hhash
          rw [hq.any_isFor hd hat, ← hpq.entries place (Or.inr (Nat.le_refl place)), ← hp.any_isFor hd hat]
          exact hskip hash hhash
        rw [fillFrom_skip _ place more hskip, fillFrom_skip _ place more hskip']
        exact ih (place + 1) p q s asked hrest hp hq hpq.next
      · have hat : hashAt txs place = some hash := (hashAt_eq htx).trans hhash
        have habsent' : q.receipts.any (isFor hash) = false := by
          rw [hq.any_isFor hd hat, ← hpq.entries place (Or.inr (Nat.le_refl place)), ← hp.any_isFor hd hat]
          exact habsent
        obtain ⟨hstate, hout⟩ := hfg hash s
        have hasked : (recording f hash (s, asked)).2 = (recording g hash (s, asked)).2 :=
          congrArg (fun s' => (s', hash :: asked)) hstate
        have halike : Alike txs h (place + 1) (p.after place hash (f hash s).1)
          (q.after place hash (g hash s).1) := by
          by_cases hh : hash = h
          · rw [hh] at hat ⊢
            exact hpq.after_each hat _ _
          · rw [hout hh]
            exact hpq.after_same hash _
        rw [fillFrom_ask place more hhash habsent ((honest_recording hf).not_broken hash (s, asked)),
          fillFrom_ask place more hhash habsent' ((honest_recording hg).not_broken hash (s, asked)), hasked]
        exact ih (place + 1) _ _ (g hash s).2 (hash :: asked) hrest (hp.after htx hhash habsent (hf hash s)).1
          (hq.after htx hhash habsent' (hg hash s)).1 halike

/--
**An outcome touches only its own transaction.**

A record starts without receipts, its transactions have different texts as hashes, and any number of rounds
with honest nodes leads to `record`.  One more round with either of two honest nodes that differ only on
the hash `h` asks for the same hashes in the same order; for every transaction with another hash, or with
none, both fetch the same or fail alike; and at every place but that of `h` both leave the same entry,
where nothing counts as null.
-/
theorem backfill_isolates_hash {es : Entries} {txs : List Value}
    (htxs : Entries.field? "transactions" es = some (.list txs))
    (hempty : Entries.field? "receipts" es = none ∨ Entries.field? "receipts" es = some (.list []))
    (hdistinct : Distinct txs) {record : Value} (hrounds : Rounds (.map es) record) {h : Value}
    {f g : Value → StateM σ Rpc.Outcome} (hf : Honest f) (hg : Honest g) (hfg : AgreeBut h f g) (s : σ) :
    ∃ reportF reportG afterF afterG,
      (backfill record f s).1.outcome = .ok reportF ∧ (backfill record g s).1.outcome = .ok reportG ∧
      (backfill record f s).1.record.field? "receipts" = some (.list afterF) ∧
      (backfill record g s).1.record.field? "receipts" = some (.list afterG) ∧
      (backfill record (recording f) (s, [])).1 = (backfill record f s).1 ∧
      (backfill record (recording g) (s, [])).1 = (backfill record g s).1 ∧
      requests record f s = requests record g s ∧
      ∀ k, hashAt txs k ≠ some h →
        (∀ v, (k, v) ∈ reportF.fetched ↔ (k, v) ∈ reportG.fetched) ∧
        (∀ m, (k, m) ∈ reportF.failures ↔ (k, m) ∈ reportG.failures) ∧
        entryAt afterF k = entryAt afterG k := by
  have hrecord := ((alignedRecord_of_empty htxs hempty).rounds hrounds).1
  obtain ⟨p, q, last, hloopF, hloopG, place, halike⟩ := fillFrom_alike hdistinct hf hg hfg txs 0 _ _ s []
    List.drop_zero hrecord.aligned hrecord.aligned (.refl txs h 0 { receipts := receiptsIn record })
  obtain ⟨houtcomeF, hfieldF, -, -, hlastF⟩ := hrecord.ends hloopF
  obtain ⟨houtcomeG, hfieldG, -, -, hlastG⟩ := hrecord.ends hloopG
  have hsameF := backfill_recording record f s
  have hsameG := backfill_recording record g s
  rw [hsameF] at houtcomeF hfieldF
  rw [hsameG] at houtcomeG hfieldG
  refine ⟨p.inOrder.report, q.inOrder.report, p.receipts, q.receipts, houtcomeF, houtcomeG, hfieldF,
    hfieldG, hsameF, hsameG, ?_, fun k hk => ⟨fun v => ?_, fun m => ?_, halike.entries k (Or.inl hk)⟩⟩
  · rw [requests, requests, hlastF, hlastG]
  · simpa [Progress.inOrder] using halike.fetched k v hk
  · simpa [Progress.inOrder] using halike.failures k m hk

/-- A node that has a receipt for every hash but one, for which it fails. -/
def failingFor (h : String) (hash : Value) : StateM Unit Rpc.Outcome :=
  if hash.sameValue (.text h) then pure (.failed (.notMap Rpc.receiptMethod)) else answering hash

theorem failingFor_honest (h : String) : Honest (failingFor h) := by
  intro hash s
  unfold failingFor
  by_cases hsame : hash.sameValue (.text h) = true
  · rw [if_pos hsame]
    exact Or.inr ⟨_, rfl⟩
  · rw [if_neg hsame]
    exact answering_honest hash s

theorem failingFor_agreeBut (h : String) : AgreeBut (.text h) (failingFor h) answering := by
  intro hash s
  refine ⟨rfl, fun hne => ?_⟩
  have hsame : ¬ hash.sameValue (.text h) = true := by rwa [Value.sameValue_text rfl]
  unfold failingFor
  rw [if_neg hsame]

/-- The transactions of `separate`. -/
def separateTransactions : List Value :=
  [.map [(.text "hash", .text "0xa")], .map [], .map [(.text "hash", .text "0xb")],
    .map [(.text "hash", .text "0xc")]]

/-- A record of transactions with different hashes, one of them without any; no receipts. -/
def separate : Entries := [(.text "transactions", .list separateTransactions)]

theorem separate_distinct : Distinct separateTransactions := by
  have hhashes : separateTransactions.filterMap hash? = [.text "0xa", .text "0xb", .text "0xc"] := rfl
  refine ⟨?_, ?_⟩
  · rw [hhashes]
    decide
  · rw [hhashes]
    simp [Value.text]

/-- After a round in which everything is pending or fails, a failure for the second hash changes nothing
for the third. -/
theorem backfill_isolates_second_hash :
    Distinct separateTransactions ∧ Honest (failingFor "0xb") ∧ Honest answering ∧
      AgreeBut (.text "0xb") (failingFor "0xb") answering ∧
      ∃ record, Rounds (.map separate) record ∧ ∃ afterF afterG,
        (backfill record (failingFor "0xb") ()).1.record.field? "receipts" = some (.list afterF) ∧
        (backfill record answering ()).1.record.field? "receipts" = some (.list afterG) ∧
        requests record (failingFor "0xb") () = requests record answering () ∧
        entryAt afterF 3 = entryAt afterG 3 := by
  have hfirst : Rounds (.map separate) (backfill (.map separate) hesitating ()).1.record :=
    .single ⟨Unit, hesitating, (), hesitating_honest, rfl⟩
  obtain ⟨reportF, reportG, afterF, afterG, -, -, hfieldF, hfieldG, -, -, hrequests, hothers⟩ :=
    backfill_isolates_hash rfl (Or.inl rfl) separate_distinct hfirst (failingFor_honest "0xb") answering_honest
      (failingFor_agreeBut "0xb") ()
  have hother : hashAt separateTransactions 3 ≠ some (.text "0xb") := by
    rw [show hashAt separateTransactions 3 = some (.text "0xc") from rfl]
    simp [Value.text]
  exact ⟨separate_distinct, failingFor_honest "0xb", answering_honest, failingFor_agreeBut "0xb", _,
    hfirst, afterF, afterG, hfieldF, hfieldG, hrequests, (hothers 3 hother).2.2⟩

end Receipts

end SolidityKit
