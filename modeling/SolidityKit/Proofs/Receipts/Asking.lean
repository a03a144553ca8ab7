/-
What one round does, said without its loop.

The loop looks at a list that it is also filling, so what it asks for seems to depend on everything it has
stored so far.  It is enough to know what was fetched.  `laidOver` is the list of receipts with the answers
laid over it, each at the place of its transaction; storing one more answer behind the others lays one more
answer over it (`store_laidOver`).  The list that the loop finds when it comes to a transaction is therefore
the first list with the answers for the places before laid over it, and the list that it leaves is the first
list with all of them.

`Visits` keeps from the loop the transactions that were asked for, in order.  Every field of `Exactly` is an
induction over it, and `backfill_exactly` puts them together.  Nothing is assumed of the answers: a node may
answer with anything, or fail, as long as it does not break the round off.
-/
import SolidityKit.Proofs.Receipts.Isolation

namespace SolidityKit

namespace Receipts

/-! ### Answers laid over a list -/

/-- How long a list is that has a place for everything that was fetched. -/
def reach (before : List Value) (fetched : List (Nat × Value)) : Nat :=
  fetched.foldr (fun e n => max (e.1 + 1) n) before.length

/-- The list with each answer at its place, what stood there at every other place, and null
where nothing did. -/
def laidOver (before : List Value) (fetched : List (Nat × Value)) : List Value :=
  (List.range (reach before fetched)).map fun k => (fetched.lookup k).getD (entryAt before k)

section LaidOver

variable {before : List Value} {fetched : List (Nat × Value)} {place k : Nat}

theorem reach_append (v : Value) :
    reach before (fetched ++ [(place, v)]) = max (reach before fetched) (place + 1) := by
  unfold reach
  induction fetched with
  | nil =>
      show max (place + 1) before.length = _
      exact Nat.max_comm _ _
  | cons e rest ih =>
      rw [List.cons_append, List.foldr_cons, List.foldr_cons, ih, Nat.max_assoc]

theorem length_le_reach : before.length ≤ reach before fetched := by
  unfold reach
  induction fetched with
  | nil => exact Nat.le_refl _
  | cons e rest ih =>
      rw [List.foldr_cons]
      omega

theorem lt_reach {e : Nat × Value} (he : e ∈ fetched) : e.1 < reach before fetched := by
  unfold reach
  induction fetched with
  | nil => simp at he
  | cons e' rest ih =>
      rw [List.foldr_cons]
      rcases List.mem_cons.mp he with rfl | hrest
      · omega
      · have hlt := ih hrest
        omega

theorem length_laidOver : (laidOver before fetched).length = reach before fetched := by
  rw [laidOver, List.length_map, List.length_range]

theorem getElem?_laidOver : (laidOver before fetched)[k]? =
    if k < reach before fetched then some ((fetched.lookup k).getD (entryAt before k)) else none := by
  rw [laidOver, List.getElem?_map]
  by_cases hk : k < reach before fetched
  · rw [if_pos hk, List.getElem?_range hk, Option.map_some]
  · rw [if_neg hk, List.getElem?_eq_none (by rw [List.length_range]; omega), Option.map_none]

@[simp] theorem laidOver_nil : laidOver before [] = before := by
  apply List.ext_getElem?
  intro k
  rw [getElem?_laidOver]
  show (if k < before.length then some (entryAt before k) else none) = _
  by_cases hk : k < before.length
  · rw [if_pos hk, entryAt, List.getElem?_eq_getElem hk, Option.getD_some]
  · rw [if_neg hk, List.getElem?_eq_none (by omega)]

theorem lookup_eq_none (habove : ∀ e ∈ fetched, e.1 < k) : fetched.lookup k = none := by
  rw [List.lookup_eq_none_iff]
  intro e he
  have hlt := habove e he
  rw [bne_iff_ne]
  omega

/-- **An answer that is stored behind all others is laid over the list with them.** -/
theorem store_laidOver (hbelow : ∀ e ∈ fetched, e.1 < place) (v : Value) :
    store (laidOver before fetched) place v = laidOver before (fetched ++ [(place, v)]) := by
  apply List.ext_getElem?
  intro k
  rw [getElem?_laidOver, reach_append, List.lookup_append]
  by_cases hkp : k = place
  · subst hkp
    rw [store_at, if_pos (by omega), lookup_eq_none hbelow]
    simp
  · have hlast : [(place, v)].lookup k = none := by
      rw [List.lookup_eq_none_iff]
      simpa using hkp
    rw [store_elsewhere _ v hkp, length_laidOver, getElem?_laidOver, hlast, Option.or_none]
    by_cases hk : k < reach before fetched
    · rw [if_pos hk, if_pos hk, if_pos (by omega)]
    · -- beyond the old end stands nothing, and null once the list is long enough
      have hnone : fetched.lookup k = none := by
        apply lookup_eq_none
        intro e he
        have hlt : e.1 < reach before fetched := lt_reach he
        omega
      have hnull : entryAt before k = .null := by
        have hle : before.length ≤ reach before fetched := length_le_reach
        rw [entryAt, List.getElem?_eq_none (by omega), Option.getD_none]
      rw [if_neg hk, hnone, Option.getD_none, hnull]
      by_cases hlt : k < place
      · rw [if_pos hlt, if_pos (by omega)]
      · rw [if_neg hlt, if_neg (by omega)]

end LaidOver

/-! ### What is asked for, and what comes of it -/

/-- A transaction that is asked for. -/
structure Asked where
  /-- The place of the transaction. -/
  place : Nat
  /-- Its hash. -/
  hash : Value
  /-- What came of asking. -/
  outcome : Rpc.Outcome

namespace Asked

/-- What was fetched, with its place. -/
def fetched? (a : Asked) : Option (Nat × Value) :=
  match a.outcome with
  | .answer v => some (a.place, v)
  | _ => none

/-- Why nothing was fetched, with the place. -/
def failure? (a : Asked) : Option (Nat × Points) :=
  match a.outcome with
  | .failed f => some (a.place, f.message)
  | _ => none

/-- The progress after asking. -/
def proceed (p : Progress) (a : Asked) : Progress := p.after a.place a.hash a.outcome

theorem place_of_fetched? {a : Asked} {e : Nat × Value} (h : a.fetched? = some e) : e.1 = a.place := by
  unfold fetched? at h
  split at h
  · cases h
    rfl
  · cases h

theorem place_of_failure? {a : Asked} {e : Nat × Points} (h : a.failure? = some e) : e.1 = a.place := by
  unfold failure? at h
  split at h
  · cases h
    rfl
  · cases h

end Asked

variable {σ : Type}

/-- A node says, one after the other, what came of asking. -/
def Speaks (fetch : Value → StateM σ Rpc.Outcome) : σ → List Asked → Prop
  | _, [] => True
  | s, a :: rest => (fetch a.hash s).1 = a.outcome ∧ Speaks fetch (fetch a.hash s).2 rest

/-- No fetch breaks a round off: each ends with an answer or fails. -/
def Settled (fetch : Value → StateM σ Rpc.Outcome) : Prop :=
  ∀ hash s reason, (fetch hash s).1 ≠ .broken reason

/-- The transactions from a place on, gone through with everything that is asked for on the way. -/
inductive Visits : Nat → List Value → Progress → List Asked → Prop
  /-- There are no transactions left. -/
  | done (place : Nat) (p : Progress) : Visits place [] p []
  /-- The transaction has no hash, or its receipt is there. -/
  | skip {place : Nat} {tx : Value} {more : List Value} {p : Progress} {as : List Asked}
      (hskip : ∀ hash, hash? tx = some hash → p.receipts.any (isFor hash) = true)
      (rest : Visits (place + 1) more p as) : Visits place (tx :: more) p as
  /-- The transaction is asked for. -/
  | ask {place : Nat} {tx hash : Value} {more : List Value} {p : Progress} {o : Rpc.Outcome} {as : List Asked}
      (hhash : hash? tx = some hash) (habsent : p.receipts.any (isFor hash) = false)
      (rest : Visits (place + 1) more (p.after place hash o) as) :
      Visits place (tx :: more) p (⟨place, hash, o⟩ :: as)

/-- The loop comes to its end and has gone through the transactions. -/
theorem fillFrom_visits {fetch : Value → StateM σ Rpc.Outcome} (hsettled : Settled fetch) :
    ∀ (txs : List Value) (place : Nat) (p : Progress) (s : σ), ∃ as, Visits place txs p as ∧ Speaks fetch s as ∧
      fillFrom fetch place txs p s =
        ((as.foldl Asked.proceed p, none), as.foldl (fun s a => (fetch a.hash s).2) s) := by
  intro txs
  induction txs with
  | nil => intro place p s; exact ⟨[], .done place p, trivial, rfl⟩
  | cons tx more ih =>
      intro place p s
      rcases skipped_or_asked p tx with hskip | ⟨hash, hhash, habsent⟩
      · obtain ⟨as, hvisits, hspeaks, hloop⟩ := ih (place + 1) p s
        refine ⟨as, .skip hskip hvisits, hspeaks, ?_⟩
        rw [fillFrom_skip fetch place more hskip, hloop]
      · obtain ⟨as, hvisits, hspeaks, hloop⟩ :=
          ih (place + 1) (p.after place hash (fetch hash s).1) (fetch hash s).2
        refine ⟨⟨place, hash, (fetch hash s).1⟩ :: as, .ask hhash habsent hvisits, ⟨rfl, hspeaks⟩, ?_⟩
        rw [fillFrom_ask place more hhash habsent (hsettled hash s), hloop]
        rfl

/-! ### A node that keeps a list -/

theorem settled_recording {fetch : Value → StateM σ Rpc.Outcome} (h : Settled fetch) :
    Settled (recording fetch) :=
  fun hash s => h hash s.1

theorem speaks_recording {fetch : Value → StateM σ Rpc.Outcome} {as : List Asked} {s : σ} {asked : List Value} :
    Speaks (recording fetch) (s, asked) as ↔ Speaks fetch s as := by
  induction as generalizing s asked with
  | nil => exact Iff.rfl
  | cons a rest ih => exact and_congr_right fun _ => ih

/-- What is on the list are the hashes that were asked for. -/
theorem recorded (fetch : Value → StateM σ Rpc.Outcome) (as : List Asked) (s : σ) (asked : List Value) :
    (as.foldl (fun s a => (recording fetch a.hash s).2) (s, asked)).2 = (as.map Asked.hash).reverse ++
      asked := by
  induction as generalizing s asked with
  | nil => rfl
  | cons a rest ih =>
      rw [List.foldl_cons]
      refine (ih (fetch a.hash s).2 (a.hash :: asked)).trans ?_
      simp

/-! ### The order of asking -/

section Visits

variable {place : Nat} {more : List Value} {p : Progress} {as : List Asked}

theorem Visits.later (h : Visits place more p as) : ∀ a ∈ as, place ≤ a.place := by
  induction h with
  | done place p => simp
  | skip _ _ ih =>
      intro a ha
      exact Nat.le_of_succ_le (ih a ha)
  | ask _ _ _ ih =>
      intro a ha
      rcases List.mem_cons.mp ha with rfl | hrest
      · exact Nat.le_refl _
      · exact Nat.le_of_succ_le (ih a hrest)

theorem Visits.ordered (h : Visits place more p as) : as.Pairwise fun a b => a.place < b.place := by
  induction h with
  | done place p => exact .nil
  | skip _ _ ih => exact ih
  | ask _ _ rest ih => exact .cons rest.later ih

/-- Nothing has been asked for when the loop comes to its first transaction. -/
theorem Visits.none_before (h : Visits place more p as) : as.filter (fun a => a.place < place) = [] := by
  rw [List.filter_eq_nil_iff]
  intro a ha
  have hle := h.later a ha
  simp only [decide_eq_true_eq]
  omega

/-- **A transaction is asked for exactly if the list that the loop finds there has no receipt of its hash.** -/
theorem Visits.asked_iff (h : Visits place more p as) (i : Nat) (hash : Value) :
    (∃ a ∈ as, a.place = place + i ∧ a.hash = hash) ↔
      ∃ tx, more[i]? = some tx ∧ hash? tx = some hash ∧
        ((as.filter fun a => a.place < place + i).foldl Asked.proceed p).receipts.any (isFor hash) = false := by
  induction h generalizing i with
  | done place p => simp
  | @skip place tx more p as hskip rest ih =>
      cases i with
      | zero =>
          constructor
          · rintro ⟨a, ha, hplace, -⟩
            have hle := rest.later a ha
            omega
          · rintro ⟨tx', htx, hhash, habsent⟩
            have hnone := (Visits.skip hskip rest).none_before
            rw [Nat.add_zero, hnone, List.foldl_nil] at habsent
            cases htx
            rw [hskip hash hhash] at habsent
            cases habsent
      | succ i =>
          have hplace : place + (i + 1) = place + 1 + i := by omega
          rw [hplace, List.getElem?_cons_succ]
          exact ih i
  | @ask place tx hash' more p o as hhash habsent rest ih =>
      cases i with
      | zero =>
          have hnone := (Visits.ask hhash habsent rest).none_before
          rw [Nat.add_zero, hnone, List.foldl_nil]
          constructor
          · rintro ⟨a, ha, hplace, rfl⟩
            rcases List.mem_cons.mp ha with rfl | hrest
            · exact ⟨tx, rfl, hhash, habsent⟩
            · have hle := rest.later a hrest
              omega
          · rintro ⟨tx', htx, hhash', -⟩
            cases htx
            cases hhash.symm.trans hhash'
            exact ⟨_, List.mem_cons_self, rfl, rfl⟩
      | succ i =>
          have hplace : place + (i + 1) = place + 1 + i := by omega
          have hfirst : place < place + 1 + i := by omega
          rw [hplace, List.getElem?_cons_succ, List.filter_cons, if_pos (by simpa using hfirst),
            List.foldl_cons]
          have hrest : (∃ a ∈ (⟨place, hash', o⟩ : Asked) :: as, a.place = place + 1 + i ∧ a.hash = hash) ↔
              ∃ a ∈ as, a.place = place + 1 + i ∧ a.hash = hash := by
            simp only [List.mem_cons, exists_eq_or_imp]
            refine or_iff_right ?_
            rintro ⟨hsame, -⟩
            have hne : place ≠ place + 1 + i := by omega
            exact hne hsame
          rw [hrest]
          exact ih i

end Visits

/-! ### What asking leaves behind -/

section Proceed

variable {p : Progress} {as : List Asked}

theorem fetched_proceed :
    (as.foldl Asked.proceed p).report.fetched = (as.filterMap Asked.fetched?).reverse ++ p.report.fetched := by
  induction as generalizing p with
  | nil => rfl
  | cons a rest ih =>
      rw [List.foldl_cons, ih, List.filterMap_cons]
      obtain ⟨place, hash, o⟩ := a
      cases o with
      | answer v => simp [Asked.proceed, Asked.fetched?, Progress.after, Progress.answered]
      | failed f => rfl
      | broken reason => rfl

theorem failures_proceed :
    (as.foldl Asked.proceed p).report.failures = (as.filterMap Asked.failure?).reverse ++
      p.report.failures := by
  induction as generalizing p with
  | nil => rfl
  | cons a rest ih =>
      rw [List.foldl_cons, ih, List.filterMap_cons]
      obtain ⟨place, hash, o⟩ := a
      cases o with
      | answer v => rfl
      | failed f => simp [Asked.proceed, Asked.failure?, Progress.after, Progress.failed]
      | broken reason => rfl

/-- **Asking in order lays the answers over the list.** -/
theorem receipts_proceed {before : List Value} {known : List (Nat × Value)}
    (hordered : as.Pairwise fun a b => a.place < b.place) (hknown : ∀ a ∈ as, ∀ e ∈ known, e.1 < a.place)
    (hp : p.receipts = laidOver before known) :
    (as.foldl Asked.proceed p).receipts = laidOver before (known ++ as.filterMap Asked.fetched?) := by
  induction as generalizing p known with
  | nil => rw [List.filterMap_nil, List.append_nil, List.foldl_nil, hp]
  | cons a rest ih =>
      obtain ⟨hlater, hafter⟩ := List.pairwise_cons.mp hordered
      have hrest : ∀ b ∈ rest, ∀ e ∈ known, e.1 < b.place := fun b hb => hknown b (List.mem_cons_of_mem a hb)
      obtain ⟨place, hash, o⟩ := a
      rw [List.foldl_cons, List.filterMap_cons]
      cases o with
      | answer v =>
          have hstored : (Asked.proceed p ⟨place, hash, .answer v⟩).receipts =
              laidOver before (known ++ [(place, v)]) := by
            show store p.receipts place v = _
            rw [hp, store_laidOver (hknown _ List.mem_cons_self)]
          have hknown' : ∀ b ∈ rest, ∀ e ∈ known ++ [(place, v)], e.1 < b.place := by
            intro b hb e he
            rcases List.mem_append.mp he with he | he
            · exact hrest b hb e he
            · rw [List.mem_singleton.mp he]
              exact hlater b hb
          rw [ih hafter hknown' hstored, List.append_assoc]
          rfl
      | failed f => exact ih hafter hrest hp
      | broken reason => exact ih hafter hrest hp

theorem filterMap_fetched_below (place : Nat) :
    (as.filter fun a => a.place < place).filterMap Asked.fetched? =
      (as.filterMap Asked.fetched?).filter fun e => e.1 < place := by
  induction as with
  | nil => rfl
  | cons a rest ih =>
      cases hfetched : a.fetched? with
      | none =>
          rw [List.filterMap_cons, hfetched, List.filter_cons]
          split
          · rw [List.filterMap_cons, hfetched, ih]
          · exact ih
      | some e =>
          have hplace : e.1 = a.place := Asked.place_of_fetched? hfetched
          rw [List.filterMap_cons, hfetched, List.filter_cons, List.filter_cons, hplace]
          split
          · rw [List.filterMap_cons, hfetched, ih]
          · exact ih

end Proceed

/-- The receipts as they stand when the loop comes to a place. -/
def receiptsAt (fetch : Value → StateM σ Rpc.Outcome) (s : σ) (txs before : List Value) (place : Nat) :
    List Value :=
  (fillFrom fetch 0 (txs.take place) { receipts := before } s).1.1.receipts

/-- The loop over the first transactions asks for those of them that the whole loop asks for. -/
theorem Visits.fillFrom_take {fetch : Value → StateM σ Rpc.Outcome} (hsettled : Settled fetch) {place : Nat}
    {more : List Value} {p : Progress} {as : List Asked} (h : Visits place more p as) (i : Nat) {s : σ}
    (hspeaks : Speaks fetch s as) :
    (fillFrom fetch place (more.take i) p s).1.1 =
      (as.filter fun a => a.place < place + i).foldl Asked.proceed p := by
  induction h generalizing i s with
  | done place p => rw [List.take_nil]; rfl
  | @skip place tx more p as hskip rest ih =>
      cases i with
      | zero =>
          rw [Nat.add_zero, (Visits.skip hskip rest).none_before]
          rfl
      | succ i =>
          have hplace : place + (i + 1) = place + 1 + i := by omega
          rw [List.take_succ_cons, fillFrom_skip fetch place _ hskip, hplace]
          exact ih i hspeaks
  | @ask place tx hash more p o as hhash habsent rest ih =>
      cases i with
      | zero =>
          rw [Nat.add_zero, (Visits.ask hhash habsent rest).none_before]
          rfl
      | succ i =>
          obtain ⟨houtcome, hrest⟩ := hspeaks
          have houtcome : (fetch hash s).1 = o := houtcome
          have hplace : place + (i + 1) = place + 1 + i := by omega
          have hfirst : place < place + 1 + i := by omega
          rw [List.take_succ_cons, fillFrom_ask place _ hhash habsent (hsettled hash s), houtcome, hplace,
            List.filter_cons, if_pos (by simpa using hfirst), List.foldl_cons]
          exact ih i hrest

/-! ### A whole round -/

/-- A round that asks for these transactions, one after the other, and does nothing else. -/
structure Exactly (fetch : Value → StateM σ Rpc.Outcome) (s : σ) (es : Entries) (txs : List Value)
    (asked : List Asked) (report : Report) (after : List Value) : Prop where
  /-- The round ends with a report. -/
  outcome : (backfill (.map es) fetch s).1.outcome = .ok report
  /-- The record has the receipts. -/
  receipts : (backfill (.map es) fetch s).1.record.field? "receipts" = some (.list after)
  /-- Every other entry of the record is as it was, and in its order. -/
  others : ∃ es', (backfill (.map es) fetch s).1.record = .map es' ∧
    es'.filter (fun e => e.1 ≠ .text "receipts") = es.filter fun e => e.1 ≠ .text "receipts"
  /-- The requests are those for the transactions, in this order. -/
  requests : requests (.map es) fetch s = (asked.map Asked.hash).reverse
  /-- What came of asking is what the node answers. -/
  spoken : Speaks fetch s asked
  /-- Transactions are asked for in the order of their places, each at most once. -/
  ordered : asked.Pairwise fun a b => a.place < b.place
  /-- A transaction is asked for if it has a hash of which no receipt is there when the round comes to it. -/
  asked_iff : ∀ i hash, (∃ a ∈ asked, a.place = i ∧ a.hash = hash) ↔ ∃ tx, txs[i]? = some tx ∧
    hash? tx = some hash ∧ (receiptsAt fetch s txs (receiptsOf es) i).any (isFor hash) = false
  /-- What is there then are the answers for the places before, laid over the receipts. -/
  reached : ∀ i, receiptsAt fetch s txs (receiptsOf es) i =
    laidOver (receiptsOf es) (report.fetched.filter fun e => e.1 < i)
  /-- What was fetched are the answers. -/
  fetched : report.fetched = asked.filterMap Asked.fetched?
  /-- What failed are the others. -/
  failures : report.failures = asked.filterMap Asked.failure?
  /-- Each transaction that was asked for was fetched or failed, and no other did. -/
  together : ∀ i, i ∈ asked.map Asked.place ↔ i ∈ report.fetched.map Prod.fst ∨ i ∈ report.failures.map Prod.fst
  /-- None did both. -/
  apart : ∀ i ∈ report.fetched.map Prod.fst, i ∉ report.failures.map Prod.fst
  /-- The list of receipts has a place for everything that was fetched, and none beyond. -/
  length : after.length = reach (receiptsOf es) report.fetched
  /-- At each place it has what was fetched for it, or else what was there, or else null. -/
  entries : ∀ k < after.length, after[k]? = some ((report.fetched.lookup k).getD (entryAt (receiptsOf es) k))

section Places

variable {as : List Asked}

theorem eq_of_place (hordered : as.Pairwise fun a b => a.place < b.place) {a b : Asked} (ha : a ∈ as)
    (hb : b ∈ as) (hplace : a.place = b.place) : a = b := by
  induction as with
  | nil => simp at ha
  | cons c rest ih =>
      obtain ⟨hlater, hafter⟩ := List.pairwise_cons.mp hordered
      rcases List.mem_cons.mp ha with rfl | ha' <;> rcases List.mem_cons.mp hb with rfl | hb'
      · rfl
      · have hlt := hlater b hb'
        omega
      · have hlt := hlater a ha'
        omega
      · exact ih hafter ha' hb'

theorem mem_fetched {i : Nat} : i ∈ (as.filterMap Asked.fetched?).map Prod.fst ↔
    ∃ a ∈ as, a.place = i ∧ ∃ v, a.outcome = .answer v := by
  simp only [List.mem_map, List.mem_filterMap]
  constructor
  · rintro ⟨e, ⟨a, ha, hfetched⟩, rfl⟩
    refine ⟨a, ha, (Asked.place_of_fetched? hfetched).symm, ?_⟩
    unfold Asked.fetched? at hfetched
    split at hfetched
    · exact ⟨_, by assumption⟩
    · cases hfetched
  · rintro ⟨a, ha, rfl, v, hv⟩
    exact ⟨(a.place, v), ⟨a, ha, by rw [Asked.fetched?, hv]⟩, rfl⟩

theorem mem_failures {i : Nat} : i ∈ (as.filterMap Asked.failure?).map Prod.fst ↔
    ∃ a ∈ as, a.place = i ∧ ∃ f, a.outcome = .failed f := by
  simp only [List.mem_map, List.mem_filterMap]
  constructor
  · rintro ⟨e, ⟨a, ha, hfailure⟩, rfl⟩
    refine ⟨a, ha, (Asked.place_of_failure? hfailure).symm, ?_⟩
    unfold Asked.failure? at hfailure
    split at hfailure
    · exact ⟨_, by assumption⟩
    · cases hfailure
  · rintro ⟨a, ha, rfl, f, hf⟩
    exact ⟨(a.place, f.message), ⟨a, ha, by rw [Asked.failure?, hf]⟩, rfl⟩

theorem Speaks.not_broken {fetch : Value → StateM σ Rpc.Outcome} (hsettled : Settled fetch) {s : σ}
    (h : Speaks fetch s as) {a : Asked} (ha : a ∈ as) (reason : String) : a.outcome ≠ .broken reason := by
  induction as generalizing s with
  | nil => simp at ha
  | cons b rest ih =>
      obtain ⟨houtcome, hrest⟩ := h
      rcases List.mem_cons.mp ha with rfl | ha
      · rw [← houtcome]
        exact hsettled a.hash s reason
      · exact ih hrest ha

end Places

/--
**What a round does, exactly.**

A round over any record with transactions, with a node that breaks nothing off, asks for the transactions with
a hash of which no receipt is there when it comes to them, once each and in order.  Each of them is fetched or
fails.  The receipts are those of before with what was fetched laid over them, null where nothing stood, and
nothing else of the record has changed.
-/
theorem backfill_exactly {fetch : Value → StateM σ Rpc.Outcome} (hsettled : Settled fetch) {es : Entries}
    {txs : List Value} (htxs : members ((Entries.field? "transactions" es).getD .null) = .ok txs) (s : σ) :
    ∃ asked report after, Exactly fetch s es txs asked report after := by
  -- the node that keeps a list goes the same way, and shows what it was asked for
  obtain ⟨asked, hvisits, hspeaks, hloop⟩ :=
    fillFrom_visits (settled_recording hsettled) txs 0 { receipts := receiptsOf es } (s, [])
  have hspeaks : Speaks fetch s asked := speaks_recording.mp hspeaks
  obtain ⟨p, hp⟩ : ∃ p, p = asked.foldl Asked.proceed { receipts := receiptsOf es } := ⟨_, rfl⟩
  rw [← hp] at hloop
  have hfetched : p.inOrder.report.fetched = asked.filterMap Asked.fetched? := by
    show p.report.fetched.reverse = _
    rw [hp, fetched_proceed, List.append_nil, List.reverse_reverse]
  have hfailures : p.inOrder.report.failures = asked.filterMap Asked.failure? := by
    show p.report.failures.reverse = _
    rw [hp, failures_proceed, List.append_nil, List.reverse_reverse]
  have hlaid (as : List Asked) (hordered : as.Pairwise fun a b => a.place < b.place) :
      (as.foldl Asked.proceed { receipts := receiptsOf es }).receipts =
        laidOver (receiptsOf es) (as.filterMap Asked.fetched?) := by
    have hnone : ∀ a ∈ as, ∀ e ∈ ([] : List (Nat × Value)), e.1 < a.place := fun _ _ e he => by cases he
    exact receipts_proceed hordered hnone laidOver_nil.symm
  have hreceipts : p.receipts = laidOver (receiptsOf es) p.inOrder.report.fetched := by
    rw [hp, hlaid asked hvisits.ordered, ← hp, hfetched]
  have hround : (backfill (.map es) fetch s).1 = .ofLoop es (p, none) := by
    rw [← backfill_recording, backfill_map htxs, hloop]
  have hat (i : Nat) : receiptsAt fetch s txs (receiptsOf es) i =
      ((asked.filter fun a => a.place < i).foldl Asked.proceed { receipts := receiptsOf es }).receipts := by
    have htake := hvisits.fillFrom_take hsettled i hspeaks
    rw [Nat.zero_add] at htake
    rw [receiptsAt, htake]
  refine ⟨asked, p.inOrder.report, p.receipts, ?_⟩
  constructor
  case outcome => rw [hround]; rfl
  case receipts => rw [hround]; exact Entries.field?_setField _ _ _
  case others => exact ⟨_, by rw [hround]; rfl, Entries.filter_setField _ _ _⟩
  case requests =>
    rw [Receipts.requests, backfill_map htxs, hloop]
    exact (recorded fetch asked s []).trans (List.append_nil _)
  case spoken => exact hspeaks
  case ordered => exact hvisits.ordered
  case asked_iff =>
    intro i hash
    have hiff := hvisits.asked_iff i hash
    rw [Nat.zero_add] at hiff
    rw [hiff, hat]
  case reached =>
    intro i
    rw [hat, hlaid _ (hvisits.ordered.filter _), filterMap_fetched_below, hfetched]
  case fetched => exact hfetched
  case failures => exact hfailures
  case together =>
    intro i
    rw [hfetched, hfailures, mem_fetched, mem_failures, List.mem_map]
    constructor
    · rintro ⟨a, ha, hplace⟩
      cases houtcome : a.outcome with
      | answer v => exact Or.inl ⟨a, ha, hplace, v, houtcome⟩
      | failed f => exact Or.inr ⟨a, ha, hplace, f, houtcome⟩
      | broken reason => exact absurd houtcome (hspeaks.not_broken hsettled ha reason)
    · rintro (⟨a, ha, hplace, -⟩ | ⟨a, ha, hplace, -⟩) <;> exact ⟨a, ha, hplace⟩
  case apart =>
    intro i hi hi'
    rw [hfetched, mem_fetched] at hi
    rw [hfailures, mem_failures] at hi'
    obtain ⟨a, ha, rfl, v, hv⟩ := hi
    obtain ⟨b, hb, hplace, f, hf⟩ := hi'
    rw [eq_of_place hvisits.ordered hb ha hplace, hv] at hf
    cases hf
  case length => rw [hreceipts, length_laidOver]
  case entries =>
    intro k hk
    rw [hreceipts, length_laidOver] at hk
    rw [hreceipts, getElem?_laidOver, if_pos hk]

/-- A record whose receipts are no list; the first and the last transaction have the same hash, the
second has none. -/
def unlisted : Entries :=
  [(.text "chain", .int 1), (.text "receipts", .text "lost"),
   (.text "transactions", .list [.map [(.text "hash", .text "0xa")], .map [],
      .map [(.text "hash", .text "0xb")], .map [(.text "hash", .text "0xa")]]),
   (.text "commit", .text "f00")]

/-- Its transactions. -/
def unlistedTransactions : List Value :=
  [.map [(.text "hash", .text "0xa")], .map [], .map [(.text "hash", .text "0xb")],
    .map [(.text "hash", .text "0xa")]]

theorem settled_of_honest {fetch : Value → StateM σ Rpc.Outcome} (h : Honest fetch) : Settled fetch :=
  h.not_broken

/--
The last transaction is not asked for, because the receipt of its hash has just been fetched for the first one;
the second has no hash, and its place is filled with null.
-/
theorem backfill_exactly_unlisted :
    Settled answering ∧ members ((Entries.field? "transactions" unlisted).getD .null) =
      .ok unlistedTransactions ∧
      ∃ asked report after, Exactly answering () unlisted unlistedTransactions asked report after ∧
        report.fetched = [(0, receiptFor "0xa"), (2, receiptFor "0xb")] ∧ report.failures = [] ∧
        after = [receiptFor "0xa", .null, receiptFor "0xb"] := by
  have hsettled : Settled answering := settled_of_honest answering_honest
  have htxs : members ((Entries.field? "transactions" unlisted).getD .null) = .ok unlistedTransactions := rfl
  obtain ⟨asked, report, after, h⟩ := backfill_exactly hsettled htxs ()
  have hreport : report = { fetched := [(0, receiptFor "0xa"), (2, receiptFor "0xb")] } := by
    cases h.outcome
    rfl
  have hafter : after = [receiptFor "0xa", .null, receiptFor "0xb"] := by
    cases h.receipts
    rfl
  exact ⟨hsettled, htxs, asked, report, after, h, by rw [hreport], by rw [hreport], hafter⟩

end Receipts

end SolidityKit
