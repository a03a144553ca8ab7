/-
What counts as the answer for a transaction.

A round with a client is a list of exchanges: the transactions that are asked for, in order, each with the
reply that its request got (`fillFrom_exchanges`).  The report and the list of receipts can be read off
these exchanges alone.  What a reply is taken for is the business of `Rpc.answers_iff`; here it is followed
through the round.

More replies are taken for answers than are (`backfill_counts_failed_response`).  `backfill_counts_answers`
says what a round does with every reply, and that it counts real answers only exactly if every reply to one of
its requests is candid.
-/
import SolidityKit.Proofs.Receipts.Isolation
import SolidityKit.Proofs.Rpc.Replies

namespace SolidityKit.Receipts

open Rpc (Answers RealAnswer errorOf outcomeOf receiptMethod)

/-! ### Outcomes in a report -/

section After

variable {p : Progress} {place k : Nat} {hash : Value} {o : Rpc.Outcome}

theorem mem_fetched_after {v : Value} :
    (k, v) ∈ (p.after place hash o).report.fetched ↔ (place = k ∧ o = .answer v) ∨
    (k, v) ∈ p.report.fetched := by
  cases o with
  | answer u =>
      show (k, v) ∈ (place, u) :: _ ↔ _
      rw [List.mem_cons, Prod.mk.injEq, Rpc.Outcome.answer.injEq, eq_comm (a := k), eq_comm (a := v)]
  | failed f => simp [Progress.after, Progress.failed]
  | broken reason => simp [Progress.after]

theorem mem_failures_after {m : Points} :
    (k, m) ∈ (p.after place hash o).report.failures ↔
      (place = k ∧ ∃ f, o = .failed f ∧ f.message = m) ∨ (k, m) ∈ p.report.failures := by
  cases o with
  | answer u => simp [Progress.after, Progress.answered]
  | failed f =>
      show (k, m) ∈ (place, f.message) :: _ ↔ _
      rw [List.mem_cons, Prod.mk.injEq, eq_comm (a := k), eq_comm (a := m)]
      simp
  | broken reason => simp [Progress.after]

/-- Only an answer is stored, and only at its place. -/
theorem entryAt_after (h : place = k → ∀ v, o ≠ .answer v) :
    entryAt (p.after place hash o).receipts k = entryAt p.receipts k := by
  cases o with
  | answer u =>
      have hkp : k ≠ place := fun heq => h heq.symm u rfl
      show entryAt (store p.receipts place u) k = _
      rw [entryAt_store, if_neg hkp]
  | failed f => rfl
  | broken reason => rfl

theorem entryAt_after_answer (v : Value) : entryAt (p.after place hash (.answer v)).receipts place = v := by
  show entryAt (store p.receipts place v) place = v
  rw [entryAt_store, if_pos rfl]

end After

/-! ### Exchanges -/

/-- A transaction that was asked for, and the reply. -/
structure Exchange where
  /-- The place of the transaction. -/
  place : Nat
  /-- Its hash. -/
  hash : Value
  /-- The reply to the request. -/
  reply : Rpc.Reply

/-- The progress after an exchange. -/
def Progress.exchanged (p : Progress) (x : Exchange) : Progress :=
  p.after x.place x.hash (outcomeOf receiptMethod x.reply)

/-- What is exchanged from a place on: each transaction at most once and in order, each request with
its own reply. -/
structure Exchanges (txs : List Value) (place : Nat) (net : Rpc.Network) (xs : List Exchange) : Prop where
  /-- The replies come in the order of the network. -/
  replies : ∀ (n : Nat) (x : Exchange), xs[n]? = some x → x.reply = net.reply n
  /-- The transactions come in the order of the record. -/
  ordered : xs.Pairwise fun x y => x.place < y.place
  /-- The hashes are those of the transactions. -/
  own : ∀ x ∈ xs, place ≤ x.place ∧ hashAt txs x.place = some x.hash

namespace Exchanges

variable {txs : List Value} {place : Nat} {net : Rpc.Network} {x y : Exchange} {xs : List Exchange}

theorem of_next (h : Exchanges txs (place + 1) net xs) : Exchanges txs place net xs :=
  ⟨h.replies, h.ordered, fun x hx => ⟨Nat.le_of_succ_le (h.own x hx).1, (h.own x hx).2⟩⟩

theorem cons {r : Rpc.Request} {hash : Value} (h : Exchanges txs (place + 1) (net.posted r) xs)
    (hhash : hashAt txs place = some hash) : Exchanges txs place net (⟨place, hash, net.reply 0⟩ :: xs) where
  replies n x hx := by
    cases n with
    | zero =>
        cases hx
        rfl
    | succ n =>
        rw [← net.reply_posted r n]
        exact h.replies n x hx
  ordered := List.pairwise_cons.mpr ⟨fun x hx => (h.own x hx).1, h.ordered⟩
  own x hx := by
    rcases List.mem_cons.mp hx with rfl | hx
    · exact ⟨Nat.le_refl place, hhash⟩
    · exact h.of_next.own x hx

/-- The transaction at a place is asked for at most once. -/
theorem eq_of_place (h : Exchanges txs place net xs) (hx : x ∈ xs) (hy : y ∈ xs) (hplace : x.place = y.place) :
    x = y := by
  obtain ⟨i, hi, rfl⟩ := List.mem_iff_getElem.mp hx
  obtain ⟨j, hj, rfl⟩ := List.mem_iff_getElem.mp hy
  have hpairs := List.pairwise_iff_getElem.mp h.ordered
  rcases Nat.lt_trichotomy i j with hij | rfl | hij
  · exact absurd hplace (Nat.ne_of_lt (hpairs i j hi hj hij))
  · rfl
  · exact absurd hplace.symm (Nat.ne_of_lt (hpairs j i hj hi hij))

theorem reply_eq (h : Exchanges txs place net xs) (hx : x ∈ xs) : ∃ n, x.reply = net.reply n := by
  obtain ⟨n, hn⟩ := List.mem_iff_getElem?.mp hx
  exact ⟨n, h.replies n x hn⟩

end Exchanges

/-- With a steady network, a round is a list of exchanges. -/
theorem fillFrom_exchanges (c : Rpc.Client) {txs : List Value} :
    ∀ (more : List Value) (place : Nat) (p : Progress) (net : Rpc.Network), txs.drop place = more → net.Steady →
      ∃ xs, Exchanges txs place net xs ∧ fillFrom c.receipt place more p net =
        ((xs.foldl Progress.exchanged p, none),
          xs.foldl (fun net x => net.posted (c.receiptRequest x.hash)) net) := by
  intro more
  induction more with
  | nil =>
      intro place p net _ _
      exact ⟨[], ⟨by simp, .nil, by simp⟩, rfl⟩
  | cons tx more ih =>
      intro place p net hmore hsteady
      obtain ⟨htx, hrest⟩ := drop_eq_cons hmore
      rcases skipped_or_asked p tx with hskip | ⟨hash, hhash, habsent⟩
      · obtain ⟨xs, hxs, heq⟩ := ih (place + 1) p net hrest hsteady
        exact ⟨xs, hxs.of_next, (fillFrom_skip _ place more hskip net).trans heq⟩
      · have hreceipt := Rpc.receipt_eq c hash net
        have hsettled (reason : String) : (c.receipt hash net).1 ≠ .broken reason := by
          rw [hreceipt]
          exact fun hbroken => hsteady 0 reason (Rpc.eq_broken_of_outcomeOf hbroken)
        obtain ⟨xs, hxs, heq⟩ := ih (place + 1) (p.after place hash (outcomeOf receiptMethod (net.reply 0)))
          (net.posted (c.receiptRequest hash)) hrest (hsteady.posted _)
        refine ⟨⟨place, hash, net.reply 0⟩ :: xs, hxs.cons ((hashAt_eq htx).trans hhash), ?_⟩
        rw [fillFrom_ask place more hhash habsent hsettled, hreceipt, heq]
        rfl

section Exchanged

variable {p : Progress} {xs : List Exchange} {k : Nat}

theorem mem_fetched_exchanged {v : Value} : (k, v) ∈ (xs.foldl Progress.exchanged p).report.fetched ↔
    (∃ x ∈ xs, x.place = k ∧ Answers x.reply v) ∨ (k, v) ∈ p.report.fetched := by
  induction xs generalizing p with
  | nil => simp
  | cons x rest ih =>
      rw [List.foldl_cons, ih, Progress.exchanged, mem_fetched_after, Rpc.answers_iff]
      simp only [List.mem_cons, exists_eq_or_imp]
      rw [or_left_comm, or_assoc]

theorem mem_failures_exchanged {m : Points} : (k, m) ∈ (xs.foldl Progress.exchanged p).report.failures ↔
    (∃ x ∈ xs, x.place = k ∧ ∃ f, outcomeOf receiptMethod x.reply = .failed f ∧ f.message = m) ∨
      (k, m) ∈ p.report.failures := by
  induction xs generalizing p with
  | nil => simp
  | cons x rest ih =>
      rw [List.foldl_cons, ih, Progress.exchanged, mem_failures_after]
      simp only [List.mem_cons, exists_eq_or_imp]
      rw [or_left_comm, or_assoc]

/-- A place for which no answer came keeps its entry. -/
theorem entryAt_exchanged (h : ∀ x ∈ xs, x.place = k → ∀ v, ¬ Answers x.reply v) :
    entryAt (xs.foldl Progress.exchanged p).receipts k = entryAt p.receipts k := by
  induction xs generalizing p with
  | nil => rfl
  | cons x rest ih =>
      rw [List.foldl_cons, ih fun y hy => h y (List.mem_cons_of_mem x hy)]
      exact entryAt_after fun hk v hv => h x List.mem_cons_self hk v (Rpc.answers_iff.mp hv)

/-- A place for which an answer came holds it. -/
theorem entryAt_answered {x : Exchange} {v : Value} (hordered : xs.Pairwise fun x y => x.place < y.place)
    (hx : x ∈ xs) (hv : Answers x.reply v) : entryAt (xs.foldl Progress.exchanged p).receipts x.place = v := by
  induction xs generalizing p with
  | nil => cases hx
  | cons y rest ih =>
      obtain ⟨hlater, hrest⟩ := List.pairwise_cons.mp hordered
      rw [List.foldl_cons]
      rcases List.mem_cons.mp hx with rfl | hx
      · rw [entryAt_exchanged fun y hy heq => absurd heq (Nat.ne_of_gt (hlater y hy)), Progress.exchanged,
          Rpc.answers_iff.mpr hv]
        exact entryAt_after_answer v
      · exact ih hrest hx

end Exchanged

/-- Each exchange is a request. -/
theorem requests_posted (c : Rpc.Client) (xs : List Exchange) (net : Rpc.Network) :
    (xs.foldl (fun net x => net.posted (c.receiptRequest x.hash)) net).requests =
      (xs.map fun x => c.receiptRequest x.hash).reverse ++ net.requests := by
  induction xs generalizing net with
  | nil => rfl
  | cons x rest ih =>
      rw [List.foldl_cons, ih]
      simp [Rpc.Network.posted]

/-! ### A round with a client -/

/-- A report that counts real answers only. -/
structure OnlyRealAnswers (xs : List Exchange) (report : Report) (before after : List Value) : Prop where
  /-- What was fetched is a real answer. -/
  real : ∀ k v, (k, v) ∈ report.fetched → ∃ x ∈ xs, x.place = k ∧ RealAnswer x.reply v
  /-- Any other reply is a failure, for which nothing is stored. -/
  others : ∀ x ∈ xs, (∀ v, ¬ RealAnswer x.reply v) →
    (∃ m, (x.place, m) ∈ report.failures) ∧ entryAt after x.place = entryAt before x.place

/--
**A round counts real answers only if all its replies are candid.**

A client goes through a record, in a network in which nothing breaks the round off.  Then the round is a list
of exchanges, one for each request.  What was fetched are the replies that are taken for answers, and what
failed are the others, each with the message of its fault.  What was fetched stands at its place, and any other
place holds what it held.  So every reply that is no answer is a failure and is not stored if and only if no
reply that is no answer looks like one.
-/
theorem backfill_counts_answers {es : Entries} {txs : List Value}
    (htxs : members ((Entries.field? "transactions" es).getD .null) = .ok txs) (c : Rpc.Client)
    {net : Rpc.Network} (hsteady : net.Steady) :
    ∃ xs report after, Exchanges txs 0 net xs ∧
      (backfill (.map es) c.receipt net).1.outcome = .ok report ∧
      (backfill (.map es) c.receipt net).1.record.field? "receipts" = some (.list after) ∧
      (backfill (.map es) c.receipt net).2.requests =
        (xs.map fun x => c.receiptRequest x.hash).reverse ++ net.requests ∧
      (∀ k v, (k, v) ∈ report.fetched ↔ ∃ x ∈ xs, x.place = k ∧ Answers x.reply v) ∧
      (∀ k m, (k, m) ∈ report.failures ↔
        ∃ x ∈ xs, x.place = k ∧ ∃ f, outcomeOf receiptMethod x.reply = .failed f ∧ f.message = m) ∧
      (∀ k v, (k, v) ∈ report.fetched → entryAt after k = v) ∧
      (∀ k, (∀ v, (k, v) ∉ report.fetched) → entryAt after k = entryAt (receiptsOf es) k) ∧
      (OnlyRealAnswers xs report (receiptsOf es) after ↔ ∀ x ∈ xs, x.reply.Candid) := by
  obtain ⟨xs, hxs, hloop⟩ :=
    fillFrom_exchanges c txs 0 { receipts := receiptsOf es } net List.drop_zero hsteady
  obtain ⟨p, hp⟩ : ∃ p, p = xs.foldl Progress.exchanged { receipts := receiptsOf es } := ⟨_, rfl⟩
  rw [← hp] at hloop
  have hround : (backfill (.map es) c.receipt net).1 = .ofLoop es (p, none) := by
    rw [backfill_map htxs, hloop]
  have hfetched (k : Nat) (v : Value) :
      (k, v) ∈ p.inOrder.report.fetched ↔ ∃ x ∈ xs, x.place = k ∧ Answers x.reply v := by
    show (k, v) ∈ p.report.fetched.reverse ↔ _
    rw [List.mem_reverse, hp, mem_fetched_exchanged]
    simp
  have hfailures (k : Nat) (m : Points) : (k, m) ∈ p.inOrder.report.failures ↔
      ∃ x ∈ xs, x.place = k ∧ ∃ f, outcomeOf receiptMethod x.reply = .failed f ∧ f.message = m := by
    show (k, m) ∈ p.report.failures.reverse ↔ _
    rw [List.mem_reverse, hp, mem_failures_exchanged]
    simp
  have hkept (k : Nat) (hnone : ∀ v, (k, v) ∉ p.inOrder.report.fetched) :
      entryAt p.receipts k = entryAt (receiptsOf es) k := by
    rw [hp]
    exact entryAt_exchanged fun x hx hk v hv => hnone v ((hfetched k v).mpr ⟨x, hx, hk, hv⟩)
  refine ⟨xs, p.inOrder.report, p.receipts, hxs, ?_, ?_, ?_, hfetched, hfailures, ?_, hkept, ?_⟩
  · rw [hround]
    rfl
  · rw [hround]
    exact Entries.field?_setField _ _ _
  · rw [backfill_map htxs, hloop]
    exact requests_posted c xs net
  · intro k v hkv
    obtain ⟨x, hx, rfl, hv⟩ := (hfetched k v).mp hkv
    rw [hp]
    exact entryAt_answered hxs.ordered hx hv
  · constructor
    · intro honly x hx
      refine Rpc.candid_iff.mpr fun v hv => ?_
      -- the place has one exchange only, so that the real answer is the reply itself
      obtain ⟨y, hy, hplace, hreal⟩ := honly.real x.place v ((hfetched _ v).mpr ⟨x, hx, rfl, hv⟩)
      rwa [hxs.eq_of_place hy hx hplace] at hreal
    · intro hcandid
      refine ⟨fun k v hkv => ?_, fun x hx hnone => ?_⟩
      · obtain ⟨x, hx, hk, hv⟩ := (hfetched k v).mp hkv
        exact ⟨x, hx, hk, Rpc.candid_iff.mp (hcandid x hx) v hv⟩
      · have hnot (v : Value) : ¬ Answers x.reply v := fun hv => hnone v (Rpc.candid_iff.mp (hcandid x hx) v hv)
        obtain ⟨f, hf⟩ : ∃ f, outcomeOf receiptMethod x.reply = .failed f := by
          cases hout : outcomeOf receiptMethod x.reply with
          | answer v => exact absurd (Rpc.answers_iff.mp hout) (hnot v)
          | failed f => exact ⟨f, rfl⟩
          | broken reason =>
              obtain ⟨n, hn⟩ := hxs.reply_eq hx
              exact absurd (hn.symm.trans (Rpc.eq_broken_of_outcomeOf hout)) (hsteady n reason)
        refine ⟨⟨f.message, (hfailures _ _).mpr ⟨x, hx, rfl, f, hf, rfl⟩⟩, hkept x.place fun v hkv => ?_⟩
        obtain ⟨y, hy, hplace, hv⟩ := (hfetched _ v).mp hkv
        rw [hxs.eq_of_place hy hx hplace] at hv
        exact hnot v hv

/-- A client of a node on the same machine. -/
def localClient : Rpc.Client := ⟨"http://localhost:8545/", "30".toList⟩

/-- The body of an answer that says that a transaction is pending. -/
def pendingBody : Text := "\x7b\"result\":null\x7d".toList

/-- The body of a refusal. -/
def refusalBody : Text := "\x7b\"error\":\"slow down\"\x7d".toList

/-- A network that says what it means: an answer, a refusal and a body that is no document; then it is gone. -/
def candidNetwork : Rpc.Network :=
  { replies := [.response 200 pendingBody, .response 429 refusalBody, .response 503 "busy".toList] }

theorem candid_pendingBody : (Rpc.Reply.response 200 pendingBody).Candid := by
  intro es hbody _
  have hfields : (Json.read pendingBody).toOption.map
      (fun doc => ((doc.field? "result").isSome, (doc.field? "error").isNone)) = some (true, true) := by
    decide +kernel
  rw [hbody] at hfields
  obtain ⟨hresult, herror⟩ := Prod.mk.inj (Option.some.inj hfields)
  exact ⟨by decide, hresult, Or.inl (Option.isNone_iff_eq_none.mp herror)⟩

theorem candid_refusalBody : (Rpc.Reply.response 429 refusalBody).Candid := by
  intro es hbody hfalse
  have herror : (Json.read refusalBody).toOption.map (fun doc => ((doc.field? "error").getD .null).isTruthy) =
      some true := by decide +kernel
  rw [hbody] at herror
  have htrue : (errorOf es).isTruthy = true := Option.some.inj herror
  rw [hfalse] at htrue
  cases htrue

theorem candid_unparsed : (Rpc.Reply.response 503 "busy".toList).Candid := by
  intro es hbody _
  have hnone : (Json.read "busy".toList).toOption.isNone = true := by decide
  rw [hbody] at hnone
  cases hnone

/-- One answer that a transaction is pending, and two failures. -/
theorem backfill_counts_candid_replies :
    members ((Entries.field? "transactions" separate).getD .null) = .ok separateTransactions ∧
    candidNetwork.Steady ∧
      ∃ xs report after, (backfill (.map separate) localClient.receipt candidNetwork).1.outcome = .ok report ∧
        Exchanges separateTransactions 0 candidNetwork xs ∧ OnlyRealAnswers xs report [] after ∧
        report.pending = [0] ∧ report.failures.map (·.1) = [2, 3] := by
  have hreply (n : Nat) : candidNetwork.reply n = .response 200 pendingBody ∨
      candidNetwork.reply n = .response 429 refusalBody ∨ candidNetwork.reply n = .response 503 "busy".toList ∨
      candidNetwork.reply n = .undelivered "no reply" := by
    match n with
    | 0 => exact Or.inl rfl
    | 1 => exact Or.inr (Or.inl rfl)
    | 2 => exact Or.inr (Or.inr (Or.inl rfl))
    | n + 3 => exact Or.inr (Or.inr (Or.inr rfl))
  have hsteady : candidNetwork.Steady := by
    intro n reason
    rcases hreply n with h | h | h | h <;> rw [h] <;> simp
  have htxs : members ((Entries.field? "transactions" separate).getD .null) = .ok separateTransactions := rfl
  obtain ⟨xs, report, after, hxs, houtcome, -, -, -, -, -, -, hcandid⟩ :=
    backfill_counts_answers htxs localClient hsteady
  have hreport : (backfill (.map separate) localClient.receipt candidNetwork).1.outcome.toOption.map
      (fun r => (r.pending, r.failures.map (·.1))) = some ([0], [2, 3]) := by decide +kernel
  rw [houtcome] at hreport
  obtain ⟨hpending, hfailures⟩ := Prod.mk.inj (Option.some.inj hreport)
  refine ⟨htxs, hsteady, xs, report, after, houtcome, hxs, hcandid.mpr fun x hx => ?_, hpending, hfailures⟩
  obtain ⟨n, hn⟩ := hxs.reply_eq hx
  rw [hn]
  rcases hreply n with h | h | h | h <;> rw [h]
  · exact candid_pendingBody
  · exact candid_refusalBody
  · exact candid_unparsed
  · trivial

/-- A record of one transaction. -/
def loneTransaction : Entries :=
  [(.text "transactions", .list [.map [(.text "hash", .text "0xa")]]), (.text "receipts", .list [])]

/-- The body of a response that says only that the node is overloaded. -/
def overloadedBody : Text := "\x7b\"message\":\"overloaded\"\x7d".toList

/-- A failed response whose body is a map without an error counts as the answer that the
transaction is pending. -/
theorem backfill_counts_failed_response :
    (∀ v, ¬ RealAnswer (.response 503 overloadedBody) v) ∧
      ∃ report, (backfill (.map loneTransaction) localClient.receipt
          { replies := [.response 503 overloadedBody] }).1.outcome = .ok report ∧
        report.pending = [0] ∧ report.failures = [] := by
  refine ⟨?_, ?_⟩
  · rintro v ⟨hstatus, -⟩
    exact absurd hstatus.2 (by decide)
  · have hreport : (backfill (.map loneTransaction) localClient.receipt
        { replies := [.response 503 overloadedBody] }).1.outcome.toOption.map
        (fun r => (r.pending, r.failures)) = some ([0], []) := by decide +kernel
    generalize (backfill (.map loneTransaction) localClient.receipt
        { replies := [.response 503 overloadedBody] }).1.outcome = outcome at hreport ⊢
    cases outcome with
    | error f => cases hreport
    | ok report =>
        obtain ⟨hpending, hfailures⟩ := Prod.mk.inj (Option.some.inj hreport)
        exact ⟨report, rfl, hpending, hfailures⟩

end SolidityKit.Receipts
