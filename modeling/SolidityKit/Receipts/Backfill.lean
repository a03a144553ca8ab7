/-
Completing a broadcast record.

A broadcast record lists transactions and their receipts.  For each transaction with a hash and no
receipt of that hash anywhere in the list, a receipt is fetched and stored at the transaction's own
place.  A null answer is stored too and means that the transaction is pending; a failed fetch only
leaves its own transaction without a receipt.
-/
import SolidityKit.Rpc.Client

namespace SolidityKit.Receipts

/-- What one round of fetching brought. -/
structure Report where
  /-- What was fetched, by the place of the transaction. -/
  fetched : List (Nat × Value) := []
  /-- Why a fetch failed, by the place of the transaction. -/
  failures : List (Nat × Points) := []

namespace Report

/-- The places of the transactions that are pending. -/
def pending (r : Report) : List Nat := (r.fetched.filter fun p => p.2.isNull).map (·.1)

/-- Whether no fetch failed. -/
def ok (r : Report) : Bool := r.failures.isEmpty

end Report

/-- Something worth telling while receipts are fetched. -/
inductive Notice where
  /-- A fetch failed. -/
  | failed (place : Nat) (hash : Value) (message : Points)
  /-- A transaction is pending. -/
  | pending (place : Nat) (hash : Value)

/-- The words for a notice. -/
def Notice.message : Notice → Points
  | failed place hash message => s!"tx[{place}] " ++ hash.display ++ ": receipt fetch failed: " ++ message
  | pending place hash => s!"tx[{place}] " ++ hash.display ++ ": still pending"

/-- Why a record cannot be completed. -/
inductive Fault where
  /-- The record is no map. -/
  | recordNotMap (kind : String)
  /-- The transactions are neither a list nor anything else with members. -/
  | noMembers (kind : String)
  /-- Something failed that is no matter of one transaction. -/
  | broken (reason : String)
deriving DecidableEq, Repr

/-- The words for a fault. -/
def Fault.message : Fault → String
  | recordNotMap kind => s!"'{kind}' object has no attribute 'get'"
  | noMembers kind => s!"'{kind}' object is not iterable"
  | broken reason => reason

/-- The hash of a transaction, if it has one that is not empty. -/
def hash? (tx : Value) : Option Value :=
  (tx.field? "hash").filter Value.isTruthy

/-- Whether a receipt belongs to a hash. -/
def isFor (hash receipt : Value) : Bool :=
  match receipt.field? "transactionHash" with
  | some h => h.sameValue hash
  | none => false

/-- The list with `v` at a place, filled up with nulls if it was too short. -/
def store (receipts : List Value) (place : Nat) (v : Value) : List Value :=
  (receipts ++ List.replicate (place + 1 - receipts.length) Value.null).set place v

/-- How far a round has come. -/
structure Progress where
  /-- The receipts. -/
  receipts : List Value
  /-- What was fetched and what failed, latest first. -/
  report : Report := {}
  /-- What there is to tell, latest first. -/
  notices : List Notice := []

namespace Progress

/-- The progress after an answer. -/
def answered (p : Progress) (place : Nat) (hash v : Value) : Progress :=
  { receipts := store p.receipts place v
    report := { p.report with fetched := (place, v) :: p.report.fetched }
    notices := if v.isNull then .pending place hash :: p.notices else p.notices }

/-- The progress after a failed fetch. -/
def failed (p : Progress) (place : Nat) (hash : Value) (f : Rpc.Fault) : Progress :=
  { p with
    report := { p.report with failures := (place, f.message) :: p.report.failures }
    notices := .failed place hash f.message :: p.notices }

/-- The progress in the order of time. -/
def inOrder (p : Progress) : Progress :=
  { p with
    report := { fetched := p.report.fetched.reverse, failures := p.report.failures.reverse }
    notices := p.notices.reverse }

end Progress

variable {σ : Type}

/-- Goes through the transactions from a place on; stops early only if something breaks. -/
def fillFrom (fetch : Value → StateM σ Rpc.Outcome) :
    Nat → List Value → Progress → StateM σ (Progress × Option String)
  | _, [], p => pure (p, none)
  | place, tx :: more, p =>
    match hash? tx with
    | none => fillFrom fetch (place + 1) more p
    | some hash =>
      if p.receipts.any (isFor hash) then fillFrom fetch (place + 1) more p
      else do
        match ← fetch hash with
        | .answer v => fillFrom fetch (place + 1) more (p.answered place hash v)
        | .failed f => fillFrom fetch (place + 1) more (p.failed place hash f)
        | .broken reason => pure (p, some reason)

/-- The members of a value that is gone through from end to end; those of a text or map are no transactions. -/
def members : Value → Except Fault (List Value)
  | .list vs => .ok vs
  | .map es => .ok (es.map fun e => .scalar e.1)
  | .scalar (.text s) => .ok (s.toList.map fun c => .text (String.singleton c))
  | .scalar (.torn cs) => .ok (cs.map fun c => .scalar (.ofPoints [c]))
  | v => if v.isTruthy then .error (.noMembers v.kindName) else .ok []

/-- What became of a record in one round. -/
structure Round where
  /-- The record afterwards, whether or not the round was broken off. -/
  record : Value
  /-- What there is to tell, in order. -/
  notices : List Notice := []
  /-- What was fetched and what failed, or why the round was broken off. -/
  outcome : Except Fault Report

/-- The receipts of a record; anything but a list counts as none. -/
def receiptsOf (es : Entries) : List Value :=
  match Entries.field? "receipts" es with
  | some (.list rs) => rs
  | _ => []

/-- Completes a record as far as the fetches allow. -/
def backfill (record : Value) (fetch : Value → StateM σ Rpc.Outcome) : StateM σ Round := do
  match record with
  | .map es =>
    let rebuilt (receipts : List Value) : Value := .map (Entries.setField "receipts" (.list receipts) es)
    match members ((Entries.field? "transactions" es).getD .null) with
    | .error f => return { record := rebuilt (receiptsOf es), outcome := .error f }
    | .ok txs =>
      let (p, stopped) ← fillFrom fetch 0 txs { receipts := receiptsOf es }
      let p := p.inOrder
      let outcome : Except Fault Report :=
        match stopped with
        | some reason => .error (.broken reason)
        | none => .ok p.report
      return { record := rebuilt p.receipts, notices := p.notices, outcome }
  | v => return { record := v, outcome := .error (.recordNotMap v.kindName) }

end SolidityKit.Receipts
