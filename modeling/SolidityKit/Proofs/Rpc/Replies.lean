/-
What a reply to a call means.

A call posts one request and takes one reply, so that the outcome of a call is a function of the reply
(`runIn_call`), and a network that is asked again and again gives its replies in order.

`answers_iff` says which replies are taken for answers: those with a map for a body and an error that counts as
false.  That is more than what a node says when it answers.  A real answer (`RealAnswer`) has a status of
success, a result, and no error or a null one; a failed response may have a map for a body as well, one that
has no result.  The replies that are both or neither are the candid ones (`candid_iff`).
-/
import SolidityKit.Rpc.Client

namespace SolidityKit.Rpc

/-! ### Posting -/

namespace Network

/-- The reply that comes after so many others. -/
def reply (net : Network) (n : Nat) : Reply := (net.replies[n]?).getD net.silence

/-- The network after a request. -/
def posted (net : Network) (r : Request) : Network :=
  { net with replies := net.replies.tail, requests := r :: net.requests }

theorem reply_posted (net : Network) (r : Request) (n : Nat) : (net.posted r).reply n = net.reply (n + 1) := by
  unfold reply posted
  rw [List.getElem?_tail]

/-- No reply breaks anything off. -/
def Steady (net : Network) : Prop := ∀ n reason, net.reply n ≠ .broken reason

theorem Steady.posted {net : Network} (h : net.Steady) (r : Request) : (net.posted r).Steady := by
  intro n reason
  rw [reply_posted]
  exact h (n + 1) reason

end Network

theorem post_eq (r : Request) (net : Network) : post r net = (net.reply 0, net.posted r) := by
  unfold post
  cases hreplies : net.replies with
  | nil => simp [Network.reply, Network.posted, hreplies]
  | cons reply more => simp [Network.reply, Network.posted, hreplies]

/-- What a reply means for the call of a method. -/
def outcomeOf (method : String) : Reply → Outcome
  | .undelivered reason => .failed (.undelivered method reason)
  | .broken reason => .broken reason
  | .response status body => readResponse method status body

/-- The request for a receipt. -/
def Client.receiptRequest (c : Client) (hash : Value) : Request :=
  { url := c.url, payload := payload receiptMethod (.list [hash]), timeout := c.timeout }

theorem receipt_eq (c : Client) (hash : Value) (net : Network) :
    c.receipt hash net = (outcomeOf receiptMethod (net.reply 0), net.posted (c.receiptRequest hash)) := by
  have hcall : c.receipt hash net = (do
      match ← post (c.receiptRequest hash) with
      | .undelivered reason => return .failed (.undelivered receiptMethod reason)
      | .broken reason => return .broken reason
      | .response status body =>
          return readResponse receiptMethod status body : StateM Network Outcome) net := rfl
  rw [hcall]
  show (match (post (c.receiptRequest hash) net).1 with
    | .undelivered reason => (pure (.failed (.undelivered receiptMethod reason)) : StateM Network Outcome)
    | .broken reason => pure (.broken reason)
    | .response status body =>
        pure (readResponse receiptMethod status body)) (post (c.receiptRequest hash) net).2 = _
  rw [post_eq]
  cases net.reply 0 <;> rfl

/-! ### Which replies are answers -/

/-- The error member of a body, where a missing one is null. -/
def errorOf (es : Entries) : Value := (Entries.field? "error" es).getD .null

theorem readResponse_map {method : String} {status : Int} {body : Text} {es : Entries}
    (hbody : Json.read body = .ok (.map es)) :
    readResponse method status body =
      if (errorOf es).isTruthy then .failed (refusal (errorOf es))
      else .answer ((Entries.field? "result" es).getD .null) := by
  unfold readResponse
  rw [hbody]
  rfl

/-- A reply that is taken for an answer: its body is a map, whose error counts as false. -/
inductive Answers : Reply → Value → Prop
  /-- The result is the answer, or null if there is none. -/
  | intro {status : Int} {body : Text} {es : Entries} (hbody : Json.read body = .ok (.map es))
      (herror : (errorOf es).isTruthy = false) :
      Answers (.response status body) ((Entries.field? "result" es).getD .null)

theorem answers_iff {method : String} {r : Reply} {v : Value} :
    outcomeOf method r = .answer v ↔ Answers r v := by
  constructor
  · intro h
    cases r with
    | undelivered reason => cases h
    | broken reason => cases h
    | response status body =>
        have hread : readResponse method status body = .answer v := h
        cases hbody : Json.read body with
        | error f =>
            unfold readResponse at hread
            rw [hbody] at hread
            cases hread
        | ok doc =>
            cases doc with
            | scalar s =>
                unfold readResponse at hread
                rw [hbody] at hread
                cases hread
            | list vs =>
                unfold readResponse at hread
                rw [hbody] at hread
                cases hread
            | map es =>
                rw [readResponse_map hbody] at hread
                by_cases herror : (errorOf es).isTruthy = true
                · rw [if_pos herror] at hread
                  cases hread
                · rw [if_neg herror] at hread
                  cases hread
                  exact .intro hbody (by simpa using herror)
  · rintro ⟨hbody, herror⟩
    show readResponse method _ _ = _
    rw [readResponse_map hbody, herror]
    rfl

/-- A call breaks off only if its reply does. -/
theorem eq_broken_of_outcomeOf {method reason : String} {r : Reply} (h : outcomeOf method r = .broken reason) :
    r = .broken reason := by
  cases r with
  | undelivered reason' => cases h
  | broken reason' =>
      cases h
      rfl
  | response status body =>
      have hread : readResponse method status body = .broken reason := h
      unfold readResponse at hread
      split at hread
      · cases hread
      · dsimp only at hread
        split at hread <;> cases hread
      · cases hread

/-- What a node says when it answers: a status of success and a map with a result and without an error. -/
inductive RealAnswer : Reply → Value → Prop
  /-- The answer is the result. -/
  | intro {status : Int} {body : Text} {es : Entries} {v : Value} (hstatus : 200 ≤ status ∧ status < 300)
      (hbody : Json.read body = .ok (.map es)) (hresult : Entries.field? "result" es = some v)
      (herror : Entries.field? "error" es = none ∨ Entries.field? "error" es = some .null) :
      RealAnswer (.response status body) v

theorem RealAnswer.answers {r : Reply} {v : Value} (h : RealAnswer r v) : Answers r v := by
  cases h with
  | @intro status body es v _ hbody hresult herror =>
      have hfalse : (errorOf es).isTruthy = false := by
        unfold errorOf
        rcases herror with herror | herror <;> rw [herror] <;> rfl
      have hanswers : Answers (.response status body) ((Entries.field? "result" es).getD .null) :=
        .intro hbody hfalse
      rwa [hresult] at hanswers

/-- A reply that is no answer does not look like one. -/
def Reply.Candid : Reply → Prop
  | .response status body => ∀ es, Json.read body = .ok (.map es) → (errorOf es).isTruthy = false →
      (200 ≤ status ∧ status < 300) ∧ (Entries.field? "result" es).isSome ∧
        (Entries.field? "error" es = none ∨ Entries.field? "error" es = some .null)
  | _ => True

/-- Candid replies are those that are taken for answers only if they are. -/
theorem candid_iff {r : Reply} : r.Candid ↔ ∀ v, Answers r v → RealAnswer r v := by
  constructor
  · rintro hcandid v ⟨hbody, herror⟩
    obtain ⟨hstatus, hresult, hnone⟩ := hcandid _ hbody herror
    obtain ⟨v, hv⟩ := Option.isSome_iff_exists.mp hresult
    rw [hv]
    exact .intro hstatus hbody hv hnone
  · intro h
    cases r with
    | undelivered reason => trivial
    | broken reason => trivial
    | response status body =>
        intro es hbody herror
        have hreal := h _ (.intro hbody herror)
        generalize (Entries.field? "result" es).getD .null = v at hreal
        cases hreal with
        | intro hstatus hbody' hresult hnone =>
            cases hbody.symm.trans hbody'
            exact ⟨hstatus, by rw [hresult]; rfl, hnone⟩

end SolidityKit.Rpc
