/-
Asking a node.

A call posts a method and its parameters to a node and reads the answer.  What the network does with
a request is not decided here: a `Network` holds the replies that are still to come and the requests
that were made, so that a call is a function of what comes back.
-/
import SolidityKit.Rpc.Url
import SolidityKit.Json.Reader
import SolidityKit.Json.Printer

namespace SolidityKit.Rpc

/-- What comes back from the network. -/
inductive Reply where
  /-- A response with a status and a body. -/
  | response (status : Int) (body : Text)
  /-- The request failed on its way, for a reason. -/
  | undelivered (reason : String)
  /-- Something failed that is no matter of the request. -/
  | broken (reason : String)
deriving DecidableEq, Repr

/-- A request as it was posted. -/
structure Request where
  /-- The address. -/
  url : Points
  /-- The document. -/
  payload : Value
  /-- How many seconds to wait, as a text. -/
  timeout : Text

/-- The replies still to come and the requests made so far. -/
structure Network where
  /-- The replies still to come, next one first. -/
  replies : List Reply := []
  /-- The reply once there are no more. -/
  silence : Reply := .undelivered "no reply"
  /-- The requests, latest first. -/
  requests : List Request := []

/-- Posts a request and takes the next reply. -/
def post (r : Request) : StateM Network Reply := fun net =>
  match net.replies with
  | [] => (net.silence, { net with requests := r :: net.requests })
  | reply :: more => (reply, { net with replies := more, requests := r :: net.requests })

/-- Why a call has no answer. -/
inductive Fault where
  /-- The request did not get through. -/
  | undelivered (method reason : String)
  /-- The body of the response is no document. -/
  | malformed (method : String) (status : Int) (body : Text)
  /-- The body of the response is no map. -/
  | notMap (method : String)
  /-- The node refused, with a message and perhaps a code. -/
  | refused (message : Points) (code : Value)

/-- The words for a fault; of a body, the first two hundred characters are shown. -/
def Fault.message : Fault → Points
  | undelivered method reason => s!"{method} request failed: {reason}"
  | malformed method status body =>
    s!"{method}: malformed response (status={status}): {String.ofList (body.take 200)}"
  | notMap method => s!"{method}: malformed response: expected an object"
  | refused message _ => message

/-- The code that the node gave. -/
def Fault.code : Fault → Value
  | refused _ code => code
  | _ => .null

/-- How a call ends. -/
inductive Outcome where
  /-- An answer; null while there is none yet. -/
  | answer (v : Value)
  /-- The call failed. -/
  | failed (f : Fault)
  /-- Something else failed. -/
  | broken (reason : String)

/-- A node and how long to wait for it. -/
structure Client where
  /-- The address, in normal form. -/
  url : Points
  /-- How many seconds to wait, as a text. -/
  timeout : Text

/-- A client of the node at an address. -/
def Client.ofAddress (address : Points) (timeout : Text) : Except Url.Fault Client :=
  (Url.normalize address).map fun url => { url, timeout }

/-- The refusal that an error member describes. -/
def refusal : Value → Fault
  | .map es =>
    let message := (Entries.field? "message" es).getD .null
    let code := (Entries.field? "code" es).getD .null
    .refused (if message.isTruthy then message.display else Value.display (.map es)) code
  | v => .refused v.display .null

/-- What a response means. -/
def readResponse (method : String) (status : Int) (body : Text) : Outcome :=
  match Json.read body with
  | .error _ => .failed (.malformed method status body)
  | .ok (.map es) =>
    let error := (Entries.field? "error" es).getD .null
    if error.isTruthy then .failed (refusal error) else .answer ((Entries.field? "result" es).getD .null)
  | .ok _ => .failed (.notMap method)

/-- The document that is posted for a call. -/
def payload (method : String) (params : Value) : Value :=
  .map [(.text "jsonrpc", .text "2.0"), (.text "method", .text method), (.text "params", params),
    (.text "id", .int 1)]

/-- Calls a method. -/
def Client.call (c : Client) (method : String) (params : Value) : StateM Network Outcome := do
  match ← post { url := c.url, payload := payload method params, timeout := c.timeout } with
  | .undelivered reason => return .failed (.undelivered method reason)
  | .broken reason => return .broken reason
  | .response status body => return readResponse method status body

/-- The method that asks for the receipt of a transaction. -/
def receiptMethod : String := "eth_getTransactionReceipt"

/-- Asks for the receipt of a transaction. -/
def Client.receipt (c : Client) (hash : Value) : StateM Network Outcome := c.call receiptMethod (.list [hash])

end SolidityKit.Rpc
