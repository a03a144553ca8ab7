/-
Addresses of nodes.

An address may be given as host and path alone, in which case it is reached over `https`.  The
normal form has a host, a path that ends in a slash and no fragment.  `Url.split` cuts an address into
its parts; `Url.text` puts the parts together again.
-/
import SolidityKit.Rpc.HostAddress

namespace SolidityKit

/-- The parts of an address. -/
structure Url where
  /-- What stands before the first colon, in small letters; empty if there is none. -/
  scheme : Points
  /-- The host, with what belongs to it; empty if there is none. -/
  host : Points
  /-- The path. -/
  path : Points
  /-- What stands after the first question mark. -/
  query : Points
  /-- What stands after the first number sign. -/
  fragment : Points
deriving DecidableEq, Repr

namespace Url

/-- Why an address was refused. -/
inductive Fault where
  /-- There is no address. -/
  | empty
  /-- There is no host; the address is the one that was given. -/
  | noHost (address : Points)
  /-- A bracket without its partner in the host. -/
  | unpairedBracket
  /-- What stands in brackets is no address of a host. -/
  | badAddress (f : HostAddress.Fault)
  /-- A character of the host stands for one that separates the parts of an address. -/
  | hiddenSeparator (host : Points)
deriving DecidableEq, Repr

/-- The words for a fault. -/
def Fault.message : Fault → Points
  | empty => "RPC url is empty"
  | noHost address => s!"invalid RPC url: {address.inQuotes}"
  | unpairedBracket => "Invalid IPv6 URL"
  | badAddress f => f.message
  | hiddenSeparator host =>
    "netloc '" ++ host ++ "' contains invalid characters under NFKC normalization"

/-- Whether the character is a letter of ASCII. -/
def isLetter (c : CodePoint) : Bool := c.isChar fun c => ('a' ≤ c && c ≤ 'z') || ('A' ≤ c && c ≤ 'Z')

/-- Whether the character may stand in a scheme. -/
def isSchemeChar (c : CodePoint) : Bool :=
  isLetter c || c.isChar fun c => ('0' ≤ c && c ≤ '9') || c == '+' || c == '-' || c == '.'

/-- Cuts the scheme off, if what stands before the first colon is one. -/
def splitScheme (t : Points) : Points × Points :=
  match Text.cut? (.char ':') t with
  | some (c :: more, rest) =>
    if isLetter c && more.all isSchemeChar then ((c :: more).map CodePoint.toLower, rest) else ([], t)
  | _ => ([], t)

/-- Whether the character ends the host. -/
def endsHost (c : CodePoint) : Bool := c == .char '/' || c == .char '?' || c == .char '#'

/-- Cuts the host off, if two slashes come first. -/
def splitHost : Points → Points × Points
  | .char '/' :: .char '/' :: rest => (rest.takeWhile fun c => !endsHost c, rest.dropWhile fun c => !endsHost c)
  | t => ([], t)

/-- Cuts at the first `sep`, or gives the whole text and nothing. -/
def splitOff (sep : CodePoint) (t : Points) : Points × Points := (Text.cut? sep t).getD (t, [])

/-- The characters outside ASCII that stand for one of the characters that separate parts. -/
def hiddenSeparators : List Nat :=
  [0x2047, 0x2048, 0x2049, 0x2100, 0x2101, 0x2105, 0x2106, 0x2A74, 0xFE13, 0xFE16, 0xFE55, 0xFE56,
    0xFE5F, 0xFE6B,
   0xFF03, 0xFF0F, 0xFF1A, 0xFF1F, 0xFF20]

/-- Whether the character is a control character or a space, neither of which starts an address. -/
def isIdle (c : CodePoint) : Bool := c.number ≤ 0x20

/-- Checks the host of an address. -/
def checkHost (host : Points) : Except Fault Unit := do
  if host.contains (.char '[') != host.contains (.char ']') then throw .unpairedBracket
  if host.contains (.char '[') then (HostAddress.check host).mapError .badAddress
  if host.any fun c => hiddenSeparators.contains c.number then throw (.hiddenSeparator host)

/-- Cuts an address into its parts. -/
def split (address : Points) : Except Fault Url := do
  let t := (address.dropWhile isIdle).filter fun c => c != .char '\t' && c != .char '\r' && c != .char '\n'
  let (scheme, t) := splitScheme t
  let (host, t) := splitHost t
  let (t, fragment) := splitOff (.char '#') t
  let (path, query) := splitOff (.char '?') t
  checkHost host
  return { scheme, host, path, query, fragment }

/-- Puts the parts of an address together. -/
def text (u : Url) : Points :=
  let path := if u.host.isEmpty || u.path.isEmpty || u.path.head? == some (.char '/') then u.path
    else .char '/' :: u.path
  (if u.scheme.isEmpty then [] else u.scheme ++ [.char ':'])
    ++ (if u.host.isEmpty then [] else .char '/' :: .char '/' :: u.host)
    ++ path
    ++ (if u.query.isEmpty then [] else .char '?' :: u.query)
    ++ (if u.fragment.isEmpty then [] else .char '#' :: u.fragment)

/-- The address in normal form. -/
def normalize (address : Points) : Except Fault Points := do
  let raw := Text.trim address
  if raw.isEmpty then throw .empty
  let u ← split (if Text.containsText ("://" : Points) raw then raw else "https://" ++ raw)
  if u.host.isEmpty then throw (.noHost address)
  let path := if u.path.getLast? = some (.char '/') then u.path else u.path ++ [.char '/']
  return text { u with path, fragment := [] }

end Url

end SolidityKit
