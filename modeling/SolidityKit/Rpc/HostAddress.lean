/-
Numeric host addresses.

A host may be given as a number in brackets.  Addresses of version 6 are groups of up to four
hexadecimal digits between colons; a run of zero groups may be left out once, and the last two groups
may be written as an address of version 4, which is four decimal numbers between points.  Future
versions are announced by the letter `v`.
-/
import SolidityKit.Text.Lines
import SolidityKit.Text.Quoted

namespace SolidityKit.HostAddress

/-- Why a host in brackets was refused. -/
inductive Fault where
  /-- Something stands before the brackets, or something other than a port after them. -/
  | misplacedBracket
  /-- The text is no address of a future version. -/
  | badFuture
  /-- An address of version 4, which takes no brackets. -/
  | version4
  /-- The text is no address. -/
  | noAddress (host : Points)
deriving DecidableEq, Repr

/-- The words for a fault. -/
def Fault.message : Fault → String
  | misplacedBracket => "Invalid IPv6 URL"
  | badFuture => "IPvFuture address is invalid"
  | version4 => "An IPv4 address cannot be in brackets"
  | noAddress host => s!"{host.inQuotes} does not appear to be an IPv4 or IPv6 address"

/-- Whether the character is a decimal digit of ASCII. -/
def isDigit (c : CodePoint) : Bool := c.isChar fun c => '0' ≤ c && c ≤ '9'

/-- Whether the character is a hexadecimal digit of ASCII. -/
def isHexDigit (c : CodePoint) : Bool :=
  isDigit c || c.isChar fun c => ('a' ≤ c && c ≤ 'f') || ('A' ≤ c && c ≤ 'F')

/-- Whether the text is a number up to 255 without zeros in front. -/
def isOctet (t : Points) : Bool :=
  t.all isDigit && (t == [.char '0'] || (!t.isEmpty && t.head? != some (.char '0')))
    && t.length ≤ 3 && t.foldl (fun n c => 10 * n + (c.number - 0x30)) 0 ≤ 255

/-- Whether the text is an address of version 4. -/
def isVersion4 (t : Points) : Bool :=
  let octets := Text.splitAt (.char '.') t
  octets.length == 4 && octets.all isOctet

/-- Whether the text is a group of an address of version 6. -/
def isGroup (t : Points) : Bool := !t.isEmpty && t.length ≤ 4 && t.all isHexDigit

/-- The groups between colons, with an address of version 4 at the end replaced by two groups. -/
def groups? (t : Points) : Option (List Points) :=
  let parts := Text.splitAt (.char ':') t
  if parts.length < 3 then none
  else
    let last := parts.getLastD []
    if last.contains (.char '.') then
      if isVersion4 last then some (parts.dropLast ++ [[.char '0'], [.char '0']]) else none
    else some parts

/-- Whether groups with a run left out after `high` of them are an address; the run holds one group at least. -/
def isShortened (parts : List Points) (gap : Nat) : Bool :=
  let high := parts.take gap
  let low := parts.drop (gap + 1)
  -- an empty group at either end is allowed only next to the gap
  let high := if high.head? == some [] then high.drop 1 ++ (if high.length == 1 then [] else [[]]) else high
  let low := if low.getLast? == some [] then low.dropLast ++ (if low.length == 1 then [] else [[]]) else low
  high.length + low.length < 8 && high.all isGroup && low.all isGroup

/-- Whether the text is an address of version 6 without a zone. -/
def isGroups (t : Points) : Bool :=
  match groups? t with
  | none => false
  | some parts =>
    let inner := (parts.drop 1).dropLast
    if 9 < parts.length then false
    else
      match inner.idxOf? [] with
      | none => parts.length == 8 && parts.all isGroup
      | some i => inner.count [] == 1 && isShortened parts (i + 1)

/-- Whether the text is an address of version 6, perhaps with a zone after a per cent sign. -/
def isVersion6 (t : Points) : Bool :=
  match Text.cut? (.char '%') t with
  | none => isGroups t
  | some (address, zone) => isGroups address && !zone.isEmpty && !zone.contains (.char '%')

/-- Whether the text is an address of a future version. -/
def isFuture (t : Points) : Bool :=
  let digits := (t.drop 1).takeWhile isHexDigit
  let rest := t.drop (1 + digits.length)
  !digits.isEmpty && rest.head? == some (.char '.') && 1 < rest.length

/-- Checks what stands between the brackets. -/
def checkBracketed (t : Points) : Except Fault Unit :=
  if t.head? = some (.char 'v') then if isFuture t then .ok () else .error .badFuture
  else if isVersion4 t then .error .version4
  else if isVersion6 t && !t.contains (.char '/') then .ok ()
  else .error (.noAddress t)

/-- What stands after the last at sign. -/
def afterUser (host : Points) : Points := (host.reverse.takeWhile (· != .char '@')).reverse

/-- Checks a host that holds brackets. -/
def check (host : Points) : Except Fault Unit :=
  let (before, bracketed) := (Text.cut? (.char '[') (afterUser host)).getD (afterUser host, [])
  if (afterUser host).contains (.char '[') then
    let (address, after) := (Text.cut? (.char ']') bracketed).getD (bracketed, [])
    if !before.isEmpty || (!after.isEmpty && after.head? != some (.char ':')) then .error .misplacedBracket
    else checkBracketed address
  else checkBracketed ((Text.cut? (.char ':') before).getD (before, [])).1

end SolidityKit.HostAddress
