/-
The nodes of a configuration document.

A node is a scalar, a list or a map, with the kind of value that it is to be read as.  Names given
to nodes are resolved here, and so are the entries that one map takes over from another: these come
before the map's own entries, so that the map's own values win.

The readers recurse on an amount of tokens that is left at most; every step takes at least one.
-/
import SolidityKit.Yaml.PlainKind
import SolidityKit.Yaml.Token

namespace SolidityKit.Yaml

/-- A part of a document. -/
inductive Node where
  /-- A scalar. -/
  | scalar (kind : Kind) (points : List CodePoint)
  /-- A list. -/
  | list (kind : Kind) (items : List Node)
  /-- A map, and whether what it takes over could be taken over. -/
  | map (kind : Kind) (entries : List (Node × Node)) (complete : Bool)

namespace Node

/-- What stands where nothing is written. -/
def empty : Node := scalar .null []

/-- The kind of a node. -/
def kind : Node → Kind
  | scalar k _ | list k _ | map k _ _ => k

/-- The entries that a node offers to be taken over. -/
def offered? : Node → Option (List (Node × Node))
  | map _ es true => some es
  | _ => none

/-- The entries that are taken over for a value: those of a map, or of several with the last one first. -/
def takenOver? : Node → Option (List (Node × Node))
  | list _ items => (items.reverse.mapM offered?).map (·.flatten)
  | n => n.offered?

/-- A key; the sign for a default value is a text when it is a key. -/
def asKey : Node → Node
  | scalar .default points => scalar .text points
  | n => n

/-- The map with these entries, after what it takes over. -/
def ofEntries (k : Kind) (es : List (Node × Node)) : Node :=
  let own := (es.filter fun e => e.1.kind ≠ .merge).map fun e => (e.1.asKey, e.2)
  match (es.filter fun e => e.1.kind = .merge).mapM fun e => e.2.takenOver? with
  | some taken => map k (taken.flatten ++ own) true
  | none => map k own false

end Node

/-- What is left to read, and the names known so far. -/
structure Remaining where
  /-- The tokens. -/
  tokens : List Token
  /-- What is wrong after them, if anything. -/
  fault : Option Fault
  /-- The abbreviations for tags. -/
  abbreviations : List (Text × Text)
  /-- The named nodes. -/
  anchors : List (Text × Node)

/-- A reader of tokens. -/
abbrev Reader := StateT Remaining (Except Fault)

namespace Reader

/-- The next token, if there is one. -/
def peek? : Reader (Option Token) := do
  let r ← get
  match r.tokens, r.fault with
  | t :: _, _ => return some t
  | [], some f => throw f
  | [], none => return none

/-- Passes over the next token. -/
def skip : Reader Unit := modify fun r => { r with tokens := r.tokens.tail }

/-- Whether the next token is one of these. -/
def isNext (ts : List Token) : Reader Bool := do return (← peek?).any ts.contains

/-- Passes over the next token if it is the given one, and says whether it was. -/
def accept (t : Token) : Reader Bool := do
  let here ← isNext [t]
  if here then skip
  return here

/-- Any document is malformed here. -/
def refuse {α : Type} : Reader α := throw .malformed

/-! ### Names and tags -/

/-- The node of a name; a name inside the very node that it names stands for nothing. -/
def named (name : Text) : Reader Node := do
  match (← get).anchors.lookup name with
  | some n => return n
  | none => refuse

/-- Checks that a name is new. -/
def checkNew (name : Option Text) : Reader Unit := do
  if let some name := name then
    if ((← get).anchors.lookup name).isSome then refuse

/-- Gives a name to a node. -/
def giveName (name : Option Text) (n : Node) : Reader Unit := do
  if let some name := name then modify fun r => { r with anchors := (name, n) :: r.anchors }

/-- A tag in full. -/
def fullTag (handle : Option Text) (suffix : Text) : Reader Text := do
  match handle with
  | none => return suffix
  | some h =>
    match (← get).abbreviations.lookup h with
    | some replacement => return replacement ++ suffix
    | none => refuse

/-- The tag, if the next token is one. -/
def tag? : Reader (Option Text) := do
  match ← peek? with
  | some (.tag handle suffix) => skip; return some (← fullTag handle suffix)
  | _ => return none

/-- The name, if the next token gives one. -/
def anchor? : Reader (Option Text) := do
  match ← peek? with
  | some (.anchor name) => skip; return some name
  | _ => return none

/-- The name and the tag before a node, in either order. -/
def properties : Reader (Option Text × Option Text) := do
  match ← anchor? with
  | some name => return (some name, ← tag?)
  | none =>
    match ← tag? with
    | some tag => return (← anchor?, some tag)
    | none => return (none, none)

/-! ### Nodes -/

/-- Where a node stands. -/
inductive Position where
  /-- Inside brackets. -/
  | inBrackets
  /-- In a block. -/
  | inBlock
  /-- In a block of keys, whose items need not be indented. -/
  | underKey
deriving DecidableEq

/-- The kind of a scalar: a tag decides, or else the text of a plain one. -/
def scalarKind (tag : Option Text) (isPlain : Bool) (points : List CodePoint) : Kind :=
  match tag with
  | some ['!'] => Kind.ofPlain points
  | some tag => Kind.ofTag tag
  | none => if isPlain then Kind.ofPlain points else .text

/-- The kind of a list or a map: a tag decides, or else the form. -/
def collectionKind (tag : Option Text) (form : Kind) : Kind :=
  match tag with
  | none | some ['!'] => form
  | some tag => Kind.ofTag tag

mutual

/-- Reads a node. -/
def node (position : Position) : (fuel : Nat) → Reader Node
  | 0 => refuse
  | fuel + 1 => do
    if let some (.alias name) ← peek? then
      skip
      return ← named name
    let (anchor, tag) ← properties
    let collection (form : Kind) (content : Reader Node) : Reader Node := do
      checkNew anchor
      giveName anchor .empty
      let n ← content
      let n : Node :=
        match n with
        | .list _ items => .list (collectionKind tag form) items
        | .map _ es complete => .map (collectionKind tag form) es complete
        | n => n
      giveName anchor n
      return n
    let leaf (isPlain : Bool) (points : List CodePoint) : Reader Node := do
      checkNew anchor
      let n := Node.scalar (scalarKind tag isPlain points) points
      giveName anchor n
      return n
    match ← peek? with
    | some (.scalar points isPlain) => skip; leaf isPlain points
    | some .openList => skip; collection .list do return .list .list (← listItems true fuel)
    | some .openMap => skip; collection .map do return .ofEntries .map (← mapEntries true fuel)
    | some .openItems =>
      if position = .inBrackets then refuse
      skip
      collection .list do return .list .list (← blockItems fuel)
    | some .openKeys =>
      if position = .inBrackets then refuse
      skip
      collection .map do return .ofEntries .map (← blockEntries fuel)
    | next =>
      if position = .underKey && next = some .item then
        collection .list do return .list .list (← looseItems fuel)
      else if anchor.isSome || tag.isSome then leaf true []
      else refuse

/-- Reads a node, or nothing where one of the given tokens comes next. -/
def nodeUnless (stops : List Token) (position : Position) : (fuel : Nat) → Reader Node
  | 0 => refuse
  | fuel + 1 => do
    if ← isNext stops then return .empty
    node position fuel

/-- Reads the value of a key, if a colon comes next. -/
def valueUnless (stops : List Token) (position : Position) : (fuel : Nat) → Reader Node
  | 0 => refuse
  | fuel + 1 => do
    if ← accept .value then nodeUnless stops position fuel
    else return .empty

/-- Reads the items of a block. -/
def blockItems : (fuel : Nat) → Reader (List Node)
  | 0 => refuse
  | fuel + 1 => do
    if ← accept .item then
      let n ← nodeUnless [.item, .closeBlock] .inBlock fuel
      return n :: (← blockItems fuel)
    if ← accept .closeBlock then return []
    refuse

/-- Reads items that are not indented below their key. -/
def looseItems : (fuel : Nat) → Reader (List Node)
  | 0 => refuse
  | fuel + 1 => do
    if ← accept .item then
      let n ← nodeUnless [.item, .key, .value, .closeBlock] .inBlock fuel
      return n :: (← looseItems fuel)
    return []

/-- Reads the entries of a block. -/
def blockEntries : (fuel : Nat) → Reader (List (Node × Node))
  | 0 => refuse
  | fuel + 1 => do
    if ← accept .key then
      let k ← nodeUnless [.key, .value, .closeBlock] .underKey fuel
      let v ← valueUnless [.key, .value, .closeBlock] .underKey fuel
      return (k, v) :: (← blockEntries fuel)
    if ← accept .closeBlock then return []
    refuse

/-- Reads the items of a list in brackets; an item may be a single entry of a map. -/
def listItems (first : Bool) : (fuel : Nat) → Reader (List Node)
  | 0 => refuse
  | fuel + 1 => do
    if ← accept .closeList then return []
    if !first then
      if !(← accept .comma) then refuse
      if ← accept .closeList then return []
    if ← accept .key then
      let k ← nodeUnless [.value, .comma, .closeList] .inBrackets fuel
      let v ← valueUnless [.comma, .closeList] .inBrackets fuel
      return .ofEntries .map [(k, v)] :: (← listItems false fuel)
    let n ← node .inBrackets fuel
    return n :: (← listItems false fuel)

/-- Reads the entries of a map in braces; a key may stand alone. -/
def mapEntries (first : Bool) : (fuel : Nat) → Reader (List (Node × Node))
  | 0 => refuse
  | fuel + 1 => do
    if ← accept .closeMap then return []
    if !first then
      if !(← accept .comma) then refuse
      if ← accept .closeMap then return []
    if ← accept .key then
      let k ← nodeUnless [.value, .comma, .closeMap] .inBrackets fuel
      let v ← valueUnless [.comma, .closeMap] .inBrackets fuel
      return (k, v) :: (← mapEntries false fuel)
    let k ← node .inBrackets fuel
    return (k, .empty) :: (← mapEntries false fuel)

end

/-! ### Documents -/

/-- The abbreviations that every document has. -/
def standardAbbreviations : List (Text × Text) := [(['!'], ['!']), (['!', '!'], Kind.tagStart)]

/-- Reads the directives of a document. -/
def directives : (fuel : Nat) → (versionSeen : Bool) → Reader Unit
  | 0, _ => refuse
  | fuel + 1, versionSeen => do
    match ← peek? with
    | some (.directive d) =>
      skip
      match d with
      | .version major =>
        if versionSeen || major ≠ ['1'] then refuse
        directives fuel true
      | .abbreviation handle replacement =>
        if ((← get).abbreviations.lookup handle).isSome then refuse
        modify fun r => { r with abbreviations := (handle, replacement) :: r.abbreviations }
        directives fuel versionSeen
      | .other => directives fuel versionSeen
    | _ => return

/-- Passes over lines that end documents. -/
def documentEnds : (fuel : Nat) → Reader Unit
  | 0 => return
  | fuel + 1 => do if ← accept .documentEnd then documentEnds fuel

/-- Whether a document has no content. -/
def isContentMissing : Reader Bool := do
  match ← peek? with
  | none | some (.directive _) | some .documentStart | some .documentEnd => return true
  | _ => return false

/-- Reads the one document of a text, if there is one. -/
def document (fuel : Nat) : Reader (Option Node) := do
  let explicit ←
    match ← peek? with
    | none => return none
    | some (.directive _) | some .documentStart => pure true
    | _ => pure false
  if explicit then
    directives fuel false
    if !(← accept .documentStart) then refuse
  modify fun r => { r with abbreviations := r.abbreviations ++ standardAbbreviations }
  let n ← if explicit && (← isContentMissing) then pure Node.empty else node .inBlock fuel
  documentEnds fuel
  if (← peek?).isSome then refuse
  return n

end Reader

/-- The one document of a text, if there is one. -/
def Node.ofTokens (ts : Tokens) : Except Fault (Option Node) :=
  let fuel := 4 * ts.list.length + 4
  (Reader.document fuel).run' ⟨ts.list, ts.fault, [], []⟩

end SolidityKit.Yaml
