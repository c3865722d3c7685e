import TreeEdit.Yaml.Token

/-!
# Nodes of YAML documents

Tokens are put together to nodes by a grammar that both dialects share, but for a few places: the
plain dialect lets a value stand without any key before it, lets a document follow the end mark of
another without a start mark, and heeds the last directive only. A node is kept as it was written,
with its anchor and its tag; what it stands for is decided when a document is made of it.
-/

namespace TreeEdit.Yaml

/-- What may stand before a node. The handle of the tag is replaced by the text it stands for. -/
structure Properties where
  anchor : Option (List Char)
  tag : Option TagText
  deriving DecidableEq

namespace Properties

/-- No anchor and no tag. -/
def none : Properties := ⟨.none, .none⟩

end Properties

/-- A node. -/
inductive Node where
  | alias (name : List Char)
  | scalar (properties : Properties) (plain : Bool) (text : List Char)
  | sequence (properties : Properties) (items : List Node)
  | mapping (properties : Properties) (entries : List (Node × Node))
  deriving Inhabited

namespace Node

/-- The node that is meant where none is written. -/
def empty : Node := .scalar .none true []

/-! ## Properties -/

/-- The texts that tag handles stand for, by directives. -/
abbrev Handles := List TagText

/-- The text that the handle of the core tags stands for. -/
def coreTags : List Char := "tag:yaml.org,2002:".toList

/-- A tag with the text that its handle stands for; the handle must be known. -/
def resolve? (d : Dialect) (handles : Handles) (tag : TagText) : Option TagText :=
  match handles.find? (·.handle = tag.handle) with
  | some h => some ⟨h.suffix, tag.suffix, h.legible && tag.legible⟩
  | none =>
    if tag.handle = ['!', '!'] then some { tag with handle := coreTags }
    else if tag.handle = [] || tag.handle = ['!'] then some tag
    else if d = .plain && tag.handle.getLast? ≠ some '!' then some tag
    else none

/-- The properties before a node, the anchor and the tag in either order. -/
def properties? (d : Dialect) (handles : Handles) :
    List Token → Option (Properties × List Token)
  | .anchor name :: .tag tag :: ts | .tag tag :: .anchor name :: ts => do
    let tag ← resolve? d handles tag
    return (⟨some name, some tag⟩, ts)
  | .anchor name :: ts => some (⟨some name, .none⟩, ts)
  | .tag tag :: ts => do
    let tag ← resolve? d handles tag
    return (⟨.none, some tag⟩, ts)
  | ts => some (.none, ts)

/-! ## Nodes -/

/-- Whether no node stands between a mark in a block and the next token. -/
def endsBlockNode : Token → Bool
  | .key | .value | .blockEnd => true
  | _ => false

/-- Whether no node stands between a mark in a flow collection and the next token. -/
def endsFlowNode : Token → Bool
  | .flowEntry | .flowSequenceEnd | .flowMappingEnd => true
  | _ => false

mutual

/--
The node that some tokens begin with. `block` allows a collection in block style, and `indentless`
a sequence whose dashes are not indented.
-/
def read? (d : Dialect) (handles : Handles) (block indentless : Bool) :
    (fuel : Nat) → List Token → Option (Node × List Token)
  | 0, _ => none
  | _ + 1, .alias name :: ts => some (.alias name, ts)
  | fuel + 1, ts => do
    let (props, ts) ← properties? d handles ts
    match ts, block, indentless with
    | .scalar plain text :: ts, _, _ => return (.scalar props plain text, ts)
    | .flowSequenceStart :: ts, _, _ =>
      let (items, ts) ← flowItems? d handles true fuel ts
      return (.sequence props items, ts)
    | .flowMappingStart :: ts, _, _ =>
      let (entries, ts) ← flowEntries? d handles true fuel ts
      return (.mapping props entries, ts)
    | .blockEntry :: _, _, true =>
      let (items, ts) ← dashItems? d handles fuel ts
      return (.sequence props items, ts)
    | .blockSequenceStart :: ts, true, _ =>
      let (items, ts) ← blockItems? d handles fuel ts
      return (.sequence props items, ts)
    | .blockMappingStart :: ts, true, _ =>
      let (entries, ts) ← blockEntries? d handles fuel ts
      return (.mapping props entries, ts)
    | _, _, _ => if props = .none then failure else return (.scalar props true [], ts)

/-- A node, or the empty one where a token follows that begins none. -/
def readOrEmpty? (d : Dialect) (handles : Handles) (ends : Token → Bool)
    (block indentless : Bool) : (fuel : Nat) → List Token → Option (Node × List Token)
  | 0, _ => none
  | fuel + 1, ts =>
    if ts.head?.any ends then some (empty, ts) else read? d handles block indentless fuel ts

/-- The items of a sequence in block style, up to its end. -/
def blockItems? (d : Dialect) (handles : Handles) :
    (fuel : Nat) → List Token → Option (List Node × List Token)
  | 0, _ => none
  | _ + 1, .blockEnd :: ts => some ([], ts)
  | fuel + 1, .blockEntry :: ts => do
    let ends t := t = .blockEntry || t = .blockEnd
    let (item, ts) ← readOrEmpty? d handles ends true false fuel ts
    let (items, ts) ← blockItems? d handles fuel ts
    return (item :: items, ts)
  | _ + 1, _ => none

/-- The items of a sequence whose dashes stand under the key of the mapping around it. -/
def dashItems? (d : Dialect) (handles : Handles) :
    (fuel : Nat) → List Token → Option (List Node × List Token)
  | 0, _ => none
  | fuel + 1, .blockEntry :: ts => do
    let ends t := t = .blockEntry || endsBlockNode t
    let (item, ts) ← readOrEmpty? d handles ends true false fuel ts
    let (items, ts) ← dashItems? d handles fuel ts
    return (item :: items, ts)
  | _ + 1, ts => some ([], ts)

/-- The entries of a mapping in block style, up to its end. -/
def blockEntries? (d : Dialect) (handles : Handles) :
    (fuel : Nat) → List Token → Option (List (Node × Node) × List Token)
  | 0, _ => none
  | _ + 1, .blockEnd :: ts => some ([], ts)
  | fuel + 1, .key :: ts => do
    let (key, ts) ← readOrEmpty? d handles endsBlockNode true true fuel ts
    let (value, ts) ← blockValue? d handles fuel ts
    let (entries, ts) ← blockEntries? d handles fuel ts
    return ((key, value) :: entries, ts)
  | fuel + 1, .value :: ts =>
    if d = .plain then do
      let (value, ts) ← blockValue? d handles fuel (.value :: ts)
      let (entries, ts) ← blockEntries? d handles fuel ts
      return ((empty, value) :: entries, ts)
    else none
  | _ + 1, _ => none

/-- The value of an entry in block style, which may be missing. -/
def blockValue? (d : Dialect) (handles : Handles) :
    (fuel : Nat) → List Token → Option (Node × List Token)
  | 0, _ => none
  | fuel + 1, .value :: ts => readOrEmpty? d handles endsBlockNode true true fuel ts
  | _ + 1, ts => some (empty, ts)

/-- The items of a sequence in brackets, up to its end. A key there makes a mapping of one entry. -/
def flowItems? (d : Dialect) (handles : Handles) (first : Bool) :
    (fuel : Nat) → List Token → Option (List Node × List Token)
  | 0, _ => none
  | _ + 1, .flowSequenceEnd :: ts => some ([], ts)
  | fuel + 1, ts => do
    let ts ← match ts, first with
      | .flowEntry :: ts, false => some ts
      | ts, true => some ts
      | _, false => none
    match ts with
    | .flowSequenceEnd :: ts => return ([], ts)
    | .key :: ts =>
      let (key, ts) ← pairKey? d handles fuel ts
      let (value, ts) ← flowValue? d handles fuel ts
      let (items, ts) ← flowItems? d handles false fuel ts
      return (.mapping .none [(key, value)] :: items, ts)
    | ts =>
      let (item, ts) ← read? d handles false false fuel ts
      let (items, ts) ← flowItems? d handles false fuel ts
      return (item :: items, ts)

/-- The key of a mapping of one entry in brackets. A missing key takes the token after it along. -/
def pairKey? (d : Dialect) (handles : Handles) :
    (fuel : Nat) → List Token → Option (Node × List Token)
  | 0, _ => none
  | _ + 1, .value :: ts | _ + 1, .flowEntry :: ts | _ + 1, .flowSequenceEnd :: ts =>
    some (empty, ts)
  | fuel + 1, ts => read? d handles false false fuel ts

/-- The value of an entry in flow style, which may be missing. -/
def flowValue? (d : Dialect) (handles : Handles) :
    (fuel : Nat) → List Token → Option (Node × List Token)
  | 0, _ => none
  | fuel + 1, .value :: ts => readOrEmpty? d handles endsFlowNode false false fuel ts
  | _ + 1, ts => some (empty, ts)

/-- The entries of a mapping in braces, up to its end. -/
def flowEntries? (d : Dialect) (handles : Handles) (first : Bool) :
    (fuel : Nat) → List Token → Option (List (Node × Node) × List Token)
  | 0, _ => none
  | _ + 1, .flowMappingEnd :: ts => some ([], ts)
  | fuel + 1, ts => do
    let ts ← match ts, first with
      | .flowEntry :: ts, false => some ts
      | ts, true => some ts
      | _, false => none
    match ts with
    | .flowMappingEnd :: ts => return ([], ts)
    | ts =>
      let (key, ts) ← flowKey? d handles fuel ts
      let (value, ts) ← flowValue? d handles fuel ts
      let (entries, ts) ← flowEntries? d handles false fuel ts
      return ((key, value) :: entries, ts)

/-- The key of an entry in braces. -/
def flowKey? (d : Dialect) (handles : Handles) :
    (fuel : Nat) → List Token → Option (Node × List Token)
  | 0, _ => none
  | fuel + 1, .key :: ts =>
    readOrEmpty? d handles (fun t => t = .value || endsFlowNode t) false false fuel ts
  | fuel + 1, .value :: ts =>
    if d = .plain then some (empty, .value :: ts)
    else read? d handles false false fuel (.value :: ts)
  | fuel + 1, ts => read? d handles false false fuel ts

end

/-! ## Documents -/

/-- Whether a token belongs to a directive. -/
def isDirective : Token → Bool
  | .version _ _ | .tagHandle _ => true
  | _ => false

/--
The handles that directives define. The tagged dialect refuses a second version, a version it does
not know, and a second definition of a handle; in the plain one only the last directive counts.
-/
def handles? (d : Dialect) (versioned : Bool) (handles : Handles) :
    List Token → Option (Handles × List Token)
  | .version major minor :: ts =>
    if versioned then none
    else
      match d with
      | .plain => handles? d true [] ts
      | .tagged =>
        if major = 1 && (minor = 1 || minor = 2) then handles? d true handles ts else none
  | .tagHandle tag :: ts =>
    match d with
    | .plain => handles? d versioned [tag] ts
    | .tagged =>
      if handles.any (·.handle = tag.handle) then none
      else handles? d versioned (tag :: handles) ts
  | ts => some (handles, ts)

/-- More than the number of steps that reading a node takes. -/
def fuelFor (ts : List Token) : Nat := 4 * ts.length + 4

/-- The node of a document after its start mark. -/
def content? (d : Dialect) (handles : Handles) (ts : List Token) :
    Option (Node × List Token) :=
  let ends t := isDirective t || t = .documentStart || t = .documentEnd
  if ts.head?.all ends then some (empty, ts) else read? d handles true false (fuelFor ts) ts

/-- The first document, with its start mark or, where `bare` allows it, without. -/
def document? (d : Dialect) (bare : Bool) (ts : List Token) : Option (Node × List Token) :=
  if bare && !(ts.head?.any fun t => isDirective t || t = .documentStart) then
    read? d [] true false (fuelFor ts) ts
  else do
    let (handles, ts) ← handles? d false [] ts
    match ts with
    | .documentStart :: ts => content? d handles ts
    | _ => none

/-- The documents of a text. `bare` tells that the next one needs no start mark. -/
def documents? (d : Dialect) (bare : Bool) : (fuel : Nat) → List Token → Option (List Node)
  | 0, _ => none
  | fuel + 1, ts =>
    let ts := if d = .plain || !bare then ts.dropWhile (· = .documentEnd) else ts
    if ts.isEmpty then some []
    else do
      let (document, ts) ← document? d bare ts
      match d, ts with
      | .tagged, .documentEnd :: ts => return document :: (← documents? d false fuel ts)
      | .plain, .documentEnd :: ts => return document :: (← documents? d true fuel ts)
      | .plain, .version _ _ :: _ | .plain, .tagHandle _ :: _ => failure
      | _, ts => return document :: (← documents? d false fuel ts)

/-- The documents whose tokens are given. -/
def ofTokens? (d : Dialect) (ts : List Token) : Option (List Node) :=
  documents? d true (ts.length + 1) ts

end Node

end TreeEdit.Yaml
