import TreeEdit.Pattern.Basic

/-!
# Walking a document along a pattern

A walk goes through a document in order and tells what it meets (`Event`): a node reached partway
along the pattern, a node where the pattern is used up, and dead ends. Whoever asks for the walk
answers each event: a partway node answered false is not entered, and a found node answered false
does not count as a match.

* Under a greedy cursor every child is entered, with the cursor held, until one matches.
* A scalar under a key or a position matches itself when one literal is left and matches its text.
* Every node under which nothing was found and accepted is reported as a dead end, after its
  children.
* A sequence directly inside a sequence is refused under a greedy cursor, and the walk stops there.

The events come out as a list, so nothing changes the document while it is walked.
-/

namespace TreeEdit

/-- Something met on a walk. Locations are those of the node told about. -/
inductive Event where
  /-- a segment matched at the node and others remain -/
  | partway (location : Location) (node : Tree) (cursor : Cursor)
  /-- the whole pattern matched at the node -/
  | found (location : Location) (node : Tree)
  /-- the pattern could not go on below the node, or at the step below it that is given -/
  | deadEnd (location : Location) (node : Tree) (cursor : Cursor) (unmatched : Option Step)

/-- What happened on a walk, or on a part of one. -/
structure Walk where
  events : List Event
  /-- whether something was found and accepted; none when the walk had to stop -/
  accepted : Option Bool

namespace Walk

/-- Nothing happened. -/
def nothing : Walk := ⟨[], some false⟩

/-- A single event, with whether it is an accepted match. -/
def one (e : Event) (accepted : Bool) : Walk := ⟨[e], some accepted⟩

/-- One part after the other; after a stop there is no other. -/
def append (a b : Walk) : Walk :=
  match a.accepted with
  | none => a
  | some x => ⟨a.events ++ b.events, b.accepted.map (x || ·)⟩

instance : Append Walk := ⟨append⟩

/-- The locations of the nodes found. -/
def foundNodes (w : Walk) : List (Location × Tree) :=
  w.events.filterMap fun
    | .found l t => some (l, t)
    | _ => none

end Walk

namespace Pattern

variable (p : Pattern) (answer : Event → Bool)

/-- The walk into a child, for a cursor already moved; `below` is the walk under it. -/
def enter (next : Cursor) (location : Location) (child : Tree) (below : Unit → Walk) : Walk :=
  if p.isExhausted next then
    let e := Event.found location child
    .one e (answer e)
  else
    let e := Event.partway location child next
    if answer e then .one e false ++ below () else .one e false

/-- The walk of a node, closed by a dead end if nothing was accepted under it. -/
def closeNode (location : Location) (node : Tree) (cursor : Cursor) (w : Walk) : Walk :=
  match w.accepted with
  | some false => w ++ .one (.deadEnd location node cursor none) false
  | _ => w

/-- A scalar that is not the root matches itself when one literal is left, and matches its text. -/
def matchSelf (cursor : Cursor) (location : Location) (node : Tree) : Walk :=
  match location, p.remaining cursor, node.text? with
  | _ :: _, [.literal text regex], some s =>
    if !cursor.greedy && (Segment.literal text regex).matchesText s then
      let e := Event.found location node
      .one e (answer e)
    else .nothing
  | _, _, _ => .nothing

mutual

/--
The walk of a node with an unexhausted cursor. `node` is the node with its tags and the tree walked
is the one under the tags passed so far.
-/
def walkNode (cursor : Cursor) (segment : Segment) (location : Location) (node : Tree) :
    Tree → Walk
  | .tagged _ value => walkNode cursor segment location node value
  | .mapping entries =>
    closeNode location node cursor (walkEntries cursor segment location node entries)
  | .sequence items =>
    closeNode location node cursor
      (match segment, cursor.greedy with
        | .index _, _ | .wildcard, _ | _, true => walkItems cursor segment location 0 items
        | _, _ => .nothing)
  | .null => closeNode location node cursor (matchSelf p answer cursor location node)
  | .bool _ => closeNode location node cursor (matchSelf p answer cursor location node)
  | .number _ => closeNode location node cursor (matchSelf p answer cursor location node)
  | .string _ => closeNode location node cursor (matchSelf p answer cursor location node)

/-- The walk of the entries of a mapping. -/
def walkEntries (cursor : Cursor) (segment : Segment) (location : Location) (node : Tree) :
    List (Tree × Tree) → Walk
  | [] => .nothing
  | (key, value) :: entries =>
    let step := Step.key key
    let under (next : Cursor) : Walk :=
      enter p answer next (location ++ [step]) value fun _ =>
        match p.segment? next with
        | some s => walkNode next s (location ++ [step]) value value
        | none => .nothing
    (if segment.matchesKey key then under (p.advance cursor)
      else if cursor.greedy then under cursor
      else .one (.deadEnd location node cursor (some step)) false)
    ++ walkEntries cursor segment location node entries

/-- The walk of the items of a sequence, the first of them at position `i`. -/
def walkItems (cursor : Cursor) (segment : Segment) (location : Location) (i : Nat) :
    List Tree → Walk
  | [] => .nothing
  | item :: items =>
    let step := Step.index i
    let under (next : Cursor) : Walk :=
      enter p answer next (location ++ [step]) item fun _ =>
        match p.segment? next with
        | some s => walkNode next s (location ++ [step]) item item
        | none => .nothing
    (if segment.matchesIndex i then under (p.advance cursor)
      else if cursor.greedy then
        if item.isSequence then ⟨[], none⟩ else under cursor
      else .nothing)
    ++ walkItems cursor segment location (i + 1) items

end

/-- The walk of a document. The pattern for the whole document needs none. -/
def walk (document : Tree) : Walk :=
  if p.isRoot then ⟨[], some true⟩
  else
    match p.segment? p.start with
    | some s => walkNode p answer p.start s [] document document
    | none => ⟨[], some true⟩

end Pattern

end TreeEdit
