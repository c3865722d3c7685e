import TreeEdit.Edit.Merge
import TreeEdit.Log
import TreeEdit.Pattern.Walk

/-!
# Inserting and replacing

The events of a walk are turned into a plan, and the plan is carried out when the walk is over.

* Content is put at every target, a found node: merged into the value of a mapping entry, placed
  before an item of a sequence. The last target is served first, so that positions noted on the
  walk stay right.
* A sequence that `[n]` overran is padded with nulls and extended, targets or not.
* Where there is no target, the missing structure is built: at the dead ends that got furthest along
  the pattern, one container for each segment that is left. What is below an unanchored `**` is not
  built, because nobody said where.

`Plan.insert` and `Plan.replace` give the new document; what they did is told by `Plan.insertLog`
and `Plan.replaceLog`, which follow the same steps up to the first that fails.
-/

namespace TreeEdit

/-- A place where the pattern could not go on, with what was left of it. -/
structure Stub where
  location : Location
  cursor : Cursor

/-- A failure at a place of the document. -/
structure Conflict.Located where
  location : String
  cause : Conflict
  deriving DecidableEq

/-- Whether found nodes get more content or new content. -/
inductive Plan.Mode where
  | insert
  | replace
  deriving DecidableEq

/-- The name of a mode in the log. -/
def Plan.Mode.name : Plan.Mode → String
  | .insert => "Insert"
  | .replace => "Replace"

/-- What a walk found for an insertion. -/
structure Plan where
  pattern : Pattern
  targets : List Location
  stubs : List Stub
  extensions : List Stub

namespace Plan

/-- The dead end that an event tells about. -/
def stub? : Event → Option Stub
  | .deadEnd location _ cursor _ => some ⟨location, cursor⟩
  | _ => none

/-- The sequence that an event says was overrun by a position, with no `**` pending. -/
def extension? (p : Pattern) : Event → Option Stub
  | .deadEnd location node cursor none =>
    match node.untag, p.segment? cursor with
    | .sequence items, some (.index n) =>
      if items.length ≤ n && !cursor.greedy then some ⟨location, cursor⟩ else none
    | _, _ => none
  | _ => none

/-- The plan for the events of a walk. -/
def ofWalk (p : Pattern) (w : Walk) : Plan where
  pattern := p
  targets := w.foundNodes.map Prod.fst
  stubs := w.events.filterMap stub?
  extensions := w.events.filterMap (extension? p)

/-! ## Missing structure -/

/-- The text of a location in messages. -/
def label (p : Pattern) (l : Location) : String := Location.label p.delimiter l

/-- Content wrapped in one container for each segment, the first one outermost. -/
def chain (content : Tree) : List Segment → Except Conflict Tree
  | [] => .ok content
  | s :: rest => do
    let inner ← chain content rest
    match s with
    | .literal text _ => .ok (.singleton text inner)
    | .index n => .ok (.padded n inner)
    | .wildcard | .greedy => .error (.openSegment s.text)

/-- The node with a chain hung below it at a segment. -/
def attach (node : Tree) (head : Segment) (chain : Tree) : Except Conflict Tree :=
  if node.isBlank then
    match head with
    | .literal text _ => .ok (node.retag (.singleton text chain))
    | .index n => .ok (node.retag (.padded n chain))
    | .wildcard | .greedy => .error (.openSegment head.text)
  else
    match node.untag, head with
    | .mapping es, .literal text _ =>
      match Entries.find? (.string text) es with
      | some existing =>
        (existing.merge chain).map fun v => node.setChild (.key (.string text)) v
      | none => .ok (node.retag (.mapping (Entries.insert (.string text) chain es)))
    | .sequence items, .index n =>
      if items.length ≤ n then
        .ok (node.retag
          (.sequence (items ++ List.replicate (n - items.length) .null ++ [chain])))
      else .error (.cannotCreate head.text .sequence)
    | _, .wildcard | _, .greedy => .error (.openSegment head.text)
    | core, head => .error (.cannotCreate head.text core.kind)

/-- The document with the rest of the pattern built at a stub. -/
def grow (p : Pattern) (content t : Tree) (s : Stub) : Except Conflict Tree :=
  match p.remaining s.cursor with
  | [] => .ok t
  | head :: tail => do
    let chain ← chain content tail
    match t.get? s.location with
    | none => .error .placeGone
    | some node =>
      let node ← attach node head chain
      match t.set? s.location node with
      | some t => .ok t
      | none => .error .placeGone

/-- What is told before a stub is grown. -/
def growLog (p : Pattern) (content t : Tree) (s : Stub) : List Record :=
  match p.remaining s.cursor with
  | [] => []
  | _ :: tail =>
    if (chain content tail).isOk && (t.get? s.location).isSome then
      [.debug ("Creating '" ++ p.remainingText s.cursor ++ "' under '"
        ++ label p s.location ++ "'")]
    else []

/-- Whether two stubs are one place with the same left to match. -/
def sameStub (p : Pattern) (a b : Stub) : Bool :=
  a.location.Same b.location && p.isEquivalent a.cursor b.cursor

/-- The stubs without repetitions, the first of each kept. -/
def distinct (p : Pattern) (seen : List Stub) : List Stub → List Stub
  | [] => []
  | s :: rest =>
    if seen.any (sameStub p · s) then distinct p seen rest else s :: distinct p (s :: seen) rest

/-- The overrun sequences, the last one first. -/
def extended (plan : Plan) : List Stub := (distinct plan.pattern [] plan.extensions).reverse

/-- The number of segments that the stubs furthest along have used up. -/
def depth (plan : Plan) : Nat := plan.stubs.foldl (fun n s => max n s.cursor.pos) 0

/-- The stubs furthest along the pattern. -/
def furthest (plan : Plan) : List Stub :=
  plan.stubs.filter fun s => s.cursor.pos = plan.depth

/-- How many of them are below an unanchored `**`. -/
def unanchored (plan : Plan) : Nat := (plan.furthest.filter (·.cursor.greedy)).length

/-- The places where structure is built when there is no target. -/
def growths (plan : Plan) : List Stub :=
  distinct plan.pattern plan.extensions (plan.furthest.filter (!·.cursor.greedy))

/-! ## Targets -/

/-- The parent of a target with the content put at its child. -/
def updateChild (mode : Mode) (content parent : Tree) (s : Step) : Except Conflict Tree :=
  match parent.untag, s, mode with
  | .sequence items, .index i, .insert =>
    if i ≤ items.length then .ok (parent.retag (.sequence (items.insertIdx i content)))
    else .error (.noChildren .sequence)
  | .sequence items, .index i, .replace =>
    if i < items.length then .ok (parent.retag (.sequence (items.set i content)))
    else .error (.noChildren .sequence)
  | .mapping es, .key k, mode =>
    match Entries.find? k es, mode with
    | some existing, .insert =>
      (existing.merge content).map fun v => parent.setChild (.key k) v
    | _, _ => .ok (parent.retag (.mapping (Entries.insert k content es)))
  | core, _, _ => .error (.noChildren core.kind)

/-- The document with the content put at one target. -/
def update (mode : Mode) (content t : Tree) (target : Location) : Except Conflict Tree :=
  match target.getLast? with
  | none => .ok t
  | some s =>
    match t.get? target.dropLast with
    | none => .error .targetGone
    | some parent => do
      let parent ← updateChild mode content parent s
      match t.set? target.dropLast parent with
      | some t => .ok t
      | none => .error .targetGone

/-! ## Carrying out a plan -/

/-- Steps carried out one after the other, each at a place, until one fails. -/
def run {α : Type} (p : Pattern) (place : α → Location)
    (step : Tree → α → Except Conflict Tree) : Tree → List α → Except Conflict.Located Tree
  | t, [] => .ok t
  | t, a :: rest =>
    match step t a with
    | .ok t => run p place step t rest
    | .error cause => .error ⟨label p (place a), cause⟩

/-- What the steps tell: `before` they are tried and `after` they succeeded. -/
def runLog {α : Type} (step : Tree → α → Except Conflict Tree)
    (before : Tree → α → List Record) (after : α → List Record) : Tree → List α → List Record
  | _, [] => []
  | t, a :: rest =>
    before t a ++
      match step t a with
      | .ok t => after a ++ runLog step before after t rest
      | .error _ => []

/-- The document with overrun sequences extended. -/
def runExtensions (plan : Plan) (content t : Tree) : Except Conflict.Located Tree :=
  run plan.pattern Stub.location (grow plan.pattern content) t plan.extended

/-- The document with the content at every target, the last one first. -/
def runTargets (plan : Plan) (mode : Mode) (content t : Tree) : Except Conflict.Located Tree :=
  run plan.pattern id (update mode content) t plan.targets.reverse

/-- The document with missing structure built. -/
def runGrowths (plan : Plan) (content t : Tree) : Except Conflict.Located Tree :=
  run plan.pattern Stub.location (grow plan.pattern content) t plan.growths

/-- The document after an insertion. -/
def insert (plan : Plan) (content t : Tree) : Except Conflict.Located Tree := do
  let t ← plan.runExtensions content t
  let t ← plan.runTargets .insert content t
  if plan.targets.isEmpty then plan.runGrowths content t else .ok t

/-- The document after a replacement. -/
def replace (plan : Plan) (content t : Tree) : Except Conflict.Located Tree :=
  plan.runTargets .replace content t

/-! ## What is told about it -/

/-- What is told when structure is not built below a `**`. -/
def unanchoredLog (plan : Plan) : List Record :=
  if plan.stubs.isEmpty || plan.unanchored = 0 then []
  else
    [.warn ("Not creating structure for '" ++ plan.pattern.raw ++ "' below an unanchored '**' ("
      ++ String.ofList (Text.digitsOf plan.unanchored) ++ " location(s) skipped)")]

/-- What the growth of some stubs tells. -/
def growthLog (plan : Plan) (content t : Tree) (stubs : List Stub) : List Record :=
  runLog (grow plan.pattern content) (growLog plan.pattern content) (fun _ => []) t stubs

/-- What the service of the targets tells. -/
def targetLog (plan : Plan) (mode : Mode) (content t : Tree) : List Record :=
  runLog (update mode content) (fun _ _ => [])
    (fun l => [.debug (mode.name ++ " at '" ++ label plan.pattern l ++ "'")])
    t plan.targets.reverse

/-- The last words of an insertion. -/
def insertSummary (plan : Plan) : List Record :=
  let updated := plan.targets.length
  let grown := plan.extended.length
  let created := if updated = 0 then plan.growths.length else 0
  let raw := plan.pattern.raw
  let n (k : Nat) := String.ofList (Text.digitsOf k)
  .debug ("Insert '" ++ raw ++ "': " ++ n updated ++ " target(s) updated, " ++ n grown
      ++ " sequence(s) extended, " ++ n created ++ " location(s) created")
    :: if updated + grown + created = 0 then
        [.warn ("Insert '" ++ raw ++ "' changed nothing")]
      else []

/-- What an insertion tells. -/
def insertLog (plan : Plan) (content t : Tree) : List Record :=
  plan.growthLog content t plan.extended ++
    match plan.runExtensions content t with
    | .error _ => []
    | .ok t =>
      plan.targetLog .insert content t ++
        match plan.runTargets .insert content t with
        | .error _ => []
        | .ok t =>
          if plan.targets.isEmpty then
            plan.unanchoredLog ++ plan.growthLog content t plan.growths ++
              match plan.runGrowths content t with
              | .error _ => []
              | .ok _ => plan.insertSummary
          else plan.insertSummary

/-- What a replacement tells. -/
def replaceLog (plan : Plan) (content t : Tree) : List Record :=
  plan.targetLog .replace content t ++
    match plan.replace content t with
    | .error _ => []
    | .ok _ =>
      [.debug ("Replace '" ++ plan.pattern.raw ++ "': "
        ++ String.ofList (Text.digitsOf plan.targets.length) ++ " target(s)")]

end Plan

end TreeEdit
