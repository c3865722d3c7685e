import TreeEdit.Text.Blank

/-!
# Log records

What is done is told in records. Each has a level, and a reader sees those at or below the level
in force when the record was made.
-/

namespace TreeEdit

/-- How much is told, from nothing to everything. -/
inductive Level where
  | off
  | error
  | warn
  | info
  | debug
  | trace
  deriving DecidableEq

namespace Level

/-- The place of a level in their order. -/
def rank : Level → Nat
  | .off => 0
  | .error => 1
  | .warn => 2
  | .info => 3
  | .debug => 4
  | .trace => 5

/-- The name of a level in front of a record. -/
def name : Level → String
  | .off => "OFF"
  | .error => "ERROR"
  | .warn => "WARN"
  | .info => "INFO"
  | .debug => "DEBUG"
  | .trace => "TRACE"

/-- The level with a name, in letters of either case. -/
def ofText? (text : String) : Option Level :=
  [off, .error, .warn, .info, .debug, .trace].find? fun l =>
    Text.toLowerAscii l.name = Text.toLowerAscii text

/-- The more talkative of two levels. -/
def max (a b : Level) : Level := if a.rank ≤ b.rank then b else a

end Level

/-- One record. -/
structure Record where
  level : Level
  text : String
  deriving DecidableEq

namespace Record

/-- A record for those who follow every step. -/
def debug (text : String) : Record := ⟨.debug, text⟩

/-- A record of the course of things. -/
def info (text : String) : Record := ⟨.info, text⟩

/-- A record of something that may be wrong. -/
def warn (text : String) : Record := ⟨.warn, text⟩

/-- Whether a record is seen at a level. -/
def visible (level : Level) (r : Record) : Bool := r.level.rank ≤ level.rank

/-- The record on one line, its level first. -/
def line (r : Record) : String := r.level.name ++ " " ++ r.text

end Record

end TreeEdit
