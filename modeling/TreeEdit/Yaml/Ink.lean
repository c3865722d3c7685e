import TreeEdit.Yaml.Place

/-!
# Laying out YAML text

The writer of the tagged dialect decides between one line and the next by what it has written last:
`Ink` is the text so far with the column reached, and two facts about its end. A mark such as a
dash may be followed by the first line of a block on its own line, which is why a line is not
always begun where a block is.
-/

namespace TreeEdit.Yaml

/-- Text that is being laid out, the last character first. -/
structure Ink where
  reversed : List Char
  column : Nat
  /-- a blank would not have to separate what comes next -/
  spaced : Bool
  /-- only indentation and marks of blocks stand on the line -/
  indenting : Bool

namespace Ink

/-- Nothing written. -/
def blank : Ink := ⟨[], 0, true, true⟩

/-- One more character on the line. -/
def put (c : Char) (ink : Ink) : Ink :=
  { ink with reversed := c :: ink.reversed, column := ink.column + 1 }

/-- More characters on the line. -/
def puts (s : List Char) (ink : Ink) : Ink := s.foldl (fun ink c => ink.put c) ink

/-- The line ended by a character. -/
def endLine (c : Char) (ink : Ink) : Ink :=
  { ink with reversed := c :: ink.reversed, column := 0 }

/-- A blank, unless nothing has to be separated. -/
def separate (ink : Ink) : Ink := if ink.spaced then ink else ink.put ' '

/-- The end of a text that is no mark of a block. -/
def closed (ink : Ink) : Ink := { ink with spaced := false, indenting := false }

/-- A mark that stays on a line of marks. -/
def mark (c : Char) (ink : Ink) : Ink := { ink.separate.put c with spaced := false }

/-- Goes to a column where a line of a block begins, on a new line if this one is in use. -/
def indentTo (column : Nat) (ink : Ink) : Ink :=
  let used := !ink.indenting || column < ink.column || (ink.column = column && !ink.spaced)
  let ink := if used then ink.endLine '\n' else ink
  let ink := ink.puts (List.replicate (column - ink.column) ' ')
  { ink with spaced := true, indenting := true }

/-- The text written. -/
def text (ink : Ink) : String := String.ofList ink.reversed.reverse

end Ink

end TreeEdit.Yaml
