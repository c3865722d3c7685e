import TreeEdit.Format.Properties
import TreeEdit.Json.Reader
import TreeEdit.Json.Writer
import TreeEdit.Log
import TreeEdit.Toml.Reader
import TreeEdit.Toml.Writer
import TreeEdit.Yaml.Plain.Reader
import TreeEdit.Yaml.Plain.Writer
import TreeEdit.Yaml.Tagged.Reader
import TreeEdit.Yaml.Tagged.Writer

/-!
# Documents as text

A format and, for YAML, a dialect decide how a document is read and written. What is written always
ends with a line feed. The plain dialect of YAML has no tags: `Format.renderLog` tells of each one
that is lost.

Content that is given in place, on a command line, does not name its format. `parseInline` takes it
for JSON if it can, then for a list of properties if every line looks like one, then for YAML, and
else for a plain string, so that it never fails.
-/

namespace TreeEdit

namespace Dialect

/-- The document in a text. -/
def parse (d : Dialect) (text : String) : Except Error Tree :=
  match d with
  | .tagged => ((Yaml.Tagged.parse? text.toList).map Except.ok).getD (.error .yaml)
  | .plain => Yaml.Plain.parse text.toList

/-- The text of a document. -/
def render (d : Dialect) (t : Tree) : Except Error String :=
  match d with
  | .tagged => ((Yaml.Tagged.render? t).map Except.ok).getD (.error .yaml)
  | .plain => .ok (Yaml.Plain.render t)

end Dialect

/-- A text with a line feed at its end. -/
def endWithLineFeed (text : String) : String :=
  if text.toList.getLast? = some '\n' then text else text ++ "\n"

namespace Format

/-- The document in a text of a format. -/
def parse (f : Format) (d : Dialect) (text : String) : Except Error Tree :=
  match f with
  | .yaml => d.parse text
  | .json => Json.parse text
  | .properties => Properties.parse text
  | .toml => Toml.parse text

/-- The text of a document in a format. -/
def render (f : Format) (d : Dialect) (t : Tree) : Except Error String :=
  let text := match f with
    | .yaml => d.render t
    | .json => Json.pretty t
    | .properties => Properties.render t
    | .toml => Toml.render t
  text.map endWithLineFeed

/-- What is told while a document is written. -/
def renderLog (f : Format) (d : Dialect) (t : Tree) : List Record :=
  if f = .yaml && d = .plain then
    t.tags.map fun tag => .warn (d.name ++ " cannot emit tags; dropping tag " ++ tag.text)
  else []

end Format

/-- Whether every line that is not empty and no comment has a key before an equals sign. -/
def looksLikeProperties (text : String) : Bool :=
  let lines := ((Text.lines text).map fun l => Text.trimChars l.toList).filter fun l =>
    l.head?.any fun c => c ≠ '#' && c ≠ '!'
  let isEntry (l : List Char) : Bool :=
    (Text.cutAt? '=' l).any fun (key, _) => !key.all Text.isBlank && !key.contains ':'
  !lines.isEmpty && lines.all isEntry

/-- The document that is given in place. -/
def parseInline (d : Dialect) (text : String) : Tree :=
  let asProperties := if looksLikeProperties text then (Properties.parse text).toOption else none
  (((Json.parse text).toOption.or asProperties).or (d.parse text).toOption).getD (.string text)

end TreeEdit
