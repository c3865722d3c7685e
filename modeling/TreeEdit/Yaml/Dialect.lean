import TreeEdit.Text.Blank

/-!
# Dialects of YAML

YAML text is read and written in one of two dialects. The tagged one keeps tags, tells every kind
of scalar of the core schema and prints a document with as few quotes as it can. The plain one has
no tags, knows fewer spellings of scalars and quotes more. A script may change from one to the
other between two commands.
-/

namespace TreeEdit

/-- The dialects in which YAML text is read and written. -/
inductive Dialect where
  | tagged
  | plain
  deriving DecidableEq

namespace Dialect

/-- The name by which scripts and options ask for a dialect. -/
def name : Dialect → String
  | .tagged => "serde_yaml"
  | .plain => "yaml-rust2"

/--
The dialect that a text asks for; case and blanks around it do not matter. A name that is not known
is given back as it was compared.
-/
def ofText (text : String) : Except String Dialect :=
  match Text.toLowerAscii (Text.trim text) with
  | "serde_yaml" | "serde-yaml" | "serde" => .ok .tagged
  | "yaml-rust2" | "yaml_rust2" | "yaml-rust" => .ok .plain
  | other => .error other

end Dialect

end TreeEdit
