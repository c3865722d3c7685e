import TreeEdit.Text.Blank

/-!
# References

A reference is a text that says where a document comes from or goes to: `@path` is a file, `!name` a
stored document, and everything else the document itself. A question mark after the first character
allows the file or the stored document to be missing.
-/

namespace TreeEdit

/-- Where a document comes from or goes to. -/
inductive Reference where
  | file (path : String) (isOptional : Bool)
  | stored (name : String) (isOptional : Bool)
  | inline (text : String)
  deriving DecidableEq

namespace Reference

/-- The reference that a text writes. -/
def ofText (text : String) : Reference :=
  match text.toList with
  | '@' :: '?' :: path => .file (String.ofList path) true
  | '@' :: path => .file (String.ofList path) false
  | '!' :: '?' :: name => .stored (String.ofList name) true
  | '!' :: name => .stored (String.ofList name) false
  | _ => .inline text

/-- The text of a reference. -/
def text : Reference → String
  | .file path isOptional => (if isOptional then "@?" else "@") ++ path
  | .stored name isOptional => (if isOptional then "!?" else "!") ++ name
  | .inline text => text

/-- Every text is the text of the reference that it writes. -/
theorem text_ofText (s : String) : (ofText s).text = s := by
  unfold ofText
  split <;> rename_i h <;> simp [text] <;>
    (apply String.ext; simp [h])

end Reference

end TreeEdit
