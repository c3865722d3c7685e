import TreeEdit.Error

/-!
# Merging content into a node

Content merged into a node never loses what the node holds. An empty place becomes the content; a
mapping takes the entries of another one, which win where both have a key; a sequence takes the
items of another one, or anything else as one more item. Everything else is refused. The tags of
the node are looked through and kept; those of the content are not, so a tagged mapping is no
mapping here.
-/

namespace TreeEdit.Tree

/-- The node with content merged into it. -/
def merge (existing content : Tree) : Except Conflict Tree :=
  if existing.isBlank then .ok content
  else
    match existing.untag, content with
    | .mapping es, .mapping new => .ok (existing.retag (.mapping (Entries.insertAll es new)))
    | .sequence items, .sequence new => .ok (existing.retag (.sequence (items ++ new)))
    | .sequence items, content => .ok (existing.retag (.sequence (items ++ [content])))
    | core, content => .error (.refused content.kind core.kind)

/-- A sequence takes everything. -/
theorem merge_isOk_of_sequence {existing : Tree} {items : List Tree}
    (h : existing.untag = .sequence items) (content : Tree) :
    (existing.merge content).isOk = true := by
  unfold merge
  split
  · rfl
  · rw [h]; cases content <;> rfl

end TreeEdit.Tree
