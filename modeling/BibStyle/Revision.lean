import BibStyle.Reader
import Std.Data.HashSet

/-! # Revisions of a tree

A revision stamps each segment of its tree. Segments taken over from an earlier revision keep
their stamps and fresh ones get new stamps, so that two revisions show what they share.
-/

namespace BibStyle

structure Revision where
  tree : Tree
  stamps : List Nat
  /-- The least stamp not given yet. -/
  next : Nat

namespace Revision

def ofTree (t : Tree) : Revision := ⟨t, List.range t.segments.length, t.segments.length⟩

def parse (text : Text) : Revision := ofTree (.parse text)

/-- The revision after an edit, which leads to `newText`. -/
def reparse (r : Revision) (oldText : Text) (e : Edit) (newText : Text) :
    Except ReparseError Revision :=
  (r.tree.spliceChecked oldText e newText).map fun s =>
    { tree := ⟨newText, s.join r.tree.segments s.fresh⟩
      stamps := s.join r.stamps (List.range' r.next s.fresh.length)
      next := r.next + s.fresh.length }

/-- Stamps do not change the tree. -/
theorem map_tree_reparse (r : Revision) (oldText : Text) (e : Edit) (newText : Text) :
    (r.reparse oldText e newText).map tree = r.tree.reparse oldText e newText := by
  unfold reparse Tree.reparse
  cases r.tree.spliceChecked oldText e newText <;> rfl

def edit (r : Revision) (e : Edit) : Except ReparseError Revision := do
  let newText ← (e.apply r.tree.text).mapError .edit
  r.reparse r.tree.text e newText

/-- The revision after an edit, if the edited text is of a size the reader takes. -/
def editWithin (r : Revision) (reader : Reader) (e : Edit) : Except Refusal Revision := do
  reader.checkEdit r.tree e
  (r.edit e).mapError .edit

/-- How many segments of the revision are also in the other. -/
def shared (r other : Revision) : Nat :=
  let known := Std.HashSet.ofList other.stamps
  r.stamps.countP (known.contains ·)

theorem shared_eq (r other : Revision) :
    r.shared other = r.stamps.countP (other.stamps.contains ·) := by
  simp [shared, Std.HashSet.contains_ofList]

end Revision

end BibStyle
