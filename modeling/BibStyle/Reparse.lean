import BibStyle.Edit
import BibStyle.Tree

/-! # Parsing again after an edit

Segments that end well before the edit are kept. The machine starts again behind the last complete
statement among them, and stops at the first statement past the edit that the old tree has at the
same place; from there on the old segments are taken over.
-/

namespace BibStyle

/-- How the segments of an edited tree are put together. -/
structure Splice where
  /-- The number of old segments kept at the front. -/
  kept : Nat
  /-- The segments parsed anew. -/
  fresh : List Segment
  /-- The first of the old segments taken over at the end, if any is. -/
  resumed : Option Nat

namespace Splice

/-- Put pieces together: of the old ones those that stay, and the fresh ones between them. -/
def join {α : Type} (s : Splice) (old fresh : List α) : List α :=
  old.take s.kept ++ fresh ++ (match s.resumed with
    | some i => old.drop i
    | none => [])

end Splice

inductive ReparseError where
  | edit (error : EditError)
  /-- The new text, though of the right size, has no character boundary where the replacement
  should start or end, and so cannot be compared piece by piece. -/
  | noSeam
deriving DecidableEq, Repr

def ReparseError.message : ReparseError → String
  | .edit error => error.message
  | .noSeam => "new text has no character boundary where the replacement starts or ends"

namespace Tree

/-- How many segments an edit at byte `start` leaves untouched. The segment that touches the edit
never stays, because its last token may grow; the last one that stays is a complete statement. -/
def keptBefore (t : Tree) (start : Nat) : Nat :=
  let before := t.offsets.countP (· < start)
  ((t.segments.take (before - 1)).reverse.dropWhile (!·.isCompleteStatement)).length

/-- The index of the statement that starts at byte `offset`. -/
def statementAt? (t : Tree) (offset : Nat) : Option Nat :=
  (t.offsets.zip t.segments).findIdx? fun (o, s) => o == offset && s.isStatement

/-- The old statement that starts where `pos` was before the edit, for `pos` past the edit. -/
def resumeAt (t : Tree) (e : Edit) (pos : Nat) : Option Nat :=
  if pos < e.insertedTo then none
  else t.statementAt? (pos - e.replacement.size + e.span.length)

/-- The segments of the edited text `newText`, as far as the old tree does not have them. -/
def splice (t : Tree) (e : Edit) (newText : Text) : Splice :=
  let kept := t.keptBefore e.span.start
  let start := Node.sizeAll ((t.segments.take kept).map (·.node))
  let rest := match newText.cut? start with
    | some (_, rest) => rest
    | none => []
  let (fresh, resumed) := Machine.segments (t.resumeAt e) start rest
  ⟨kept, fresh, resumed⟩

/-- The first place, counted from `base`, where two texts have different bytes. -/
def mismatch? (base : Nat) (expected found : Text) : Option Nat :=
  ((expected.bytes.zip found.bytes).findIdx? fun (a, b) => a != b).map (base + ·)

/-- Check that `newText` is `oldText`, the text of the tree, after the edit. -/
def checkEdit (t : Tree) (oldText : Text) (e : Edit) (newText : Text) : Except ReparseError Unit :=
  if t.text ≠ oldText then .error (.edit .staleText)
  else match e.split oldText with
    | .error error => .error (.edit error)
    | .ok (before, after) =>
        let expected := e.newSize oldText.size
        if newText.size ≠ expected then .error (.edit (.lengthMismatch expected newText.size))
        else match newText.cut? e.span.start with
          | none => .error .noSeam
          | some (newBefore, rest) =>
              match rest.cut? e.replacement.size with
              | none => .error .noSeam
              | some (inserted, newAfter) =>
                  match (mismatch? 0 before newBefore).or <|
                      (mismatch? e.span.start e.replacement inserted).or <|
                        mismatch? e.insertedTo after newAfter with
                  | some offset => .error (.edit (.textMismatch offset))
                  | none => .ok ()

/-- The splice that makes the tree of `newText` out of the tree of `oldText`. -/
def spliceChecked (t : Tree) (oldText : Text) (e : Edit) (newText : Text) :
    Except ReparseError Splice :=
  (t.checkEdit oldText e newText).map fun _ => t.splice e newText

/-- The tree of `newText`, which must be `oldText`, the text of the tree, after the edit. -/
def reparse (t : Tree) (oldText : Text) (e : Edit) (newText : Text) :
    Except ReparseError Tree :=
  (t.spliceChecked oldText e newText).map fun s => ⟨newText, s.join t.segments s.fresh⟩

/-- The tree of the edited text. -/
def edit (t : Tree) (e : Edit) : Except ReparseError Tree := do
  let newText ← (e.apply t.text).mapError .edit
  t.reparse t.text e newText

end Tree

end BibStyle
