import BibStyle.Machine

/-! # Trees -/

namespace BibStyle

structure Tree where
  text : Text
  segments : List Segment
deriving DecidableEq

namespace Tree

/-- The tree of a text. Every text has one: what the grammar has no place for is kept in it as a
fault. -/
def parse (text : Text) : Tree := ⟨text, (Machine.segments (fun _ => none) 0 text).1⟩

@[simp] theorem text_parse (text : Text) : (parse text).text = text := rfl

/-- The number of bytes of the text. -/
def size (t : Tree) : Nat := t.text.size

def isEmpty (t : Tree) : Bool := t.text.isEmpty

/-- The offsets at which the segments start, the first of them at `pos`. -/
def offsetsFrom (pos : Nat) : List Segment → List Nat
  | [] => []
  | s :: segments => pos :: offsetsFrom (pos + s.size) segments

@[simp] theorem offsetsFrom_nil (pos : Nat) : offsetsFrom pos [] = [] := rfl

@[simp] theorem offsetsFrom_cons (pos : Nat) (s : Segment) (segments : List Segment) :
    offsetsFrom pos (s :: segments) = pos :: offsetsFrom (pos + s.size) segments := rfl

@[simp] theorem length_offsetsFrom (pos : Nat) (segments : List Segment) :
    (offsetsFrom pos segments).length = segments.length := by
  induction segments generalizing pos with
  | nil => rfl
  | cons s segments ih => simp [ih]

def offsets (t : Tree) : List Nat := offsetsFrom 0 t.segments

@[simp] theorem length_offsets (t : Tree) : t.offsets.length = t.segments.length :=
  length_offsetsFrom 0 t.segments

end Tree

end BibStyle
