import BibStyle.Located

/-! # Walking a tree -/

namespace BibStyle

/-- A node of a tree with the way up to the root, its parent first. -/
structure Cursor where
  node : Located
  ancestors : List Located

namespace Cursor

def top (t : Tree) : Cursor := ⟨t.root, []⟩

def isTop (c : Cursor) : Bool := c.ancestors.isEmpty

def parent? (c : Cursor) : Option Cursor :=
  match c.ancestors with
  | p :: above => some ⟨p, above⟩
  | [] => none

/-- Go down to a child of the node. -/
def down (c : Cursor) (child : Located) : Cursor := ⟨child, c.node :: c.ancestors⟩

def child? (c : Cursor) (i : Nat) : Option Cursor := c.node.children[i]?.map c.down

def childIn? (c : Cursor) (f : Field) : Option Cursor := (c.node.child? f).map c.down

inductive Move where
  | child (index : Nat)
  | field (field : Field)
  | parent
deriving DecidableEq, Repr

def move? (c : Cursor) : Move → Option Cursor
  | .child i => c.child? i
  | .field f => c.childIn? f
  | .parent => c.parent?

/-- Follow the moves one after the other; nothing if one leads nowhere. -/
def follow? (c : Cursor) (moves : List Move) : Option Cursor := moves.foldlM move? c

mutual

def preorderOnto (above : List Located) (l : Located) (acc : List Cursor) : List Cursor :=
  match l with
  | ⟨_, _, _, cs⟩ => ⟨l, above⟩ :: preorderAll (l :: above) cs acc

def preorderAll (above : List Located) (ls : List Located) (acc : List Cursor) : List Cursor :=
  match ls with
  | [] => acc
  | l :: ls => preorderOnto above l (preorderAll above ls acc)

end

/-- The node and all nodes below it, parents before children, each with its way up. -/
def preorder (c : Cursor) : List Cursor := preorderOnto c.ancestors c.node []

end Cursor

end BibStyle
