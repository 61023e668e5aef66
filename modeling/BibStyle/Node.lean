import BibStyle.Fault
import BibStyle.Token

/-! # Nodes

A node holds its own text and no offset, so that a part of a tree can move with the text around it
and two equal pieces of text have equal nodes.
-/

namespace BibStyle

inductive Node where
  | leaf (kind : TokenKind) (field : Option Field) (text : Text)
  | branch (kind : NodeKind) (field : Option Field) (fault : Option Fault) (children : List Node)

namespace Node

def ofToken (field : Option Field) (t : Token) : Node := .leaf t.kind field t.text

/-- An empty node that says what is wrong at its place. -/
def marker (fault : Fault) : Node := .branch .error none (some fault) []

def kind : Node → Kind
  | .leaf k _ _ => .token k
  | .branch k _ _ _ => .node k

def field : Node → Option Field
  | .leaf _ f _ | .branch _ f _ _ => f

/-- The fault of the node itself; a token the lexer could not read carries one. -/
def fault : Node → Option Fault
  | .leaf k _ _ => Fault.ofToken? k
  | .branch _ _ e _ => e

def children : Node → List Node
  | .leaf _ _ _ => []
  | .branch _ _ _ cs => cs

def isStatement (n : Node) : Bool := n.kind.isA .statement

mutual

/-- The number of bytes under the node. -/
def size : Node → Nat
  | .leaf _ _ t => t.size
  | .branch _ _ _ cs => sizeAll cs

def sizeAll : List Node → Nat
  | [] => 0
  | n :: ns => size n + sizeAll ns

end

mutual

/-- The leaves under the node, in order, in front of `rest`. -/
def leavesOnto : Node → List Token → List Token
  | .leaf k _ t, rest => ⟨k, t⟩ :: rest
  | .branch _ _ _ cs, rest => leavesAllOnto cs rest

def leavesAllOnto : List Node → List Token → List Token
  | [], rest => rest
  | n :: ns, rest => leavesOnto n (leavesAllOnto ns rest)

end

/-- The leaves under the node, in order. -/
def leaves (n : Node) : List Token := n.leavesOnto []

def leavesAll (ns : List Node) : List Token := leavesAllOnto ns []

mutual

theorem leavesOnto_eq : (n : Node) → (rest : List Token) → n.leavesOnto rest = n.leaves ++ rest
  | .leaf k f t, rest => by simp [leaves, leavesOnto]
  | .branch k f e cs, rest => by
      simp only [leaves, leavesOnto]
      exact leavesAllOnto_eq cs rest

theorem leavesAllOnto_eq : (ns : List Node) → (rest : List Token) →
    leavesAllOnto ns rest = leavesAll ns ++ rest
  | [], rest => by simp [leavesAll, leavesAllOnto]
  | n :: ns, rest => by
      simp only [leavesAll, leavesAllOnto]
      rw [leavesOnto_eq n, leavesOnto_eq n (leavesAllOnto ns []), leavesAllOnto_eq ns,
        List.append_assoc, leavesAll]

end

@[simp] theorem leaves_leaf (k : TokenKind) (f : Option Field) (t : Text) :
    (leaf k f t).leaves = [⟨k, t⟩] := by simp [leaves, leavesOnto]

@[simp] theorem leaves_branch (k : NodeKind) (f : Option Field) (e : Option Fault)
    (cs : List Node) : (branch k f e cs).leaves = leavesAll cs := by
  simp [leaves, leavesAll, leavesOnto]

@[simp] theorem leavesAll_nil : leavesAll [] = [] := by simp [leavesAll, leavesAllOnto]

@[simp] theorem leavesAll_cons (n : Node) (ns : List Node) :
    leavesAll (n :: ns) = n.leaves ++ leavesAll ns := by
  rw [leavesAll, leavesAllOnto, leavesOnto_eq, leavesAll]

/-- The text under the node. -/
def text (n : Node) : Text := n.leaves.flatMap Token.text

@[simp] theorem size_leaf (k : TokenKind) (f : Option Field) (t : Text) :
    (leaf k f t).size = t.size := by simp [size]

@[simp] theorem size_branch (k : NodeKind) (f : Option Field) (e : Option Fault)
    (cs : List Node) : (branch k f e cs).size = sizeAll cs := by simp [size]

@[simp] theorem size_marker (e : Fault) : (marker e).size = 0 := by
  simp [marker, sizeAll]

mutual

theorem size_text : (n : Node) → n.text.size = n.size
  | .leaf k f t => by simp [text]
  | .branch k f e cs => by simpa [text] using size_textAll cs

theorem size_textAll : (ns : List Node) →
    Text.size ((leavesAll ns).flatMap Token.text) = sizeAll ns
  | [] => by simp [sizeAll]
  | n :: ns => by
      have h := size_text n
      simp only [text] at h
      simp [sizeAll, h, size_textAll ns]

end

mutual

def decEq : (a b : Node) → Decidable (a = b)
  | .leaf k f t, .leaf k' f' t' =>
      decidable_of_iff (k = k' ∧ f = f' ∧ t = t') (by simp)
  | .branch k f e cs, .branch k' f' e' cs' =>
      match decEqAll cs cs' with
      | .isTrue h => decidable_of_iff (k = k' ∧ f = f' ∧ e = e') (by simp [h])
      | .isFalse h => .isFalse (by simp [h])
  | .leaf .., .branch .. => .isFalse nofun
  | .branch .., .leaf .. => .isFalse nofun

def decEqAll : (as bs : List Node) → Decidable (as = bs)
  | [], [] => .isTrue rfl
  | a :: as, b :: bs =>
      match decEq a b, decEqAll as bs with
      | .isTrue h, .isTrue h' => .isTrue (by rw [h, h'])
      | .isFalse h, _ => .isFalse (by simp [h])
      | _, .isFalse h => .isFalse (by simp [h])
  | [], _ :: _ => .isFalse nofun
  | _ :: _, [] => .isFalse nofun

end

instance : DecidableEq Node := decEq

end Node

/-- A piece at the top of a tree: a statement, a stretch no statement covers, or a filler token.
It is complete when its own last token closed it, without a look at what follows. -/
structure Segment where
  node : Node
  complete : Bool
deriving DecidableEq

namespace Segment

def size (s : Segment) : Nat := s.node.size

def isStatement (s : Segment) : Bool := s.node.isStatement

def isCompleteStatement (s : Segment) : Bool := s.complete && s.isStatement

end Segment

end BibStyle
