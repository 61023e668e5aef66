import BibStyle.Tree

/-! # Nodes at their place in the text -/

namespace BibStyle

/-- A node with the bytes it covers. It is flawed when it, or a node below it, has a fault. -/
structure Located where
  node : Node
  span : Span
  flawed : Bool
  children : List Located

namespace Located

def kind (l : Located) : Kind := l.node.kind

def field (l : Located) : Option Field := l.node.field

def fault (l : Located) : Option Fault := l.node.fault

def text (l : Located) : Text := l.node.text

def isToken (l : Located) : Bool := l.kind.isToken

/-- An empty node that stands for something absent. -/
def isMissing (l : Located) : Bool :=
  match l.fault with
  | some (.missing _) => l.span.start == l.span.stop
  | _ => false

/-- The form `identifier@9..10 (func)`. -/
def render (l : Located) : String :=
  let place := s!"{l.kind.name}@{l.span.render}"
  match l.field with
  | some f => s!"{place} ({f.tag})"
  | none => place

def namedChildren (l : Located) : List Located := l.children.filter (·.kind.isNamed)

def childrenIn (l : Located) (f : Field) : List Located :=
  l.children.filter fun c => c.field == some f

/-- The first child in the field. -/
def child? (l : Located) (f : Field) : Option Located :=
  l.children.find? fun c => c.field == some f

def diagnostic? (l : Located) : Option Diagnostic := l.fault.map fun e => ⟨l.span, e⟩

mutual

/-- The node and all nodes below it, parents before children, in front of `acc`. -/
def preorderOnto (l : Located) (acc : List Located) : List Located :=
  match l with
  | ⟨_, _, _, cs⟩ => l :: preorderAll cs acc

def preorderAll (ls : List Located) (acc : List Located) : List Located :=
  match ls with
  | [] => acc
  | l :: ls => l.preorderOnto (preorderAll ls acc)

end

/-- The node and all nodes below it, parents before children. -/
def preorder (l : Located) : List Located := l.preorderOnto []

mutual

theorem preorderOnto_eq (l : Located) (acc : List Located) :
    l.preorderOnto acc = l.preorder ++ acc := by
  match l with
  | ⟨_, _, _, cs⟩ =>
      simp only [preorder, preorderOnto, List.cons_append, List.cons.injEq, true_and]
      exact preorderAll_eq cs acc

theorem preorderAll_eq (ls : List Located) (acc : List Located) :
    preorderAll ls acc = preorderAll ls [] ++ acc := by
  match ls with
  | [] => simp [preorderAll]
  | l :: ls =>
      simp only [preorderAll]
      rw [preorderOnto_eq l, preorderOnto_eq l (preorderAll ls []), preorderAll_eq ls acc,
        List.append_assoc]

end

mutual

/-- The faults of the node and of those below it, in preorder, in front of `acc`. Nodes that are
not flawed are passed over whole. -/
def faultsOnto (l : Located) (acc : List Diagnostic) : List Diagnostic :=
  match l with
  | ⟨_, _, flawed, cs⟩ =>
      if flawed then l.diagnostic?.toList ++ faultsAll cs acc else acc

def faultsAll (ls : List Located) (acc : List Diagnostic) : List Diagnostic :=
  match ls with
  | [] => acc
  | l :: ls => l.faultsOnto (faultsAll ls acc)

end

def faults (l : Located) : List Diagnostic := l.faultsOnto []

mutual

/-- The number of nodes on the longest way down. -/
def height (l : Located) : Nat :=
  match l with
  | ⟨_, _, _, cs⟩ => 1 + heightAll cs

def heightAll (ls : List Located) : Nat :=
  match ls with
  | [] => 0
  | l :: ls => max l.height (heightAll ls)

end

end Located

mutual

/-- The node placed at byte `pos`. -/
def Node.locate (pos : Nat) : Node → Located
  | .leaf k f t =>
      ⟨.leaf k f t, ⟨pos, pos + t.size⟩, (Fault.ofToken? k).isSome, []⟩
  | .branch k f e cs =>
      let ls := Node.locateAll pos cs
      ⟨.branch k f e cs, ⟨pos, (ls.getLast?.map (·.span.stop)).getD pos⟩,
        e.isSome || ls.any (·.flawed), ls⟩

/-- The nodes placed one after the other from byte `pos` on. -/
def Node.locateAll (pos : Nat) : List Node → List Located
  | [] => []
  | n :: ns =>
      let l := n.locate pos
      l :: Node.locateAll l.span.stop ns

end

namespace Tree

/-- The node of the whole file: its children are the segments. -/
def root (t : Tree) : Located :=
  (Node.branch .sourceFile none none (t.segments.map (·.node))).locate 0

def statements (t : Tree) : List Located := t.root.children.filter (·.kind.isA .statement)

/-- The leaves of the tree in order. -/
def tokens (t : Tree) : List Located := t.root.preorder.filter (·.isToken)

def hasFaults (t : Tree) : Bool := t.root.flawed

def faults (t : Tree) : List Diagnostic := t.root.faults

end Tree

end BibStyle
