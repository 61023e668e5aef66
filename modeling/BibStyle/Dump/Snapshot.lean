import BibStyle.Data.Json
import BibStyle.Data.Yaml
import BibStyle.Dump.Options

/-! # Trees as flat tables

The rows of a snapshot are the nodes of the tree in preorder, each with the index of its parent.
-/

namespace BibStyle

structure Row where
  kind : Kind
  parent : Option Nat
  field : Option Field
  span : Span
  /-- The text of a token. -/
  text : Option Text
  fault : Option Fault
deriving DecidableEq

namespace Row

def ofLocated (parent : Option Nat) (l : Located) : Row :=
  ⟨l.kind, parent, l.field, l.span, if l.isToken then some l.text else none, l.fault⟩

end Row

def Fault.data (e : Fault) : Data :=
  .record <| ("type", .str e.tag) :: match e with
    | .strayChar => []
    | .unterminated c => [("construct", .str c.tag)]
    | .unexpected k => [("found", .str k.tag)]
    | .missing x => [("expected", .str x.tag)]

def Span.data (s : Span) : Data := .record [("start", .count s.start), ("end", .count s.stop)]

def Row.data (r : Row) : Data :=
  .present
    [("kind", some (.str r.kind.name)),
      ("parent", r.parent.map .count),
      ("field", r.field.map fun f => .str f.tag),
      ("range", some r.span.data),
      ("text", r.text.map .text),
      ("error", r.fault.map Fault.data)]

namespace Located

mutual

/-- The rows of the node and all below it, after `rows`. -/
def rowsOnto (parent : Option Nat) (l : Located) (rows : Array Row) : Array Row :=
  match l with
  | ⟨_, _, _, cs⟩ => rowsAll (some rows.size) cs (rows.push (.ofLocated parent l))

def rowsAll (parent : Option Nat) (ls : List Located) (rows : Array Row) : Array Row :=
  match ls with
  | [] => rows
  | l :: ls => rowsAll parent ls (l.rowsOnto parent rows)

end

end Located

structure Snapshot where
  rows : Array Row

namespace Snapshot

def root? (s : Snapshot) : Option Row := s.rows[0]?

/-- The rows whose parent is row `i`. -/
def children (s : Snapshot) (i : Nat) : List Row :=
  (s.rows.toList.drop (i + 1)).filter fun r => r.parent == some i

def data (s : Snapshot) : Data := .record [("nodes", .list (s.rows.toList.map Row.data))]

end Snapshot

def Tree.snapshot (t : Tree) (o : DumpOptions) : Snapshot :=
  ⟨(t.root.prune o.showsInk).rowsOnto none #[]⟩

end BibStyle
