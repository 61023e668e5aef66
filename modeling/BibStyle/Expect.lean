import BibStyle.Expect.Describe
import BibStyle.Node.Value

/-! # Checks on trees

A check walks into statements and fields. One that fails says where, and what was found there.
-/

namespace BibStyle

/-- What is expected of a node. -/
inductive NodeCheck where
  | kind (kind : Kind)
  | text (text : Text)
  | span (span : Span)
  | field (field : Field)
  | supertype (supertype : Supertype)
  | clean
  | flawed
  | fault (fault : Fault)
  | child (field : Field) (checks : List NodeCheck)
  | noChild (field : Field)
  | identifiers (names : List Text)
  | termCount (count : Nat)
  | term (index : Nat) (checks : List NodeCheck)
  | childOfKind (kind : Kind) (checks : List NodeCheck)
  | integer (value : Int)
  | string (value : Text)

/-- What is expected of a tree. -/
inductive TreeCheck where
  | statementCount (count : Nat)
  | noFaults
  | faultCount (count : Nat)
  | fault (index : Nat) (diagnostic : Diagnostic)
  | roundTrips
  | statement (index : Nat) (checks : List NodeCheck)
  | topLevel (index : Nat) (checks : List NodeCheck)

namespace Expect

/-- Why a check fails; two sides that should have been equal are shown below the text. -/
inductive Failure where
  | plain (text : String)
  | unequal (text left right : String)
deriving DecidableEq, Repr

def Failure.message : Failure → String
  | .plain text => text
  | .unequal text left right =>
      s!"assertion `left == right` failed: {text}\n  left: {left}\n right: {right}"

abbrev Verdict := Except Failure Unit

def holds (condition : Bool) (place text : String) : Verdict :=
  if condition then .ok () else .error (.plain s!"{place}: {text}")

def equal {α : Type} [DecidableEq α] (describe : α → String) (found expected : α)
    (place text : String) : Verdict :=
  if found = expected then .ok ()
  else .error (.unequal s!"{place}: {text}" (describe found) (describe expected))

/-- Something that has to be there. -/
def present {α : Type} (found : Option α) (place text : String) : Except Failure α :=
  match found with
  | some a => .ok a
  | none => .error (.plain s!"{place}: {text}")

def identifiersOf (l : Located) : List Text :=
  (l.children.filter (·.kind == .token .identifier)).map (·.text)

mutual

def node (place : String) (l : Located) : NodeCheck → Verdict
  | .kind k =>
      equal Describe.kind l.kind k place s!"Expected kind {k.label}, found {l.kind.label}"
  | .text t =>
      equal Describe.text l.text t place
        s!"Expected text '{String.ofList t}', found '{String.ofList l.text}'"
  | .span s => equal Span.render l.span s place "Range mismatch"
  | .field f =>
      equal (Describe.option Describe.field) l.field (some f) place s!"Expected field {f.tag}"
  | .supertype s => holds (l.kind.isA s) place s!"Expected {l.kind.label} to be a {s.tag}"
  | .clean => holds (!l.flawed) place s!"Expected no errors in {l.render}"
  | .flawed => holds l.flawed place s!"Expected an error in {l.render}"
  | .fault e =>
      equal (Describe.option Describe.fault) l.fault (some e) place
        s!"Error mismatch on {l.render}"
  | .child f checks => do
      let c ← present (l.child? f) place s!"Expected a child for field {f.tag} in {l.render}"
      nodes s!"{place}.{f.tag}" c checks
  | .noChild f =>
      let found := l.child? f
      holds found.isNone place
        s!"Expected no child for field {f.tag}, found {Describe.option Located.render found}"
  | .identifiers names =>
      equal (Describe.list Describe.text) (identifiersOf l) names place "Identifier mismatch"
  | .termCount n =>
      let found := (l.childrenIn .term).length
      equal toString found n place s!"Expected {n} terms, found {found}"
  | .term i checks => do
      let c ← present (l.childrenIn .term)[i]? place s!"Term index {i} out of bounds"
      nodes s!"{place}.term[{i}]" c checks
  | .childOfKind k checks => do
      let c ← present (l.children.find? (·.kind == k)) place
        s!"Expected a {k.label} child in {l.render}"
      nodes s!"{place}/{k.name}" c checks
  | .integer n =>
      equal (Describe.option toString) l.node.integer? (some n) place
        s!"Integer value mismatch on {l.render}"
  | .string t =>
      equal (Describe.option Describe.text) l.node.string? (some t) place
        s!"String value mismatch on {l.render}"

/-- One check after the other, until one fails. -/
def nodes (place : String) (l : Located) : List NodeCheck → Verdict
  | [] => .ok ()
  | check :: checks => do
      node place l check
      nodes place l checks

end

def tree (t : Tree) : TreeCheck → Verdict
  | .statementCount n =>
      let found := t.statements.length
      equal toString found n "tree" s!"Expected {n} statements, found {found}"
  | .noFaults =>
      holds t.faults.isEmpty "tree"
        s!"Expected no errors, found {Describe.list Describe.diagnostic t.faults}"
  | .faultCount n =>
      equal toString t.faults.length n "tree"
        s!"Expected {n} errors, found {Describe.list Describe.diagnostic t.faults}"
  | .fault i d => do
      let found ← present t.faults[i]? "tree"
        s!"Error index {i} out of bounds ({t.faults.length} errors)"
      equal (fun d => s!"({Describe.fault d.fault}, {d.span.render})") found d "tree"
        s!"errors[{i}] mismatch"
  | .roundTrips =>
      equal Describe.text (t.tokens.flatMap (·.text)) t.text "tree"
        "Tokens do not reproduce the source"
  | .statement i checks => do
      let l ← present t.statements[i]? "tree"
        s!"Statement index {i} out of bounds ({t.statements.length} statements)"
      nodes s!"tree:statements[{i}]" l checks
  | .topLevel i checks => do
      let l ← present t.root.children[i]? "tree" s!"Top-level index {i} out of bounds"
      nodes s!"tree:children[{i}]" l checks

end Expect

/-- One check after the other, until one fails. -/
def Tree.expect (t : Tree) : List TreeCheck → Expect.Verdict
  | [] => .ok ()
  | check :: checks => do
      Expect.tree t check
      t.expect checks

end BibStyle
