import BibStyle.Dump.Options
import BibStyle.Text.Quoted

/-! # Trees drawn with lines

One line for each node below the root:

    └─ execute: EXECUTE {x}
      ├─ keyword: EXECUTE
      ├─ identifier (func): x
-/

namespace BibStyle

namespace Drawing

/-- The longest text that is shown whole. -/
def labelWidth : Nat := 30

def shorten (t : Text) : Text :=
  if t.length > labelWidth then t.take labelWidth ++ ['.', '.', '.'] else t

/-- The fault of a node that has one, otherwise its text; a token shows its text always. -/
def label (l : Located) : String :=
  match l.node, l.fault with
  | .branch .., some e => e.message
  | _, _ => String.ofList (shorten l.text.escaped)

/-- The line of a node without what is drawn in front of it. -/
def caption (o : DumpOptions) (l : Located) : String :=
  let field := match l.field with
    | some f => s!" ({f.tag})"
    | none => ""
  s!"{l.kind.name}{field}{o.range l.span}: {label l}"

def connector (isLast : Bool) : String := if isLast then "└─ " else "├─ "

/-- What the lines below a node carry in its column. -/
def rail (isLast : Bool) : String := if isLast then "  " else "│ "

mutual

def linesOnto (o : DumpOptions) (rails : String) (isLast : Bool) (l : Located)
    (rest : List String) : List String :=
  match l with
  | ⟨_, _, _, cs⟩ =>
      (rails ++ connector isLast ++ caption o l ++ "\n") ::
        linesAll o (rails ++ rail isLast) cs rest

/-- The lines of siblings and all below them; `rails` is drawn in front of each. -/
def linesAll (o : DumpOptions) (rails : String) (ls : List Located) (rest : List String) :
    List String :=
  match ls with
  | [] => rest
  | l :: ls => linesOnto o rails ls.isEmpty l (linesAll o rails ls rest)

end

def lines (o : DumpOptions) (t : Tree) : List String :=
  linesAll o "" (t.root.prune o.showsInk).children []

end Drawing

def Tree.drawing (t : Tree) (o : DumpOptions) : String := String.join (Drawing.lines o t)

end BibStyle
