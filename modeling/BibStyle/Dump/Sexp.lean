import BibStyle.Dump.Options

/-! # S-expressions

One form for each named node, a line for each, with the field in front:

    (execute
      func: (identifier))
-/

namespace BibStyle

namespace Sexp

/-- What a form starts with. A marker for something absent says what is. -/
def head (o : DumpOptions) (l : Located) : String :=
  let label := match l.field with
    | some f => s!"{f.tag}: "
    | none => ""
  let name := match l.fault with
    | some (.missing e) => if l.isMissing then s!"MISSING {e.label}" else l.kind.name
    | _ => l.kind.name
  s!"{label}({name}{o.range l.span}"

/-- The start of the line of a node at the given depth. -/
def indent : Nat → String
  | 0 => ""
  | depth => "\n" ++ String.ofList (List.replicate (2 * depth) ' ')

mutual

/-- The pieces of the form of `l`, in front of `rest`. -/
def piecesOnto (o : DumpOptions) (depth : Nat) (l : Located) (rest : List String) : List String :=
  match l with
  | ⟨_, _, _, cs⟩ => indent depth :: head o l :: piecesAll o (depth + 1) cs (")" :: rest)

def piecesAll (o : DumpOptions) (depth : Nat) (ls : List Located) (rest : List String) :
    List String :=
  match ls with
  | [] => rest
  | l :: ls => piecesOnto o depth l (piecesAll o depth ls rest)

end

end Sexp

def Tree.sexp (t : Tree) (o : DumpOptions) : String :=
  String.join (Sexp.piecesOnto o 0 (t.root.prune o.showsNamed) [])

end BibStyle
