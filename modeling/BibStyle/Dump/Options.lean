import BibStyle.Located

/-! # What a dump shows -/

namespace BibStyle

namespace Located

mutual

/-- The tree without the nodes whose kind `shows` refuses, and all that is below them. The node
itself stays. -/
def prune (shows : Kind → Bool) : Located → Located
  | ⟨node, span, flawed, children⟩ => ⟨node, span, flawed, pruneAll shows children⟩

def pruneAll (shows : Kind → Bool) : List Located → List Located
  | [] => []
  | l :: ls => if shows l.kind then l.prune shows :: pruneAll shows ls else pruneAll shows ls

end

end Located

structure DumpOptions where
  showRanges : Bool
  includeTrivia : Bool
deriving DecidableEq, Repr

namespace DumpOptions

def plain : DumpOptions := ⟨false, false⟩

def full : DumpOptions := ⟨true, true⟩

/-- Kinds with a meaning of their own, and trivia if asked for. -/
def showsNamed (o : DumpOptions) (k : Kind) : Bool := k.isNamed || (o.includeTrivia && k.isTrivia)

/-- All kinds but white space, and that too if asked for. -/
def showsInk (o : DumpOptions) (k : Kind) : Bool := o.includeTrivia || k != .token .whitespace

/-- The form ` [3..7]`, if ranges are asked for. -/
def range (o : DumpOptions) (s : Span) : String := if o.showRanges then s!" [{s.render}]" else ""

theorem range_of_showRanges {o : DumpOptions} (ho : o.showRanges = true) (s : Span) :
    o.range s = " [" ++ toString s.start ++ ".." ++ toString s.stop ++ "]" := by
  rw [range, if_pos ho, Span.render]
  rfl

theorem range_of_not_showRanges {o : DumpOptions} (ho : o.showRanges = false) (s : Span) :
    o.range s = "" := by
  rw [range, ho]
  rfl

end DumpOptions

end BibStyle
