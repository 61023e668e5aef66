import BibStyle.Dump.Drawing
import BibStyle.Dump.Sexp
import BibStyle.Dump.Snapshot

/-! # Dump formats by name -/

namespace BibStyle

/-- A named way to write a tree. -/
structure Formatter where
  name : String
  description : String
  write : Tree → DumpOptions → String

/-- The formats that are always there. -/
inductive Format where
  | sexp
  | treeviz
  | json
  | yaml
deriving DecidableEq, Repr

namespace Format

def all : List Format := [.sexp, .treeviz, .json, .yaml]

def name : Format → String
  | .sexp => "sexp"
  | .treeviz => "treeviz"
  | .json => "json"
  | .yaml => "yaml"

def ofName? (s : String) : Option Format := all.find? fun f => f.name == s

def description : Format → String
  | .sexp => "S-expression with field labels"
  | .treeviz => "Visual tree, one line per node"
  | .json => "JSON tree snapshot"
  | .yaml => "YAML tree snapshot"

def write (f : Format) (t : Tree) (o : DumpOptions) : String :=
  match f with
  | .sexp => t.sexp o
  | .treeviz => t.drawing o
  | .json => (t.snapshot o).data.json
  | .yaml => (t.snapshot o).data.yaml

def formatter (f : Format) : Formatter := ⟨f.name, f.description, f.write⟩

end Format

/-- There is no format of this name. -/
structure UnknownFormat where
  name : String
deriving DecidableEq, Repr

def UnknownFormat.message (e : UnknownFormat) : String := s!"format '{e.name}' not found"

/-- Formatters in the order of their names, one for each. -/
structure Registry where
  formatters : List Formatter

namespace Registry

def empty : Registry := ⟨[]⟩

/-- Insert in order, in place of one of the same name. -/
def insert (f : Formatter) : List Formatter → List Formatter
  | [] => [f]
  | g :: gs =>
      if f.name < g.name then f :: g :: gs
      else if f.name = g.name then f :: gs
      else g :: insert f gs

def register (r : Registry) (f : Formatter) : Registry := ⟨insert f r.formatters⟩

def standard : Registry := Format.all.foldl (fun r f => r.register f.formatter) empty

def names (r : Registry) : List String := r.formatters.map (·.name)

example : standard.names = ["json", "sexp", "treeviz", "yaml"] := by decide

def find? (r : Registry) (name : String) : Option Formatter :=
  r.formatters.find? fun f => f.name == name

def contains (r : Registry) (name : String) : Bool := (r.find? name).isSome

def write (r : Registry) (name : String) (t : Tree) (o : DumpOptions) :
    Except UnknownFormat String :=
  match r.find? name with
  | some f => .ok (f.write t o)
  | none => .error ⟨name⟩

end Registry

end BibStyle
