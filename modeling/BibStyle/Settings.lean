import BibStyle.Dump.Registry
import BibStyle.Reader
import BibStyle.Settings.Path
import BibStyle.Settings.Toml

/-! # Settings

Settings come in layers: built-in defaults, files in the order given, and single keys set above
all files.
-/

namespace BibStyle

structure Settings where
  maxInputBytes : Nat
  format : Format
  showRanges : Bool
  includeTrivia : Bool
deriving DecidableEq, Repr

namespace Settings

def reader (s : Settings) : Reader := ⟨s.maxInputBytes⟩

def dumpOptions (s : Settings) : DumpOptions := ⟨s.showRanges, s.includeTrivia⟩

inductive Error where
  | missingFile
  | malformedFile
  | malformedPath
  /-- A value does not have the type of its setting. -/
  | wrongType
  /-- A value is not one of those a setting can have, or a group of settings lacks one. -/
  | wrongShape
deriving DecidableEq, Repr

def Error.message : Error → String
  | .missingFile => "configuration file not found"
  | .malformedFile => "configuration file is not valid TOML"
  | .malformedPath => "malformed configuration key"
  | .wrongType => "configuration value of the wrong type"
  | .wrongShape => "unsuitable configuration value"

inductive Layer where
  /-- A file, with its text if it exists. One that is not required may be missing. -/
  | file (text : Option Text) (required : Bool)
  | set (key : Text) (value : Value)

/-! ## From values to settings -/

namespace Value

def isWord (words : List String) (t : Text) : Bool := words.any (·.toList == lower t)

/-- Numbers other than zero count as true, and so do some words. -/
def bool? : Value → Option Bool
  | .bool b => some b
  | .int n => some (n != 0)
  | .float x => some (x != 0)
  | .text t =>
      if isWord ["1", "true", "on", "yes"] t then some true
      else if isWord ["0", "false", "off", "no"] t then some false
      else none
  | _ => none

/-- A number below 2⁶⁴ in decimal digits, after a plus sign or none. -/
def word64? (t : Text) : Option Nat :=
  (Text.nat? (match t with
    | '+' :: t => t
    | t => t)).filter (· < UInt64.size)

/-- A size. Fractions are rounded, and what lies outside the range of 64 bits goes to its ends. -/
def size? : Value → Option Nat
  | .int n => if 0 ≤ n then some n.toNat else none
  | .bool b => some b.toNat
  | .float x => some x.round.toUInt64.toNat
  | .text t =>
      if isWord ["true", "on", "yes"] t then some 1
      else if isWord ["false", "off", "no"] t then some 0
      else word64? t
  | _ => none

def formatNamed? (t : Text) : Option Format := Format.all.find? fun f => f.name.toList == lower t

/-- A format by its name, which may also be the only key of a table. -/
def format? : Value → Option Format
  | .text t => formatNamed? t
  | .table [(key, _)] => formatNamed? key
  | _ => none

end Value

/-- A member of a group of settings. The group is a table of its members, or a list of them in
order. -/
def Value.member? (position : Nat) (name : String) : Value → Option Value
  | .table es => find? name.toList es
  | .list vs => vs[position]?
  | _ => none

/-- A setting of a group of settings; nothing if the group lacks it. -/
def read {α : Type} (v : Value) (group : String) (position : Nat) (name : String)
    (convert : Value → Option α) (error : Error) : Except Error (Option α) :=
  match (v.get? group.toList).bind (Value.member? position name) with
  | some w => (convert w).elim (.error error) (.ok ∘ some)
  | none => .ok none

/-- The settings that a value gives. That one is wrong counts before that one is missing. -/
def ofValue (v : Value) : Except Error Settings := do
  let maxInputBytes ← read v "parser" 0 "max_input_bytes" Value.size? .wrongType
  let format ← read v "dump" 0 "format" Value.format? .wrongShape
  let showRanges ← read v "dump" 1 "show_ranges" Value.bool? .wrongType
  let includeTrivia ← read v "dump" 2 "include_trivia" Value.bool? .wrongType
  match maxInputBytes, format, showRanges, includeTrivia with
  | some maxInputBytes, some format, some showRanges, some includeTrivia =>
      pure ⟨maxInputBytes, format, showRanges, includeTrivia⟩
  | _, _, _, _ => throw .wrongShape

def standard : Settings := ⟨0, .sexp, false, false⟩

def toValue (s : Settings) : Value :=
  .table
    [("parser".toList, .table [("max_input_bytes".toList, .int s.maxInputBytes)]),
      ("dump".toList, .table
        [("format".toList, .text s.format.name.toList),
          ("show_ranges".toList, .bool s.showRanges),
          ("include_trivia".toList, .bool s.includeTrivia)])]

/-! ## Layers -/

/-- Lay the entries of a file over a value. A key at the top that reads as a path is one. -/
def overlayFile (v : Value) (entries : List (Text × Value)) : Value :=
  entries.foldl (fun v (key, w) =>
    w.set ((Path.parse? key).getD [.key (lower key)]) (some v)) v

def overlayLayer (v : Value) : Layer → Except Error Value
  | .file none required => if required then .error .missingFile else .ok v
  | .file (some text) _ =>
      match Toml.parse? text with
      | some entries => .ok (overlayFile v entries)
      | none => .error .malformedFile
  | .set .. => .ok v

/-- The keys that are set, with their paths. -/
def overrides : List Layer → Except Error (List (Path × Value))
  | [] => .ok []
  | .file .. :: layers => overrides layers
  | .set key v :: layers => do
      match Path.parse? key with
      | some path => pure ((path, v) :: (← overrides layers))
      | none => throw .malformedPath

/-- The settings of some layers over the defaults. Keys that are set lie above all files. -/
def load (layers : List Layer) : Except Error Settings := do
  let above ← overrides layers
  let files ← layers.foldlM overlayLayer standard.toValue
  ofValue (above.foldl (fun v (path, w) => w.set path (some v)) files)

end Settings

end BibStyle
