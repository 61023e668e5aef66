import BibStyle.Cli.Args
import BibStyle.Lines
import BibStyle.Outline
import BibStyle.Settings
import BibStyle.Text.Quoted

/-! # The command line

Files are read through a function given from outside, so that what the program answers depends on
its arguments and on the files alone.
-/

namespace BibStyle

namespace Cli

/-- What the program leaves behind. -/
structure Outcome where
  code : Nat
  out : String
  err : String
deriving DecidableEq, Repr

namespace Outcome

def failure (message : String) : Outcome := ⟨2, "", s!"Error: {message}\n"⟩

end Outcome

/-- The bytes of a file, or why it cannot be read. -/
abbrev Files (m : Type → Type) := String → m (Except String (List UInt8))

/-! ## What each verb prints -/

def parseOutcome (s : Settings) (t : Tree) : Outcome :=
  let out := s.format.write t s.dumpOptions
  ⟨0, if out.endsWith "\n" then out else out ++ "\n", ""⟩

def tokenLine : Span × Token → String
  | (span, t) =>
      s!"{span.render} {(Kind.token t.kind).name} {String.ofList (Text.quoted t.text)}\n"

def tokensOutcome (t : Text) : Outcome :=
  ⟨0, String.join ((Token.place 0 (lexAll .normal t)).map tokenLine), ""⟩

def checkOutcome (path : String) (t : Tree) : Outcome :=
  match t.faults with
  | [] => ⟨0, s!"{path}: no errors\n", ""⟩
  | faults =>
      let places := t.text.positions (faults.map (·.span.start))
      ⟨1, String.join (List.zipWith (fun p d =>
        s!"{path}:{p.render}: {d.fault.message}\n") places faults), ""⟩

def outlineOutcome (t : Tree) : Outcome :=
  let declarations := t.outline.declarations
  let places := t.text.positions (declarations.map (·.span.start))
  ⟨0, String.join (List.zipWith (fun p d =>
    s!"{p.render} {d.kind.label} {String.ofList d.name}\n") places declarations), ""⟩

/-- What a verb answers on the bytes of the style file. -/
def answer (r : Request) (s : Settings) (bytes : List UInt8) : Outcome :=
  match s.reader.decode bytes with
  | .error e => .failure e.message
  | .ok text =>
      match r.verb with
      | .parse => parseOutcome s (.parse text)
      | .tokens => tokensOutcome text
      | .check => checkOutcome r.path (.parse text)
      | .outline => outlineOutcome (.parse text)

/-! ## Running -/

/-- The settings that the options set. -/
def Request.overrides (r : Request) : List Settings.Layer :=
  (r.format.map fun f => .set "dump.format".toList (.text f.name.toList)).toList ++
    (if r.ranges then [.set "dump.show_ranges".toList (.bool true)] else []) ++
    (if r.trivia then [.set "dump.include_trivia".toList (.bool true)] else [])

/-- The path of a settings file whose name lacks its ending. Slashes and single dots after the name
are no part of it. -/
def withEnding? (path : String) : Option String :=
  match (path.splitOn "/").reverse.dropWhile (fun part => part == "" || part == ".") with
  | [] | ".." :: _ => none
  | parts => some ("/".intercalate parts.reverse ++ ".toml")

/-- The text of a settings file, whose name may lack its ending. -/
def settingsText {m : Type → Type} [Monad m] (files : Files m) (path : String) :
    m (Option Text) := do
  let decoded (bytes : List UInt8) : Option Text := (Utf8.decode bytes).toOption
  match ← files path, withEnding? path with
  | .ok bytes, _ => pure (decoded bytes)
  | .error _, none => pure none
  | .error _, some path => do
      let file ← files path
      pure (file.toOption.bind decoded)

/-- Settings come first, so that their errors win over those of the style file. -/
def runRequest {m : Type → Type} [Monad m] (files : Files m) (r : Request) : m Outcome := do
  let file ← match r.config with
    | some path => do pure [Settings.Layer.file (← settingsText files path) true]
    | none => pure []
  match Settings.load (file ++ r.overrides) with
  | .error e => pure (.failure e.message)
  | .ok s =>
      match ← files r.path with
      | .error e => pure (.failure e)
      | .ok bytes => pure (answer r s bytes)

def version : String := "bst 0.1.0\n"

def usage : String :=
  "usage: bst [-c FILE] [-v] (parse [-f FORMAT] [--ranges] [--trivia] | tokens | check | " ++
    "outline) PATH\n"

def run {m : Type → Type} [Monad m] (files : Files m) (args : List String) : m Outcome :=
  match Args.parse args with
  | .version => pure ⟨0, version, ""⟩
  | .help => pure ⟨0, usage, ""⟩
  | .usage => pure ⟨2, "", usage⟩
  | .run r => runRequest files r

end Cli

end BibStyle
