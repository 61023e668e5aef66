import BibStyle.Dump.Registry

/-! # Arguments of the command line

    [-c FILE] [-v] [--version] VERB [-c FILE] [-v] PATH

Options may stand on either side of the path, and those for settings on either side of the verb.
Two dashes end the options. Short options can share a dash.
-/

namespace BibStyle

namespace Cli

inductive Verb where
  | parse
  | tokens
  | check
  | outline
deriving DecidableEq, Repr

namespace Verb

def all : List Verb := [.parse, .tokens, .check, .outline]

def name : Verb → String
  | .parse => "parse"
  | .tokens => "tokens"
  | .check => "check"
  | .outline => "outline"

def ofName? (s : String) : Option Verb := all.find? fun v => v.name == s

end Verb

/-- What the program is asked to do. -/
structure Request where
  verb : Verb
  path : String
  config : Option String
  format : Option Format
  ranges : Bool
  trivia : Bool
deriving DecidableEq, Repr

/-- What the arguments come to. -/
inductive Args where
  | run (request : Request)
  | version
  | help
  | usage
deriving DecidableEq, Repr

inductive Switch where
  | config
  | verbose
  | version
  | help
  | format
  | ranges
  | trivia
deriving DecidableEq, Repr

namespace Switch

def all : List Switch := [.config, .verbose, .version, .help, .format, .ranges, .trivia]

def long : Switch → String
  | .config => "config"
  | .verbose => "verbose"
  | .version => "version"
  | .help => "help"
  | .format => "format"
  | .ranges => "ranges"
  | .trivia => "trivia"

def short? : Switch → Option Char
  | .config => some 'c'
  | .verbose => some 'v'
  | .version => some 'V'
  | .help => some 'h'
  | .format => some 'f'
  | .ranges | .trivia => none

def takesValue : Switch → Bool
  | .config | .format => true
  | _ => false

/-- The switches known before a verb, and after each. -/
def isKnown (verb : Option Verb) : Switch → Bool
  | .config | .verbose | .help => true
  | .version => verb == none
  | .format | .ranges | .trivia => verb == some .parse

def ofLong? (verb : Option Verb) (name : Text) : Option Switch :=
  all.find? fun s => s.isKnown verb && s.long.toList == name

def ofShort? (verb : Option Verb) (c : Char) : Option Switch :=
  all.find? fun s => s.isKnown verb && s.short? == some c

end Switch

/-- What has been read of the arguments before a verb, or after it. -/
structure Found where
  config : Option String
  format : Option Format
  ranges : Bool
  trivia : Bool
  path : Option String

namespace Found

def none : Found := ⟨.none, .none, false, false, .none⟩

/-- Note a switch. None but the verbose one may come twice. -/
def note (f : Found) (value : String) : Switch → Except Args Found
  | .verbose => .ok f
  | .version => .error .version
  | .help => .error .help
  | .config => if f.config.isSome then .error .usage else .ok { f with config := some value }
  | .ranges => if f.ranges then .error .usage else .ok { f with ranges := true }
  | .trivia => if f.trivia then .error .usage else .ok { f with trivia := true }
  | .format =>
      match f.format, Format.ofName? value with
      | .none, some format => .ok { f with format := some format }
      | _, _ => .error .usage

def notePath (f : Found) (path : String) : Except Args Found :=
  if f.path.isSome then .error .usage else .ok { f with path := some path }

end Found

/-- Short options behind one dash, and the switch whose value is still to come, if any. -/
def cluster (verb : Option Verb) : Found → Text → Except Args (Found × Option Switch)
  | f, [] => .ok (f, none)
  | f, c :: t => do
      match Switch.ofShort? verb c with
      | none => throw .usage
      | some s =>
          if s.takesValue then
            match t with
            | [] => pure (f, some s)
            | '=' :: value => pure (← f.note (String.ofList value) s, none)
            | value => pure (← f.note (String.ofList value) s, none)
          else cluster verb (← f.note "" s) t

/-- A long option, with its value if that follows an equals sign. -/
def longOption (verb : Option Verb) (f : Found) (t : Text) :
    Except Args (Found × Option Switch) := do
  let name := t.takeWhile (· != '=')
  match Switch.ofLong? verb name, t.dropWhile (· != '=') with
  | none, _ => throw .usage
  | some s, '=' :: value =>
      if s.takesValue then pure (← f.note (String.ofList value) s, none) else throw .usage
  | some s, _ => if s.takesValue then pure (f, some s) else pure (← f.note "" s, none)

/-- An argument by its form. -/
inductive Form where
  | endOfOptions
  | long (t : Text)
  | short (t : Text)
  | plain
deriving DecidableEq

def formOf (arg : String) : Form :=
  match arg.toList with
  | ['-', '-'] => .endOfOptions
  | '-' :: '-' :: t => .long t
  | '-' :: c :: t => .short (c :: t)
  | _ => .plain

/-- The arguments after a verb. -/
def afterVerb (verb : Verb) : Found → Option Switch → List String → Except Args Found
  | f, none, [] => .ok f
  | _, some _, [] => .error .usage
  | f, some s, arg :: args => do
      if formOf arg = .plain then afterVerb verb (← f.note arg s) none args else throw .usage
  | f, none, arg :: args => do
      match formOf arg with
      | .endOfOptions => args.foldlM Found.notePath f
      | .long t =>
          let (f, pending) ← longOption (some verb) f t
          afterVerb verb f pending args
      | .short t =>
          let (f, pending) ← cluster (some verb) f t
          afterVerb verb f pending args
      | .plain => afterVerb verb (← f.notePath arg) none args

def request (verb : Verb) (before after : Found) : Args :=
  match after.path with
  | none => .usage
  | some path =>
      .run ⟨verb, path, after.config.or before.config, after.format, after.ranges, after.trivia⟩

/-- Help is given on the program, or on one verb. -/
def isHelpTopic : List String → Bool
  | [] => true
  | [name] => name == "help" || (Verb.ofName? name).isSome
  | _ => false

/-- The arguments up to a verb, and then those after it. -/
def upToVerb : Found → Option Switch → List String → Except Args Args
  | _, _, [] => .error .usage
  | f, some s, arg :: args => do
      if formOf arg = .plain then upToVerb (← f.note arg s) none args else throw .usage
  | f, none, arg :: args => do
      match formOf arg with
      | .endOfOptions => throw .usage
      | .long t =>
          let (f, pending) ← longOption none f t
          upToVerb f pending args
      | .short t =>
          let (f, pending) ← cluster none f t
          upToVerb f pending args
      | .plain =>
          match Verb.ofName? arg with
          | some verb => pure (request verb f (← afterVerb verb .none none args))
          | none => throw (if arg = "help" && isHelpTopic args then .help else .usage)

def Args.parse (args : List String) : Args :=
  match upToVerb .none none args with
  | .ok args => args
  | .error args => args

end Cli

end BibStyle
