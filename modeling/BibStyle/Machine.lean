import BibStyle.Grammar
import BibStyle.Node
import BibStyle.Token.Lexer

/-! # The parsing machine

The machine reads a text token by token and keeps the nodes that are still open on a stack. Every
step either takes a token, opens or closes a node, or records a fault. Fillers are set aside until
a node takes the next token; between statements each becomes a segment of its own. A keyword or
the end of the text closes whatever is open, so no statement reaches into the next.
-/

namespace BibStyle

namespace Machine

/-- A group of a statement whose closing brace has not come yet. -/
structure Slot where
  field : Field
  cls : Class
  filled : Bool
deriving DecidableEq

/-- How far a stretch of unexpected tokens goes. Inside braces it ends before the brace that closes
them, or before a token that `resume` accepts. -/
structure Recovery where
  mode : Mode
  braced : Bool
  resume : Option Class
deriving DecidableEq

/-- A node that is still open, by what may come next in it. -/
inductive Frame where
  | statement (command : Command) (items : List Item) (slot : Option Slot)
  | list (field : Field)
  | block (field : Field)
  | ref
  | unexpected (found : TokenKind) (recovery : Recovery) (depth : Nat)
deriving DecidableEq

namespace Frame

def kind : Frame → NodeKind
  | .statement c _ _ => .statement c
  | .list _ => .identifierList
  | .block _ => .block
  | .ref => .ref
  | .unexpected .. => .error

def field : Frame → Option Field
  | .list f | .block f => some f
  | .ref => some .term
  | .statement .. | .unexpected .. => none

/-- The mode in which the next token is read. -/
def mode : Frame → Mode
  | .statement _ _ (some slot) => slot.cls.mode
  | .unexpected _ recovery _ => recovery.mode
  | _ => .normal

end Frame

/-- A frame and the children of its node so far, last first. -/
structure Level where
  frame : Frame
  children : List Node

structure State where
  /-- The text that has not been read. -/
  rest : Text
  /-- The offset at which `rest` starts. -/
  pos : Nat
  /-- Fillers read and not attached yet, last first. -/
  pending : List Token
  /-- The open nodes, innermost first. -/
  stack : List Level
  /-- A keyword or the end of the text has closed something in the current segment. -/
  early : Bool
  /-- The finished segments, last first. -/
  segments : List Segment

/-- The next token that is no filler, with the text after it. -/
abbrev Lookahead := Option (Token × Text)

namespace State

/-- Between statements, with `text` to read from offset `pos` on. -/
def init (pos : Nat) (text : Text) : State := ⟨text, pos, [], [], false, []⟩

def mode (s : State) : Mode :=
  match s.stack with
  | level :: _ => level.frame.mode
  | [] => .normal

@[simp] theorem mode_init (pos : Nat) (text : Text) : (init pos text).mode = .normal := rfl

/-- Add a node to the innermost open one; between statements it is a segment. -/
def attach (s : State) (n : Node) : State :=
  match s.stack with
  | ⟨frame, children⟩ :: below => { s with stack := ⟨frame, n :: children⟩ :: below }
  | [] => { s with segments := ⟨n, false⟩ :: s.segments }

/-- Attach the fillers that were set aside. -/
def flush (s : State) : State :=
  s.pending.foldr (fun t s => s.attach (.ofToken none t)) { s with pending := [] }

theorem flush_of_pending_nil {s : State} (h : s.pending = []) : s.flush = s := by
  unfold flush
  rw [h]
  cases s
  simp_all

/-- Set a filler aside. -/
def skip (s : State) (t : Token) (rest : Text) : State :=
  { s with rest, pos := s.pos + t.size, pending := t :: s.pending }

/-- Attach the token `t`, after which the text goes on with `rest`. -/
def take (s : State) (field : Option Field) (t : Token) (rest : Text) : State :=
  { s.flush.attach (.ofToken field t) with rest, pos := s.pos + t.size }

/-- Open a node for `frame`. -/
def enter (s : State) (frame : Frame) : State :=
  { s.flush with stack := ⟨frame, []⟩ :: s.flush.stack }

/-- Put a marker behind what is attached, before the fillers set aside. -/
def mark (s : State) (fault : Fault) : State := s.attach (.marker fault)

def setFrame (s : State) (frame : Frame) : State :=
  match s.stack with
  | level :: below => { s with stack := { level with frame } :: below }
  | [] => s

def closeEarly (s : State) : State := { s with early := true }

/-- Close the innermost node; closing the outermost one completes its segment. -/
def close (s : State) (fault : Option Fault) : State :=
  match s.stack with
  | [] => s
  | ⟨frame, children⟩ :: below =>
      let node := Node.branch frame.kind frame.field fault children.reverse
      match below with
      | [] => { s with stack := [], segments := ⟨node, !s.early⟩ :: s.segments }
      | _ => { s with stack := below }.attach node

/-- Start a node of unexpected tokens at the token `t`, which the next step takes. -/
def recover (s : State) (t : Token) (recovery : Recovery) : State :=
  s.enter (.unexpected t.kind recovery 0)

/-! ## What each open node does with the next token -/

def inItems (s : State) (command : Command) (items : List Item) : Lookahead → State
  | some (t, rest) =>
      match t.kind, items with
      | .lbrace, .list f :: items =>
          ((s.setFrame (.statement command items none)).enter (.list f)).take none t rest
      | .lbrace, .block f :: items =>
          ((s.setFrame (.statement command items none)).enter (.block f)).take none t rest
      | .lbrace, .group f cls :: items =>
          (s.setFrame (.statement command items (some ⟨f, cls, false⟩))).take none t rest
      | .keyword, _ => (s.mark (.missing .lbrace)).closeEarly
      | _, _ => s.closeEarly.recover t ⟨.normal, false, none⟩
  | none => (s.mark (.missing .lbrace)).closeEarly

/-- Leave a group that has no closing brace. -/
def leaveGroup (s : State) (command : Command) (items : List Item) : State :=
  ((s.mark (.unterminated .group)).setFrame (.statement command items none)).closeEarly

def inSlot (s : State) (command : Command) (items : List Item) (slot : Slot) : Lookahead → State
  | some (t, rest) =>
      match t.kind with
      | .rbrace =>
          let s := if slot.filled then s else s.flush.mark (.missing slot.cls.expected)
          (s.setFrame (.statement command items none)).take none t rest
      | .keyword => s.leaveGroup command items
      | kind =>
          if !slot.filled && slot.cls.accepts kind then
            (s.setFrame (.statement command items (some { slot with filled := true }))).take
              (some slot.field) t rest
          else
            s.recover t ⟨slot.cls.mode, true, if slot.filled then none else some slot.cls⟩
  | none => s.leaveGroup command items

def inList (s : State) : Lookahead → State
  | some (t, rest) =>
      match t.kind with
      | .rbrace => (s.take none t rest).close none
      | .identifier => s.take none t rest
      | .keyword => s.closeEarly.close (some (.unterminated .identifierList))
      | _ => s.recover t ⟨.normal, true, some .identifier⟩
  | none => s.closeEarly.close (some (.unterminated .identifierList))

def inBlock (s : State) : Lookahead → State
  | some (t, rest) =>
      match t.kind with
      | .rbrace => (s.take none t rest).close none
      | .lbrace => (s.enter (.block .term)).take none t rest
      | .quote => (s.enter .ref).take none t rest
      | .keyword => s.closeEarly.close (some (.unterminated .block))
      | kind =>
          if kind.isTerm then s.take (some .term) t rest
          else s.recover t ⟨.normal, true, none⟩
  | none => s.closeEarly.close (some (.unterminated .block))

def inRef (s : State) : Lookahead → State
  | some (t, rest) =>
      if t.kind.isSymbol then (s.take (some .symbol) t rest).close none
      else (s.mark (.missing .symbol)).close none
  | none => (s.mark (.missing .symbol)).close none

def inUnexpected (s : State) (found : TokenKind) (recovery : Recovery) (depth : Nat) :
    Lookahead → State
  | some (t, rest) =>
      let fault := some (Fault.unexpected (.token found))
      if t.kind = .keyword then s.closeEarly.close fault
      else if recovery.braced && depth == 0 &&
          (t.kind == .rbrace || recovery.resume.any (·.accepts t.kind)) then
        s.close fault
      else
        let depth := match t.kind with
          | .lbrace => depth + 1
          | .rbrace => depth - 1
          | _ => depth
        (s.setFrame (.unexpected found recovery depth)).take none t rest
  | none => s.closeEarly.close (some (.unexpected (.token found)))

def inFrame (s : State) (look : Lookahead) : Frame → State
  | .statement command items none => s.inItems command items look
  | .statement command items (some slot) => s.inSlot command items slot look
  | .list _ => s.inList look
  | .block _ => s.inBlock look
  | .ref => s.inRef look
  | .unexpected found recovery depth => s.inUnexpected found recovery depth look

/-- Nothing more belongs to the statement on top of the stack. -/
def isSettled (s : State) : Bool :=
  match s.stack with
  | ⟨.statement _ items none, _⟩ :: _ => s.early || items.isEmpty
  | _ => false

end State

/-- What a step leads to: another state, or the end of the run. A run may end early at a statement
that an earlier tree already has, as its segment of the given index. -/
inductive Step where
  | next (s : State)
  | done (segments : List Segment) (resumed : Option Nat)

/-- Between statements. A statement that starts at offset `p` with `resume p = some i` is not read
again. -/
def atTop (resume : Nat → Option Nat) (s : State) : Lookahead → Step
  | some (t, rest) =>
      let s := s.flush
      let fresh := { s with early := false }
      match t.kind, Command.ofWord? t.text with
      | .keyword, some command =>
          match resume s.pos with
          | some i => .done s.segments.reverse (some i)
          | none => .next ((fresh.enter (.statement command command.items none)).take none t rest)
      | _, _ => .next (fresh.recover t ⟨.normal, false, none⟩)
  | none => .done s.flush.segments.reverse none

def step (resume : Nat → Option Nat) (s : State) : Step :=
  if s.isSettled then .next (s.close none)
  else
    let act (look : Lookahead) : Step :=
      match s.stack with
      | level :: _ => .next (s.inFrame look level.frame)
      | [] => atTop resume s look
    match lex s.mode s.rest with
    | some (t, rest) => if t.kind.isFiller then .next (s.skip t rest) else act (some (t, rest))
    | none => act none

/-- Run at most `fuel` steps. -/
def run (resume : Nat → Option Nat) : Nat → State → Option (List Segment × Option Nat)
  | 0, _ => none
  | fuel + 1, s =>
      match step resume s with
      | .next s => run resume fuel s
      | .done segments resumed => some (segments, resumed)

/-- More fuel does not change what a run that ends comes to. -/
theorem run_of_le {resume : Nat → Option Nat} {fuel more : Nat} {s : State}
    {result : List Segment × Option Nat} (h : run resume fuel s = some result)
    (hle : fuel ≤ more) : run resume more s = some result := by
  induction fuel generalizing more s with
  | zero => simp [run] at h
  | succ fuel ih =>
      obtain ⟨k, rfl⟩ : ∃ k, more = k + 1 := ⟨more - 1, by omega⟩
      simp only [run] at h ⊢
      split at h
      · exact ih h (by omega)
      · exact h

/-- Steps enough for any text of `n` bytes: a byte leads to at most three. -/
def enough (n : Nat) : Nat := 3 * n + 1

/-- The segments of `text`, which starts at offset `pos`, and the index of the earlier tree's
segment that the run stopped at, if any. -/
def segments (resume : Nat → Option Nat) (pos : Nat) (text : Text) : List Segment × Option Nat :=
  (run resume (enough text.size) (.init pos text)).getD ([], none)

end Machine

end BibStyle
