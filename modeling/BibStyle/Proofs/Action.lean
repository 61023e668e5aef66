import BibStyle.Machine

/-!
# What a step of the machine decides

An open node decides what to do from its frame and the kind of the next token alone; what it does
is one of nine actions on the state. This file writes the decision down as a function
(`Frame.action`), the effect as another (`Action.run`), and shows that the machine does just that
(`inFrame_eq_run`). A property of all runs is then shown once for each action, and a fact about
decisions once for each frame.
-/

namespace BibStyle

namespace Machine

/-- What an open node does with the next token. -/
inductive Action where
  /-- Take the token; the node goes on as `frame`. -/
  | take (frame : Frame) (field : Option Field)
  /-- Note what the braces should have held, then take the closing one. -/
  | fill (missing : Expected) (frame : Frame)
  /-- Open a node inside and take the token into it. -/
  | descend (frame child : Frame)
  /-- Take the token as the last one of the node. -/
  | finish (field : Option Field)
  /-- Close the node because a keyword or the end of the text has come. -/
  | abort (fault : Fault)
  /-- Close a stretch of unexpected tokens before one that is expected. -/
  | stop (fault : Fault)
  /-- Close the node without the token it should have ended with. -/
  | lack (fault : Fault)
  /-- Give up the parts of the statement that have not come. -/
  | abandon (fault : Fault) (frame : Frame)
  /-- Open a node of unexpected tokens; in the header of a statement that gives up the rest. -/
  | recover (found : TokenKind) (recovery : Recovery) (header : Bool)
deriving DecidableEq

namespace Action

/-- The action takes the next token. -/
def takes : Action → Bool
  | .take .. | .fill .. | .descend .. | .finish .. => true
  | .abort .. | .stop .. | .lack .. | .abandon .. | .recover .. => false

/-- The open nodes after the action, by their frames. -/
def frames : Action → List Frame → List Frame
  | .take f _, fs | .fill _ f, fs | .abandon _ f, fs => f :: fs.tail
  | .descend f g, fs => g :: f :: fs.tail
  | .finish _, fs | .abort _, fs | .stop _, fs | .lack _, fs => fs.tail
  | .recover found recovery _, fs => .unexpected found recovery 0 :: fs

/-- Whether something in the segment is closed early after the action. -/
def early : Action → Bool → Bool
  | .abort _, _ | .abandon .., _ => true
  | .recover _ _ header, e => header || e
  | _, e => e

end Action

namespace Frame

/-- The decision between the parts of a statement. -/
def itemAction (command : Command) : List Item → Option TokenKind → Action
  | .list f :: items, some .lbrace => .descend (.statement command items none) (.list f)
  | .block f :: items, some .lbrace => .descend (.statement command items none) (.block f)
  | .group f cls :: items, some .lbrace =>
      .take (.statement command items (some ⟨f, cls, false⟩)) none
  | items, some .keyword => .abandon (.missing .lbrace) (.statement command items none)
  | _, some kind => .recover kind ⟨.normal, false, none⟩ true
  | items, none => .abandon (.missing .lbrace) (.statement command items none)

/-- The decision inside a group of a statement. -/
def slotAction (command : Command) (items : List Item) (slot : Slot) : Option TokenKind → Action
  | some .rbrace =>
      if slot.filled then .take (.statement command items none) none
      else .fill slot.cls.expected (.statement command items none)
  | some .keyword => .abandon (.unterminated .group) (.statement command items none)
  | some kind =>
      if !slot.filled && slot.cls.accepts kind then
        .take (.statement command items (some { slot with filled := true })) (some slot.field)
      else .recover kind ⟨slot.cls.mode, true, if slot.filled then none else some slot.cls⟩ false
  | none => .abandon (.unterminated .group) (.statement command items none)

def listAction (f : Field) : Option TokenKind → Action
  | some .rbrace => .finish none
  | some .identifier => .take (.list f) none
  | some .keyword => .abort (.unterminated .identifierList)
  | some kind => .recover kind ⟨.normal, true, some .identifier⟩ false
  | none => .abort (.unterminated .identifierList)

def blockAction (f : Field) : Option TokenKind → Action
  | some .rbrace => .finish none
  | some .lbrace => .descend (.block f) (.block .term)
  | some .quote => .descend (.block f) .ref
  | some .keyword => .abort (.unterminated .block)
  | some kind =>
      if kind.isTerm then .take (.block f) (some .term)
      else .recover kind ⟨.normal, true, none⟩ false
  | none => .abort (.unterminated .block)

def refAction : Option TokenKind → Action
  | some kind => if kind.isSymbol then .finish (some .symbol) else .lack (.missing .symbol)
  | none => .lack (.missing .symbol)

/-- The number of braces open in a stretch of unexpected tokens, after one more token. -/
def nextDepth (depth : Nat) : TokenKind → Nat
  | .lbrace => depth + 1
  | .rbrace => depth - 1
  | _ => depth

/-- A stretch of unexpected tokens ends before a token of the kind. -/
def stopsAt (recovery : Recovery) (depth : Nat) (kind : TokenKind) : Bool :=
  recovery.braced && depth == 0 && (kind == .rbrace || recovery.resume.any (·.accepts kind))

def unexpectedAction (found : TokenKind) (recovery : Recovery) (depth : Nat) :
    Option TokenKind → Action
  | some kind =>
      if kind = .keyword then .abort (.unexpected (.token found))
      else if stopsAt recovery depth kind then .stop (.unexpected (.token found))
      else .take (.unexpected found recovery (nextDepth depth kind)) none
  | none => .abort (.unexpected (.token found))

/-- Between the parts of a statement, only an opening brace and a keyword are expected. -/
theorem itemAction_of_ne (command : Command) (items : List Item) {k : TokenKind}
    (hl : k ≠ .lbrace) (hkey : k ≠ .keyword) :
    itemAction command items (some k) = .recover k ⟨.normal, false, none⟩ true := by
  cases k with
  | lbrace => exact absurd rfl hl
  | keyword => exact absurd rfl hkey
  | _ => rcases items with - | ⟨f | ⟨f, cls⟩ | f, items⟩ <;> rfl

/-- In a group, what is neither a closing brace nor a keyword fills it or is unexpected. -/
theorem slotAction_of_ne (command : Command) (items : List Item) (slot : Slot)
    {k : TokenKind} (hr : k ≠ .rbrace) (hkey : k ≠ .keyword) :
    slotAction command items slot (some k) =
      if !slot.filled && slot.cls.accepts k then
        .take (.statement command items (some { slot with filled := true })) (some slot.field)
      else
        .recover k ⟨slot.cls.mode, true, if slot.filled then none else some slot.cls⟩ false := by
  cases k with
  | rbrace => exact absurd rfl hr
  | keyword => exact absurd rfl hkey
  | _ => rfl

/-- A stretch of unexpected tokens is closed early, ends before a token, or goes on. -/
theorem unexpectedAction_cases (found : TokenKind) (recovery : Recovery) (depth : Nat)
    (kind : Option TokenKind) :
    (unexpectedAction found recovery depth kind = .abort (.unexpected (.token found)) ∧
        (kind = none ∨ kind = some .keyword)) ∨
      ∃ k, kind = some k ∧ k ≠ .keyword ∧
        ((stopsAt recovery depth k = true ∧
            unexpectedAction found recovery depth kind = .stop (.unexpected (.token found))) ∨
          (stopsAt recovery depth k = false ∧
            unexpectedAction found recovery depth kind =
              .take (.unexpected found recovery (nextDepth depth k)) none)) := by
  rcases kind with - | k
  · exact .inl ⟨rfl, .inl rfl⟩
  · by_cases hk : k = .keyword
    · subst hk
      exact .inl ⟨rfl, .inr rfl⟩
    · refine .inr ⟨k, rfl, hk, ?_⟩
      cases hs : stopsAt recovery depth k with
      | true => exact .inl ⟨rfl, by simp [unexpectedAction, hk, hs]⟩
      | false => exact .inr ⟨rfl, by simp [unexpectedAction, hk, hs]⟩

/-- What the innermost open node decides, from the kind of the next token that is no filler. -/
def action : Frame → Option TokenKind → Action
  | .statement command items none => itemAction command items
  | .statement command items (some slot) => slotAction command items slot
  | .list f => listAction f
  | .block f => blockAction f
  | .ref => refAction
  | .unexpected found recovery depth => unexpectedAction found recovery depth

/-- The end of the text is taken for a keyword. -/
theorem action_none (f : Frame) : f.action none = f.action (some .keyword) := by
  cases f with
  | statement command items slot =>
      cases slot with
      | none =>
          cases items with
          | nil => rfl
          | cons item items => cases item <;> rfl
      | some slot => rfl
  | list f => rfl
  | block f => rfl
  | ref => rfl
  | unexpected found recovery depth => rfl

/-- A keyword is never taken into an open node. -/
theorem takes_action_keyword (f : Frame) : (f.action (some .keyword)).takes = false := by
  cases f with
  | statement command items slot =>
      cases slot with
      | none =>
          cases items with
          | nil => rfl
          | cons item items => cases item <;> rfl
      | some slot => rfl
  | list f => rfl
  | block f => rfl
  | ref => rfl
  | unexpected found recovery depth => rfl

theorem isSome_of_takes {f : Frame} {kind : Option TokenKind}
    (h : (f.action kind).takes = true) : kind.isSome = true := by
  cases kind with
  | none => rw [action_none, takes_action_keyword] at h; cases h
  | some kind => rfl

/-- What makes a node recover is the first token of the stretch that follows: it is read in the
same mode and does not end the stretch. -/
theorem action_recover {f : Frame} {kind : Option TokenKind} {found : TokenKind}
    {recovery : Recovery} {header : Bool} (h : f.action kind = .recover found recovery header) :
    kind = some found ∧ recovery.mode = f.mode ∧
      (Frame.unexpected found recovery 0).action (some found) =
        .take (.unexpected found recovery (nextDepth 0 found)) none := by
  rcases kind with - | kind
  · rw [action_none] at h
    cases f with
    | statement command items slot =>
        cases slot with
        | none =>
            cases items with
            | nil => cases h
            | cons item items => cases item <;> cases h
        | some slot => cases h
    | list f => cases h
    | block f => cases h
    | ref => cases h
    | unexpected => cases h
  · cases f with
    | statement command items slot =>
        cases slot with
        | none =>
            rcases items with - | ⟨f | ⟨f, cls⟩ | f, items⟩ <;> cases kind <;> cases h <;>
              exact ⟨rfl, rfl, rfl⟩
        | some slot =>
            obtain ⟨f, cls, filled⟩ := slot
            cases cls <;> cases filled <;> cases kind <;> cases h <;> exact ⟨rfl, rfl, rfl⟩
    | list f => cases kind <;> cases h <;> exact ⟨rfl, rfl, rfl⟩
    | block f => cases kind <;> cases h <;> exact ⟨rfl, rfl, rfl⟩
    | ref => cases kind <;> cases h
    | unexpected found' recovery' depth =>
        simp only [action, unexpectedAction] at h
        split at h
        · cases h
        · split at h <;> cases h

/-- A decision is one on a kind of token, the end of the text being a keyword. -/
theorem action_eq_some (f : Frame) (kind : Option TokenKind) :
    f.action kind = f.action (some (kind.getD .keyword)) := by
  cases kind with
  | none => exact action_none f
  | some kind => rfl

/-- Nodes are opened by the parts of a statement and by blocks. -/
theorem action_descend {f g child : Frame} {kind : Option TokenKind}
    (h : f.action kind = .descend g child) :
    (∃ command item items, f = .statement command (item :: items) none ∧
        g = .statement command items none ∧
        (child = .list item.field ∨ child = .block item.field)) ∨
      ∃ field, f = .block field ∧ g = f ∧ (child = .block .term ∨ child = .ref) := by
  rw [action_eq_some] at h
  generalize kind.getD .keyword = k at h
  cases f with
  | statement command items slot =>
      cases slot with
      | none =>
          rcases items with - | ⟨f | ⟨f, cls⟩ | f, items⟩ <;> cases k <;> cases h
          · exact .inl ⟨command, .list f, items, rfl, rfl, .inl rfl⟩
          · exact .inl ⟨command, .block f, items, rfl, rfl, .inr rfl⟩
      | some slot =>
          obtain ⟨f, cls, filled⟩ := slot
          cases cls <;> cases filled <;> cases k <;> cases h
  | list f => cases k <;> cases h
  | block f =>
      cases k <;> cases h
      · exact .inr ⟨f, rfl, rfl, .inl rfl⟩
      · exact .inr ⟨f, rfl, rfl, .inr rfl⟩
  | ref => cases k <;> cases h
  | unexpected found recovery depth =>
      simp only [action] at h
      rcases unexpectedAction_cases found recovery depth (some k) with ⟨ha, -⟩ |
        ⟨k, -, -, ⟨-, ha⟩ | ⟨-, ha⟩⟩ <;> rw [ha] at h <;> cases h

/-- Only statements give up parts. -/
theorem action_abandon {f g : Frame} {kind : Option TokenKind} {fault : Fault}
    (h : f.action kind = .abandon fault g) :
    ∃ command items slot, f = .statement command items slot ∧
      g = .statement command items none := by
  rw [action_eq_some] at h
  generalize kind.getD .keyword = k at h
  cases f with
  | statement command items slot =>
      refine ⟨command, items, slot, rfl, ?_⟩
      cases slot with
      | none =>
          rcases items with - | ⟨f | ⟨f, cls⟩ | f, items⟩ <;> cases k <;> cases h <;> rfl
      | some slot =>
          obtain ⟨f, cls, filled⟩ := slot
          cases cls <;> cases filled <;> cases k <;> cases h <;> rfl
  | list f => cases k <;> cases h
  | block f => cases k <;> cases h
  | ref => cases k <;> cases h
  | unexpected found recovery depth =>
      simp only [action] at h
      rcases unexpectedAction_cases found recovery depth (some k) with ⟨ha, -⟩ |
        ⟨k, -, -, ⟨-, ha⟩ | ⟨-, ha⟩⟩ <;> rw [ha] at h <;> cases h

end Frame

/-- The state after an action. Actions that take a token are for a text that has one. -/
def Action.run (a : Action) (s : State) (look : Lookahead) : State :=
  match a, look with
  | .take frame field, some (t, rest) => (s.setFrame frame).take field t rest
  | .fill missing frame, some (t, rest) =>
      ((s.flush.mark (.missing missing)).setFrame frame).take none t rest
  | .descend frame child, some (t, rest) => ((s.setFrame frame).enter child).take none t rest
  | .finish field, some (t, rest) => (s.take field t rest).close none
  | .abort fault, _ => s.closeEarly.close (some fault)
  | .stop fault, _ => s.close (some fault)
  | .lack fault, _ => (s.mark fault).close none
  | .abandon fault frame, _ => ((s.mark fault).setFrame frame).closeEarly
  | .recover found recovery header, _ =>
      (if header then s.closeEarly else s).enter (.unexpected found recovery 0)
  | .take .., none | .fill .., none | .descend .., none | .finish .., none => s

namespace State

variable {s : State} {frame : Frame} {children : List Node} {below : List Level}

theorem setFrame_self (h : s.stack = ⟨frame, children⟩ :: below) : s.setFrame frame = s := by
  cases s
  simp_all [setFrame]

theorem setFrame_mark_self {fault : Fault} (h : s.stack = ⟨frame, children⟩ :: below) :
    (s.mark fault).setFrame frame = s.mark fault := by
  have h' : (s.mark fault).stack = ⟨frame, .marker fault :: children⟩ :: below := by
    simp only [mark, attach, h]
  exact setFrame_self h'

theorem inItems_eq_run {command : Command} {items : List Item} (look : Lookahead)
    (h : s.stack = ⟨.statement command items none, children⟩ :: below) :
    s.inItems command items look =
      (Frame.itemAction command items (look.map (·.1.kind))).run s look := by
  rcases look with - | ⟨⟨kind, text⟩, rest⟩
  · cases items <;> simp [inItems, Frame.itemAction, Action.run, setFrame_mark_self h]
  · cases kind <;> rcases items with - | ⟨f | ⟨f, cls⟩ | f, items⟩ <;>
      simp [inItems, Frame.itemAction, Action.run, setFrame_mark_self h, recover]

theorem inSlot_eq_run (command : Command) (items : List Item) (slot : Slot) (look : Lookahead) :
    s.inSlot command items slot look =
      (Frame.slotAction command items slot (look.map (·.1.kind))).run s look := by
  obtain ⟨f, cls, filled⟩ := slot
  rcases look with - | ⟨⟨kind, text⟩, rest⟩
  · rfl
  · cases filled <;> cases kind <;> cases cls <;> rfl

theorem inList_eq_run {f : Field} (look : Lookahead)
    (h : s.stack = ⟨.list f, children⟩ :: below) :
    s.inList look = (Frame.listAction f (look.map (·.1.kind))).run s look := by
  rcases look with - | ⟨⟨kind, text⟩, rest⟩
  · rfl
  · cases kind <;> simp [inList, Frame.listAction, Action.run, setFrame_self h, recover]

theorem inBlock_eq_run {f : Field} (look : Lookahead)
    (h : s.stack = ⟨.block f, children⟩ :: below) :
    s.inBlock look = (Frame.blockAction f (look.map (·.1.kind))).run s look := by
  rcases look with - | ⟨⟨kind, text⟩, rest⟩
  · rfl
  · cases kind <;>
      simp [inBlock, Frame.blockAction, Action.run, setFrame_self h, recover, TokenKind.isTerm]

theorem inRef_eq_run (look : Lookahead) :
    s.inRef look = (Frame.refAction (look.map (·.1.kind))).run s look := by
  rcases look with - | ⟨⟨kind, text⟩, rest⟩
  · rfl
  · cases kind <;> rfl

theorem inUnexpected_eq_run (found : TokenKind) (recovery : Recovery) (depth : Nat)
    (look : Lookahead) :
    s.inUnexpected found recovery depth look =
      (Frame.unexpectedAction found recovery depth (look.map (·.1.kind))).run s look := by
  rcases look with - | ⟨⟨kind, text⟩, rest⟩
  · rfl
  · by_cases hk : kind = .keyword
    · subst hk
      rfl
    · simp only [inUnexpected, Frame.unexpectedAction, Option.map_some, if_neg hk]
      by_cases hs : Frame.stopsAt recovery depth kind = true
      · rw [if_pos hs]
        exact if_pos hs
      · rw [if_neg hs]
        refine (if_neg hs).trans ?_
        cases kind <;> rfl

/-- An open node does with the next token what its frame decides. -/
theorem inFrame_eq_run (look : Lookahead) (h : s.stack = ⟨frame, children⟩ :: below) :
    s.inFrame look frame = (frame.action (look.map (·.1.kind))).run s look := by
  cases frame with
  | statement command items slot =>
      cases slot with
      | none => exact inItems_eq_run look h
      | some slot => exact inSlot_eq_run command items slot look
  | list f => exact inList_eq_run look h
  | block f => exact inBlock_eq_run look h
  | ref => exact inRef_eq_run look
  | unexpected found recovery depth => exact inUnexpected_eq_run found recovery depth look

end State

end Machine

end BibStyle
