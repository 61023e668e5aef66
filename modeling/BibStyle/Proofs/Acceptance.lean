import BibStyle.Proofs.Derivation
import BibStyle.Proofs.Graft
import BibStyle.Proofs.Places

/-!
# The parser accepts its grammar

A text has no fault exactly if the grammar derives it. Both directions are one induction over the
run (`Ends.accepts_iff`): `Accepts s` says that nothing is flawed yet and that the text left to read
completes the open nodes, and a step changes neither its truth nor its falsehood. At the start this
is derivability, at the end that no segment is flawed.

A node asks of the tokens ahead what its frame `Expects`; a stack of nodes asks for these one after
the other (`Remaining`). The decision on the next token is the one way to go on with a derivation
(`remaining_cons_iff`): tokens are taken where a derivation has them, and where it has none the
machine leaves a fault.
-/

namespace BibStyle

open Grammar

namespace Machine

/-! ## Flaws in a state -/

/-- The node that is open is flawed whatever follows. -/
def Level.flawed (level : Level) : Bool :=
  decide (level.frame.kind = .error) || level.children.any Node.flawed

/-- The token is a fault by itself. -/
def isFaulty (t : Token) : Bool := (Fault.ofToken? t.kind).isSome

theorem isFaulty_of_not_filler {t : Token} (h : t.kind.isFiller = false) : isFaulty t = false := by
  cases hk : t.kind <;> simp_all [isFaulty, Fault.ofToken?, TokenKind.isFiller]

theorem isTrivia_of_not_filler {kind : TokenKind} (h : kind.isFiller = false) :
    kind.isTrivia = false := by
  rw [Bool.eq_false_iff]
  intro ht
  rw [TokenKind.isFiller_of_isTrivia ht] at h
  cases h

theorem isFaulty_of_isTrivia {t : Token} (h : t.kind.isTrivia = true) : isFaulty t = false := by
  cases hk : t.kind <;> simp_all [isFaulty, Fault.ofToken?, TokenKind.isTrivia]

namespace State

/-- Something read so far is a fault. -/
def flawed (s : State) : Bool :=
  s.segments.any (·.node.flawed) || s.stack.any Level.flawed || s.pending.any isFaulty

section Operations

variable (s : State)

@[simp] theorem flawed_attach (n : Node) : (s.attach n).flawed = (s.flawed || n.flawed) := by
  unfold attach flawed
  split
  · rename_i h
    simp only [h, List.any_cons, Level.flawed]
    grind
  · rename_i h
    simp only [h, List.any_cons]
    grind

@[simp] theorem flawed_flush : s.flush.flawed = s.flawed := by
  have hbase : s.flawed =
      (({ s with pending := [] } : State).flawed || s.pending.any isFaulty) := by
    simp [flawed]
  unfold flush
  rw [hbase]
  generalize ({ s with pending := [] } : State) = u
  induction s.pending with
  | nil => simp
  | cons t ts ih =>
      rw [List.foldr_cons, flawed_attach, ih, Node.flawed_ofToken, List.any_cons, isFaulty]
      grind

@[simp] theorem flawed_mark (fault : Fault) : (s.mark fault).flawed = true := by
  simp [mark]

@[simp] theorem flawed_closeEarly : s.closeEarly.flawed = s.flawed := rfl

@[simp] theorem flawed_take (field : Option Field) (t : Token) (rest : Text) :
    (s.take field t rest).flawed = (s.flawed || isFaulty t) := by
  have h : (s.take field t rest).flawed = (s.flush.attach (.ofToken field t)).flawed := rfl
  rw [h, flawed_attach, flawed_flush, Node.flawed_ofToken, isFaulty]

@[simp] theorem flawed_skip (t : Token) (rest : Text) :
    (s.skip t rest).flawed = (s.flawed || isFaulty t) := by
  simp only [skip, flawed, List.any_cons]
  grind

@[simp] theorem flawed_enter (frame : Frame) :
    (s.enter frame).flawed = (s.flawed || decide (frame.kind = .error)) := by
  rw [← flawed_flush s]
  simp only [enter, flawed, List.any_cons, Level.flawed, List.any_nil, Bool.or_false]
  grind

@[simp] theorem flawed_atRest : s.atRest.flawed = s.flawed := flawed_flush s

end Operations

variable {s : State} {f : Frame} {fs : List Frame}

theorem flawed_setFrame {g : Frame} (h : s.frames = f :: fs) (hk : g.kind = f.kind) :
    (s.setFrame g).flawed = s.flawed := by
  obtain ⟨level, below, hs, rfl, -⟩ := List.map_eq_cons_iff.1 h
  simp [setFrame, hs, flawed, Level.flawed, hk]

/-- Closing a node puts its flaws and its own fault where the node goes. -/
theorem flawed_close {children : List Node} {below : List Level} (fault : Option Fault)
    (h : s.stack = ⟨f, children⟩ :: below) :
    (s.close fault).flawed = (({ s with stack := below } : State).flawed ||
      (fault.isSome || children.any Node.flawed)) := by
  have hnode : (Node.branch f.kind f.field fault children.reverse).flawed =
      (fault.isSome || children.any Node.flawed) := by
    rw [Node.flawed, Node.flawedAll_eq_any, List.any_reverse]
  unfold close
  rw [h]
  cases below with
  | nil =>
      simp only [flawed, List.any_cons, hnode, List.any_nil]
      grind
  | cons level below => exact (flawed_attach _ _).trans (by rw [hnode])

theorem flawed_close_none (h : s.frames = f :: fs) (hk : f.kind ≠ .error) :
    (s.close none).flawed = s.flawed := by
  obtain ⟨⟨frame, children⟩, below, hs, rfl, -⟩ := List.map_eq_cons_iff.1 h
  rw [flawed_close none hs]
  simp only [flawed, hs, List.any_cons, Level.flawed, decide_eq_false hk, Option.isSome_none]
  grind

theorem flawed_close_some (fault : Fault) (h : s.frames = f :: fs) :
    (s.close (some fault)).flawed = true := by
  obtain ⟨⟨frame, children⟩, below, hs, rfl, -⟩ := List.map_eq_cons_iff.1 h
  rw [flawed_close (some fault) hs]
  simp

end State

namespace Action

/-- The action takes the token into the node, as a derivation would. -/
def isClean : Action → Bool
  | .take .. | .descend .. | .finish _ => true
  | _ => false

/-- The action leaves a node with the frame the kind it has, and opens and closes without a fault
only what is none. -/
def Suits (f : Frame) : Action → Prop
  | .take g _ | .fill _ g | .abandon _ g => g.kind = f.kind
  | .descend g child => g.kind = f.kind ∧ child.kind ≠ .error
  | .finish _ | .lack _ => f.kind ≠ .error
  | .abort _ | .stop _ | .recover .. => True

/-- What is not clean leaves a flaw. -/
theorem flawed_run {a : Action} {s : State} {look : Lookahead} {f : Frame} {fs : List Frame}
    (h : s.frames = f :: fs) (ha : a.Suits f) (hl : a.takes = true → look.isSome = true)
    (hsolid : Solid look) : (a.run s look).flawed = (s.flawed || !a.isClean) := by
  cases a with
  | take g field =>
      obtain ⟨⟨t, rest⟩, rfl⟩ := Option.isSome_iff_exists.1 (hl rfl)
      simp [run, isClean, State.flawed_setFrame h ha, isFaulty_of_not_filler (hsolid (t, rest) rfl)]
  | fill e g =>
      obtain ⟨⟨t, rest⟩, rfl⟩ := Option.isSome_iff_exists.1 (hl rfl)
      have hfs : (s.flush.mark (.missing e)).frames = f :: fs := by simpa using h
      simp [run, isClean, State.flawed_setFrame hfs ha]
  | descend g child =>
      obtain ⟨⟨t, rest⟩, rfl⟩ := Option.isSome_iff_exists.1 (hl rfl)
      simp [run, isClean, State.flawed_setFrame h ha.1, ha.2,
        isFaulty_of_not_filler (hsolid (t, rest) rfl)]
  | finish field =>
      obtain ⟨⟨t, rest⟩, rfl⟩ := Option.isSome_iff_exists.1 (hl rfl)
      have hfs : (s.take field t rest).frames = f :: fs := by simpa using h
      simp [run, isClean, State.flawed_close_none hfs ha,
        isFaulty_of_not_filler (hsolid (t, rest) rfl)]
  | abort fault => simp [run, isClean, State.flawed_close_some (s := s.closeEarly) fault h]
  | stop fault => simp [run, isClean, State.flawed_close_some fault h]
  | lack fault =>
      have hfs : (s.mark fault).frames = f :: fs := by simpa using h
      simp [run, isClean, State.flawed_close_none hfs ha]
  | abandon fault g =>
      have hfs : (s.mark fault).frames = f :: fs := by simpa using h
      simp [run, isClean, State.flawed_setFrame hfs ha]
  | recover found recovery header => simp [run, isClean, Frame.kind]

theorem takes_of_isClean {a : Action} (h : a.isClean = true) : a.takes = true := by
  cases a <;> simp_all [takes, isClean]

theorem isClean_of_early {a : Action} {early : Bool} (h : a.early early = true) :
    early = true ∨ a.isClean = false := by
  cases a <;> simp_all [Action.early, isClean]

end Action

/-- A node stays of its kind, and a stretch of unexpected tokens is closed with its fault. -/
theorem Frame.suits_action (f : Frame) (kind : Option TokenKind) : (f.action kind).Suits f := by
  rw [action_eq_some]
  generalize kind.getD .keyword = k
  cases f with
  | statement command items slot =>
      cases slot with
      | none =>
          rcases items with - | ⟨f | ⟨f, cls⟩ | f, items⟩ <;> cases k <;>
            simp [action, itemAction, Action.Suits, Frame.kind]
      | some slot =>
          obtain ⟨f, cls, filled⟩ := slot
          cases cls <;> cases filled <;> cases k <;>
            simp [action, slotAction, Class.accepts, TokenKind.isSymbol, Action.Suits, Frame.kind]
  | list f => cases k <;> simp [action, listAction, Action.Suits, Frame.kind]
  | block f =>
      cases k <;> simp [action, blockAction, TokenKind.isTerm, Action.Suits, Frame.kind]
  | ref => cases k <;> simp [action, refAction, TokenKind.isSymbol, Action.Suits, Frame.kind]
  | unexpected found recovery depth =>
      simp only [action]
      rcases unexpectedAction_cases found recovery depth (some k) with ⟨ha, -⟩ |
        ⟨k, -, -, ⟨-, ha⟩ | ⟨-, ha⟩⟩ <;> rw [ha] <;> simp [Action.Suits, Frame.kind]

/-! ## What the open nodes ask for -/

/-- The tokens that complete a node with the frame, and then `k`. -/
def Frame.Expects : Frame → (List Lexeme → Prop) → List Lexeme → Prop
  | .statement _ items none, k => Parts items k
  | .statement _ items (some slot), k =>
      if slot.filled then First (IsToken .rbrace) (Parts items k)
      else First (InClass slot.cls) (First (IsToken .rbrace) (Parts items k))
  | .list _, k => ListRest k
  | .block _, k => BlockRest k
  | .ref, k => First IsSymbol k
  | .unexpected .., _ => fun _ => False

/-- The tokens that complete the open nodes, and then a source file. -/
def Remaining : List Frame → List Lexeme → Prop
  | [] => SourceFile
  | f :: fs => f.Expects (Remaining fs)

/-- The mode in which a derivation has the next token: that of the node, except for the brace that
closes it. -/
def Frame.tokenMode (f : Frame) (kind : TokenKind) : Mode :=
  if kind = .rbrace then .normal else f.mode

theorem remaining_nil {f : Frame} {fs : List Frame}
    (hopen : ∀ command items, f = .statement command items none → items ≠ []) :
    ¬Remaining (f :: fs) [] := by
  intro h
  cases f with
  | statement command items slot =>
      cases slot with
      | none =>
          rcases items with - | ⟨f | ⟨f, cls⟩ | f, items⟩
          · exact hopen command [] rfl rfl
          · exact after_identifierList.1 h
          · exact (after_group _).1 h
          · exact after_block.1 h
      | some slot =>
          simp only [Remaining, Frame.Expects] at h
          split at h <;> exact h
  | list f => exact listRest_nil.1 h
  | block f => exact blockRest_nil.1 h
  | ref => exact h
  | unexpected => exact h

/-- A derivation of what the node and those around it ask for goes on with the token. -/
def GoesOn (f : Frame) (fs : List Frame) (l : Lexeme) (ts : List Lexeme) : Prop :=
  l.1 = f.tokenMode l.2.kind ∧ (f.action (some l.2.kind)).isClean = true ∧
    Remaining ((f.action (some l.2.kind)).frames (f :: fs)) ts

variable {fs : List Frame} {l : Lexeme} {ts : List Lexeme}

theorem goesOn_items (command : Command) (item : Item) (items : List Item) :
    Remaining (.statement command (item :: items) none :: fs) (l :: ts) ↔
      GoesOn (.statement command (item :: items) none) fs l ts := by
  obtain ⟨m, kind, text⟩ := l
  have hpart : After (Part item) (Parts items (Remaining fs)) ((m, ⟨kind, text⟩) :: ts) ↔
      IsToken .lbrace (m, ⟨kind, text⟩) ∧ Remaining
        ((Frame.itemAction command (item :: items) (some .lbrace)).frames
          (.statement command (item :: items) none :: fs)) ts := by
    cases item with
    | list f => exact after_identifierList
    | group f cls => exact after_group _
    | block f => exact after_block
  simp only [Remaining, Frame.Expects, Parts, hpart, GoesOn]
  cases kind <;> cases item <;>
    simp [IsToken, Frame.action, Frame.itemAction, Action.isClean, Frame.tokenMode, Frame.mode]

theorem goesOn_slot (command : Command) (items : List Item) (slot : Slot) :
    Remaining (.statement command items (some slot) :: fs) (l :: ts) ↔
      GoesOn (.statement command items (some slot)) fs l ts := by
  obtain ⟨m, kind, text⟩ := l
  obtain ⟨f, cls, filled⟩ := slot
  cases filled with
  | false =>
      simp only [Remaining, Frame.Expects, Bool.false_eq_true, if_false, first_cons, inClass_iff,
        GoesOn]
      cases cls <;> cases kind <;>
        simp [Frame.action, Frame.slotAction, Action.isClean, Action.frames, Frame.tokenMode,
          Frame.mode, Remaining, Frame.Expects, Class.accepts, Class.mode, TokenKind.isSymbol]
  | true =>
      simp only [Remaining, Frame.Expects, if_true, first_cons, GoesOn]
      cases kind <;>
        simp [IsToken, Frame.action, Frame.slotAction, Action.isClean, Action.frames,
          Frame.tokenMode, Remaining, Frame.Expects]

theorem goesOn_list (f : Field) :
    Remaining (.list f :: fs) (l :: ts) ↔ GoesOn (.list f) fs l ts := by
  obtain ⟨m, kind, text⟩ := l
  simp only [Remaining, Frame.Expects, listRest_cons, GoesOn]
  cases kind <;>
    simp [IsToken, Frame.action, Frame.listAction, Action.isClean, Action.frames, Frame.tokenMode,
      Frame.mode, Remaining, Frame.Expects]

theorem goesOn_block (f : Field) :
    Remaining (.block f :: fs) (l :: ts) ↔ GoesOn (.block f) fs l ts := by
  obtain ⟨m, kind, text⟩ := l
  simp only [Remaining, Frame.Expects, blockRest_cons, GoesOn]
  cases kind <;>
    simp [IsToken, Frame.action, Frame.blockAction, TokenKind.isTerm, Action.isClean, Action.frames,
      Frame.tokenMode, Frame.mode, Remaining, Frame.Expects]

theorem goesOn_ref : Remaining (.ref :: fs) (l :: ts) ↔ GoesOn .ref fs l ts := by
  obtain ⟨m, kind, text⟩ := l
  simp only [Remaining, Frame.Expects, first_cons, GoesOn]
  cases kind <;>
    simp [IsToken, IsSymbol, Frame.action, Frame.refAction, TokenKind.isSymbol, Action.isClean,
      Action.frames, Frame.tokenMode, Frame.mode]

theorem not_goesOn_unexpected (found : TokenKind) (recovery : Recovery) (depth : Nat) :
    ¬GoesOn (.unexpected found recovery depth) fs l ts := by
  rintro ⟨-, hclean, hrest⟩
  simp only [Frame.action] at hclean hrest
  rcases Frame.unexpectedAction_cases found recovery depth (some l.2.kind) with ⟨ha, -⟩ |
    ⟨k, -, -, ⟨-, ha⟩ | ⟨-, ha⟩⟩ <;> rw [ha] at hclean hrest
  · cases hclean
  · cases hclean
  · exact hrest

/-- The decision on the next token is the one way to go on with a derivation. -/
theorem remaining_cons_iff {f : Frame}
    (hopen : ∀ command items, f = .statement command items none → items ≠ []) :
    Remaining (f :: fs) (l :: ts) ↔ GoesOn f fs l ts := by
  cases f with
  | statement command items slot =>
      cases slot with
      | none =>
          cases items with
          | nil => exact absurd rfl (hopen command [] rfl)
          | cons item items => exact goesOn_items command item items
      | some slot => exact goesOn_slot command items slot
  | list f => exact goesOn_list f
  | block f => exact goesOn_block f
  | ref => exact goesOn_ref
  | unexpected found recovery depth =>
      exact iff_of_false id (not_goesOn_unexpected found recovery depth)

/-! ## Derivations from a text -/

/-- The text reads as tokens that complete the open nodes. -/
def Derives (fs : List Frame) (t : Text) : Prop :=
  ∃ ts, Reads t ts [] ∧ Remaining fs (significant ts)

theorem significant_of_isTrivia (m : Mode) {tok : Token} (ts : List Lexeme)
    (h : tok.kind.isTrivia = true) : significant ((m, tok) :: ts) = significant ts := by
  simp [significant, h]

theorem significant_of_not_trivia (m : Mode) {tok : Token} (ts : List Lexeme)
    (h : tok.kind.isTrivia = false) :
    significant ((m, tok) :: ts) = (m, tok) :: significant ts := by
  simp [significant, h]

theorem derives_nil_text {fs : List Frame} : Derives fs [] ↔ Remaining fs [] := by
  constructor
  · rintro ⟨ts, hreads, h⟩
    cases hreads with
    | nil => exact h
    | cons hl _ => cases hl
  · exact fun h => ⟨[], .nil, h⟩

/-- Blanks and comments add nothing to a derivation. -/
theorem derives_of_isTrivia {fs : List Frame} {m : Mode} {t rest : Text} {tok : Token}
    (hl : lex m t = some (tok, rest)) (hk : tok.kind.isTrivia = true) :
    Derives fs t ↔ Derives fs rest := by
  constructor
  · rintro ⟨ts, hreads, h⟩
    cases hreads with
    | nil => cases hl
    | cons hl' hreads =>
        rw [lex_mode_of_isTrivia hl hk] at hl'
        cases hl'
        rw [significant_of_isTrivia _ _ hk] at h
        exact ⟨_, hreads, h⟩
  · rintro ⟨ts, hreads, h⟩
    exact ⟨(m, tok) :: ts, .cons hl hreads, by rwa [significant_of_isTrivia _ _ hk]⟩

/-- A derivation reads the text in front of a token that is no blank as the machine does. -/
theorem exists_of_derives {fs : List Frame} {m : Mode} {t rest : Text} {tok : Token}
    (hl : lex m t = some (tok, rest)) (hk : tok.kind.isTrivia = false) (h : Derives fs t) :
    ∃ m' tok' rest' ts, lex m' t = some (tok', rest') ∧ Reads rest' ts [] ∧
      Remaining fs ((m', tok') :: significant ts) := by
  obtain ⟨ts, hreads, h⟩ := h
  cases hreads with
  | nil => cases hl
  | @cons m' _ tok' rest' ts _ hl' hreads =>
      have hk' : tok'.kind.isTrivia = false := by
        rw [Bool.eq_false_iff]
        intro hk'
        rw [lex_mode_of_isTrivia hl' hk'] at hl
        cases hl
        rw [hk] at hk'
        cases hk'
      rw [significant_of_not_trivia _ _ hk'] at h
      exact ⟨m', tok', rest', ts, hl', hreads, h⟩

theorem derives_cons_iff {f : Frame} {fs : List Frame} {t rest : Text} {tok : Token}
    (hopen : ∀ command items, f = .statement command items none → items ≠ [])
    (hl : lex f.mode t = some (tok, rest)) (hk : tok.kind.isTrivia = false) :
    Derives (f :: fs) t ↔ (f.action (some tok.kind)).isClean = true ∧
      Derives ((f.action (some tok.kind)).frames (f :: fs)) rest := by
  constructor
  · intro h
    obtain ⟨m', tok', rest', ts, hl', hreads, h⟩ := exists_of_derives hl hk h
    obtain ⟨hmode, hclean, hrest⟩ := (remaining_cons_iff hopen).1 h
    have heq : lex f.mode t = some (tok', rest') := by
      by_cases hr : tok'.kind = .rbrace
      · exact lex_mode_of_rbrace hl' hr
      · simp only [Frame.tokenMode, if_neg hr] at hmode
        rwa [hmode] at hl'
    rw [hl] at heq
    cases heq
    exact ⟨hclean, ts, hreads, hrest⟩
  · rintro ⟨hclean, ts, hreads, hrest⟩
    have hl' : lex (f.tokenMode tok.kind) t = some (tok, rest) := by
      unfold Frame.tokenMode
      split
      · exact lex_mode_of_rbrace hl ‹_›
      · exact hl
    refine ⟨(f.tokenMode tok.kind, tok) :: ts, .cons hl' hreads, ?_⟩
    rw [significant_of_not_trivia _ _ hk]
    exact (remaining_cons_iff hopen).2 ⟨rfl, hclean, hrest⟩

theorem derives_top_iff {t rest : Text} {tok : Token} (hl : lex .normal t = some (tok, rest))
    (hk : tok.kind.isTrivia = false) :
    Derives [] t ↔ ∃ c, tok.kind = .keyword ∧ Command.ofWord? tok.text = some c ∧
      Derives [.statement c c.items none] rest := by
  constructor
  · intro h
    obtain ⟨m', tok', rest', ts, hl', hreads, h⟩ := exists_of_derives hl hk h
    obtain ⟨c, ⟨⟨hmode, hkind⟩, htext⟩, hparts⟩ := sourceFile_cons.1 h
    simp only at hmode hkind htext
    subst hmode
    rw [hl] at hl'
    cases hl'
    exact ⟨c, hkind, ofWord?_eq_some_iff.2 htext, ts, hreads, hparts⟩
  · rintro ⟨c, hkind, hword, ts, hreads, hparts⟩
    refine ⟨(.normal, tok) :: ts, .cons hl hreads, ?_⟩
    rw [significant_of_not_trivia _ _ hk]
    exact sourceFile_cons.2 ⟨c, ⟨⟨rfl, hkind⟩, ofWord?_eq_some_iff.1 hword⟩, hparts⟩

/-- No node takes a token that the lexer could not read. -/
theorem Frame.isClean_action_of_isFiller {f : Frame} {kind : TokenKind}
    (h : kind.isFiller = true) (hf : f.kind ≠ .error) :
    (f.action (some kind)).isClean = false := by
  cases f with
  | statement command items slot =>
      cases slot with
      | none =>
          rcases items with - | ⟨f | ⟨f, cls⟩ | f, items⟩ <;> cases kind <;>
            first | rfl | cases h
      | some slot =>
          obtain ⟨f, cls, filled⟩ := slot
          cases cls <;> cases filled <;> cases kind <;> first | rfl | cases h
  | list f => cases kind <;> first | rfl | cases h
  | block f => cases kind <;> first | rfl | cases h
  | ref => cases kind <;> first | rfl | cases h
  | unexpected => exact absurd rfl hf

theorem not_derives_of_kind_error {f : Frame} {fs : List Frame} {t : Text}
    (hf : f.kind = .error) : ¬Derives (f :: fs) t := by
  rintro ⟨ts, -, h⟩
  cases f with
  | unexpected found recovery depth => exact h
  | _ => cases hf

/-! ## Acceptance along a run -/

/-- Nothing is flawed yet, and what is left to read completes the open nodes. -/
def Accepts (s : State) : Prop := s.flawed = false ∧ Derives s.frames s.rest

/-- Closing something early leaves a flaw. -/
theorem Moves.flawed_of_early {s s' : State} (hm : Moves s s')
    (h : s.early = true → s.flawed = true) (he : s'.early = true) : s'.flawed = true := by
  cases hm with
  | settle settled =>
      obtain ⟨command, items, below, hfs, -⟩ := State.isSettled_iff.1 settled
      rw [State.flawed_close_none hfs (by simp [Frame.kind])]
      exact h (by simpa using he)
  | skip open_ lexed filler => simp [h he]
  | @act frame children below open_ stack solid =>
      have hflawed := Action.flawed_run (a := s.decision frame) (frames_of_stack_cons stack)
        (frame.suits_action _) isSome_lex_of_takes solid
      rw [Action.early_run] at he
      rw [hflawed]
      rcases Action.isClean_of_early he with he | hclean
      · simp [h he]
      · simp [hclean]
  | start stack lexed keyword named => simp [State.start] at he
  | stray stack lexed filler keyword => simp [State.recover] at he

/-- A settled statement asks for nothing more, unless it is closed early, which is a flaw. -/
theorem accepts_close_iff {s : State} (hset : s.isSettled = true)
    (hearly : s.early = true → s.flawed = true) : Accepts (s.close none) ↔ Accepts s := by
  obtain ⟨command, items, below, hfs, hend⟩ := State.isSettled_iff.1 hset
  have hflawed := State.flawed_close_none hfs (by simp [Frame.kind])
  rw [Accepts, Accepts, hflawed, State.frames_close, State.rest_close, hfs]
  rcases hend with he | rfl
  · simp [hearly he]
  · exact Iff.rfl

theorem accepts_skip_iff {s : State} {t : Token} {rest : Text} (hset : s.isSettled = false)
    (hl : lex s.mode s.rest = some (t, rest)) (hf : t.kind.isFiller = true) :
    Accepts (s.skip t rest) ↔ Accepts s := by
  rw [Accepts, Accepts, State.flawed_skip, State.frames_skip, State.rest_skip]
  cases hk : t.kind.isTrivia with
  | true => rw [isFaulty_of_isTrivia hk, Bool.or_false, derives_of_isTrivia hl hk]
  | false =>
      -- no derivation has a token that the lexer could not read
      have hfaulty : isFaulty t = true := by
        cases hkind : t.kind <;>
          simp_all [isFaulty, Fault.ofToken?, TokenKind.isFiller, TokenKind.isTrivia]
      have hnot : ¬Derives s.frames s.rest := by
        cases hfs : s.frames with
        | nil =>
            rw [State.mode_of_frames_nil hfs] at hl
            rw [derives_top_iff hl hk]
            rintro ⟨c, hkeyword, -⟩
            simp [hkeyword, TokenKind.isFiller] at hf
        | cons f fs =>
            rw [State.mode_of_frames_cons hfs] at hl
            have hopen := waits_of_not_settled hset hfs
            by_cases hf' : f.kind = .error
            · exact not_derives_of_kind_error hf'
            · rw [derives_cons_iff (fun c items h => (hopen c items h).2) hl hk,
                Frame.isClean_action_of_isFiller hf hf']
              simp
      simp [hfaulty, hnot]

/-- An open node goes on with a derivation or leaves a flaw. -/
theorem accepts_run_iff {s : State} {frame : Frame} {children : List Node} {below : List Level}
    (hset : s.isSettled = false) (hs : s.stack = ⟨frame, children⟩ :: below)
    (hsolid : Solid (lex s.mode s.rest)) :
    Accepts ((s.decision frame).run s (lex s.mode s.rest)) ↔ Accepts s := by
  have hfs := frames_of_stack_cons hs
  have hmode := State.mode_of_frames_cons hfs
  have hwaits := waits_of_not_settled hset hfs
  have hopen : ∀ command items, frame = .statement command items none → items ≠ [] :=
    fun command items h => (hwaits command items h).2
  have hflawed := Action.flawed_run (a := s.decision frame) hfs (frame.suits_action _)
    isSome_lex_of_takes hsolid
  have hframes := Action.frames_run (a := s.decision frame) hfs isSome_lex_of_takes
  rw [Accepts, Accepts, hflawed, hframes, hfs]
  cases hl : lex s.mode s.rest with
  | none =>
      have hclean : (s.decision frame).isClean = false := by
        rw [Bool.eq_false_iff]
        intro h
        have htakes := isSome_lex_of_takes (Action.takes_of_isClean h)
        simp [hl] at htakes
      have hnot : ¬Derives (frame :: below.map Level.frame) s.rest := by
        rw [lex_eq_none_iff.1 hl, derives_nil_text]
        exact remaining_nil hopen
      simp [hclean, hnot]
  | some look =>
      obtain ⟨t, rest⟩ := look
      have hfiller : t.kind.isFiller = false := hsolid (t, rest) hl
      have htrivia := isTrivia_of_not_filler hfiller
      have hdec : s.decision frame = frame.action (some t.kind) := by
        rw [State.decision, hl]
        rfl
      rw [hmode] at hl
      rw [derives_cons_iff hopen hl htrivia, hdec]
      cases hclean : (frame.action (some t.kind)).isClean with
      | false => simp
      | true =>
          have hrest : ((frame.action (some t.kind)).run s (some (t, rest))).rest = rest :=
            Action.rest_run_of_takes (Action.takes_of_isClean hclean)
          simp [hrest]

/-- A move changes nothing in what is accepted. -/
theorem Moves.accepts_iff {s s' : State} (hm : Moves s s')
    (hearly : s.early = true → s.flawed = true) : Accepts s' ↔ Accepts s := by
  cases hm with
  | settle settled => exact accepts_close_iff settled hearly
  | skip open_ lexed filler => exact accepts_skip_iff open_ lexed filler
  | act open_ stack solid => exact accepts_run_iff open_ stack solid
  | @start t rest command stack lexed keyword named =>
      have hfs := frames_of_stack_nil stack
      have htrivia : t.kind.isTrivia = false := by simp [keyword, TokenKind.isTrivia]
      have hfaulty : isFaulty t = false := by simp [isFaulty, keyword, Fault.ofToken?]
      rw [Accepts, Accepts, hfs, derives_top_iff lexed htrivia]
      simp [State.start, hfs, hfaulty, keyword, named, Frame.kind]
  | @stray t rest stack lexed filler keyword =>
      have hfs := frames_of_stack_nil stack
      have htrivia := isTrivia_of_not_filler filler
      rw [Accepts, Accepts, hfs, derives_top_iff lexed htrivia]
      simp [State.recover, keyword, Frame.kind]

/-- A run leaves no flaw exactly if the state it starts from is accepted. -/
theorem Ends.accepts_iff {s : State} {r : List Segment × Option Nat}
    (h : Ends (fun _ => none) s r) (hearly : s.early = true → s.flawed = true) :
    (∀ g ∈ r.1, g.node.flawed = false) ↔ Accepts s := by
  induction h with
  | @done s segs resumed hd =>
      obtain ⟨hs, hr, rfl, -⟩ := step_none_eq_done hd
      have hfs := frames_of_stack_nil hs
      have hstack := State.stack_flush hs
      have hderives : Derives s.frames s.rest := by
        rw [hr, derives_nil_text, hfs]
        exact .nil
      rw [Accepts, ← State.flawed_flush]
      simp [State.flawed, hstack, hderives]
  | next hn _ ih =>
      have hm := moves_of_step hn
      rw [← hm.accepts_iff hearly]
      exact ih (hm.flawed_of_early hearly)

end Machine

namespace Tree

/-- A parse has no fault exactly if the grammar derives the text. -/
theorem faults_parse_eq_nil_iff (t : Text) : (parse t).faults = [] ↔ Derivable t := by
  rw [faults_eq_nil_iff]
  refine ((ends_parse t).accepts_iff (by simp [Machine.State.init])).trans ?_
  constructor
  · rintro ⟨-, h⟩
    exact h
  · intro h
    exact ⟨rfl, h⟩

end Tree

end BibStyle
