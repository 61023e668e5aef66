import BibStyle.Proofs.Conformance
import BibStyle.Proofs.Restart

/-!
# Fillers do not change the structure

Blanks, comments and what the lexer cannot read are set aside, and go to whatever node takes the
next token. No decision looks at them. `Builds` is the machine on a list of tokens instead of a
text, with no fillers among them; it has one result for each list. A run over a text, taken without
its fillers, is one of these over the tokens that are left (`Ends.builds`), so two parses with the
same tokens differ in fillers only.

Tokens are compared as they stand in the tree. A keyword that ends an open pattern need not be
there: outside of the pattern it may be the front of a longer word, which is an identifier or the
name of a builtin. Neither of the two is read inside a pattern, so where one is next there, what
the machine sees is a keyword (`seen`).
-/

namespace BibStyle

namespace Node

mutual

/-- The node without the fillers below it. -/
def bare : Node → Node
  | .leaf k f t => .leaf k f t
  | .branch k f e ns => .branch k f e (bareAll ns)

/-- The nodes that are no fillers, without those below them. -/
def bareAll : List Node → List Node
  | [] => []
  | n :: ns => if n.kind.isFiller then bareAll ns else bare n :: bareAll ns

end

theorem bareAll_eq (ns : List Node) :
    bareAll ns = (ns.filter (!·.kind.isFiller)).map bare := by
  induction ns with
  | nil => simp [bareAll]
  | cons n ns ih =>
      rw [bareAll, ih]
      cases h : n.kind.isFiller <;> simp [h]

theorem bareAll_reverse (ns : List Node) : bareAll ns.reverse = (bareAll ns).reverse := by
  simp [bareAll_eq]

@[simp] theorem bare_branch (k : NodeKind) (f : Option Field) (e : Option Fault)
    (ns : List Node) : (branch k f e ns).bare = .branch k f e (bareAll ns) := by
  simp [bare]

@[simp] theorem bare_ofToken (field : Option Field) (t : Token) :
    (ofToken field t).bare = .ofToken field t := by
  simp [ofToken, bare]

@[simp] theorem bare_marker (fault : Fault) : (marker fault).bare = .marker fault := by
  simp [marker, bareAll]

end Node

/-- The segments that are no fillers, without the fillers in them. -/
def Segment.bare (gs : List Segment) : List Segment :=
  (gs.filter (!·.node.kind.isFiller)).map fun g => ⟨g.node.bare, g.complete⟩

theorem Segment.map_node_bare (gs : List Segment) :
    (bare gs).map (·.node) = Node.bareAll (gs.map (·.node)) := by
  simp [bare, Node.bareAll_eq, List.filter_map, Function.comp_def]

namespace Machine

/-! ## States without fillers -/

def Level.bare (level : Level) : Level := ⟨level.frame, Node.bareAll level.children⟩

namespace State

/-- What a state has built so far, without the fillers. -/
def bare (s : State) : State :=
  { rest := [], pos := 0, pending := [], stack := s.stack.map Level.bare, early := s.early,
    segments := Segment.bare s.segments }

@[simp] theorem early_bare (s : State) : s.bare.early = s.early := rfl

@[simp] theorem pending_bare (s : State) : s.bare.pending = [] := rfl

@[simp] theorem frames_bare (s : State) : s.bare.frames = s.frames := by
  simp [frames, bare, Level.bare]

/-- All that is set aside are fillers. -/
def Keeps (s : State) : Prop := ∀ t ∈ s.pending, t.kind.isFiller = true

section Operations

variable (s : State)

theorem bare_attach {n : Node} (h : n.kind.isFiller = false) :
    (s.attach n).bare = s.bare.attach n.bare := by
  unfold attach bare
  cases hs : s.stack with
  | nil => simp [Segment.bare, h]
  | cons level below => simp [Level.bare, Node.bareAll_eq, h]

theorem bare_attach_filler {n : Node} (h : n.kind.isFiller = true) :
    (s.attach n).bare = s.bare := by
  unfold attach bare
  cases hs : s.stack with
  | nil => simp [Segment.bare, h]
  | cons level below => simp [Level.bare, Node.bareAll_eq, h]

theorem bare_flush (h : s.Keeps) : s.flush.bare = s.bare := by
  unfold flush
  unfold Keeps at h
  generalize s.pending = ts at h ⊢
  induction ts with
  | nil => rfl
  | cons t ts ih =>
      obtain ⟨ht, hts⟩ := List.forall_mem_cons.1 h
      rw [List.foldr_cons, bare_attach_filler _ (n := .ofToken none t) ht, ih hts]

@[simp] theorem bare_mark (fault : Fault) : (s.mark fault).bare = s.bare.mark fault := by
  rw [mark, bare_attach s rfl, Node.bare_marker]
  rfl

@[simp] theorem bare_setFrame (frame : Frame) :
    (s.setFrame frame).bare = s.bare.setFrame frame := by
  unfold setFrame
  cases hs : s.stack <;> simp [bare, hs, Level.bare]

@[simp] theorem bare_closeEarly : s.closeEarly.bare = s.bare.closeEarly := rfl

@[simp] theorem bare_close (fault : Option Fault) : (s.close fault).bare = s.bare.close fault := by
  rcases hs : s.stack with - | ⟨⟨f, ns⟩, below⟩
  · simp [close, bare, hs]
  · have hnode : (Node.branch f.kind f.field fault ns.reverse).bare =
        .branch f.kind f.field fault (Node.bareAll ns).reverse := by
      rw [Node.bare_branch, Node.bareAll_reverse]
    unfold close
    cases below with
    | nil => simp [bare, hs, Level.bare, Segment.bare, hnode, Node.kind, Kind.isFiller]
    | cons level below =>
        simp only [hs]
        rw [bare_attach _ rfl, hnode]
        simp [bare, hs, Level.bare]

theorem bare_enter (h : s.Keeps) (frame : Frame) : (s.enter frame).bare = s.bare.enter frame := by
  rw [← s.bare_flush h]
  unfold enter
  rw [flush_of_pending_nil s.flush.pending_bare]
  simp [bare, Level.bare, Node.bareAll]

theorem bare_take (h : s.Keeps) (field : Option Field) {t : Token} (rest : Text)
    (ht : t.kind.isFiller = false) :
    (s.take field t rest).bare = s.bare.attach (.ofToken field t) := by
  have hattach : (s.take field t rest).bare = (s.flush.attach (.ofToken field t)).bare := rfl
  rw [hattach, bare_attach _ (n := .ofToken field t) ht, s.bare_flush h, Node.bare_ofToken]

theorem bare_atRest (h : s.Keeps) : s.atRest.bare = { s.bare with early := false } := by
  rw [← s.bare_flush h]
  rfl

end Operations

theorem keeps_of_pending_nil {s : State} (h : s.pending = []) : s.Keeps := by simp [Keeps, h]

variable {s u : State}

theorem bare_start (hs : s.Keeps) (hu : u.Keeps) (h : s.bare = u.bare) (command : Command)
    {t : Token} (rest rest' : Text) (ht : t.kind.isFiller = false) :
    (s.start command t rest).bare = (u.start command t rest').bare := by
  have hstart : ∀ (v : State) (rest : Text), v.Keeps → (v.start command t rest).bare =
      (({ v.bare with early := false } : State).enter
        (.statement command command.items none)).attach (.ofToken none t) := by
    intro v rest hv
    rw [start, bare_take _ (keeps_of_pending_nil (by simp)) _ _ ht,
      bare_enter _ (keeps_of_pending_nil (by simp)), bare_atRest v hv]
  rw [hstart s rest hs, hstart u rest' hu, h]

theorem bare_stray (hs : s.Keeps) (hu : u.Keeps) (h : s.bare = u.bare) (t : Token)
    (recovery : Recovery) :
    (s.atRest.recover t recovery).bare = (u.atRest.recover t recovery).bare := by
  rw [recover, recover, bare_enter _ (keeps_of_pending_nil (by simp)),
    bare_enter _ (keeps_of_pending_nil (by simp)), bare_atRest s hs, bare_atRest u hu, h]

end State

/-- An action builds the same on states that differ in fillers only. -/
theorem Action.bare_run {a : Action} {s u : State} {look look' : Lookahead} (hs : s.Keeps)
    (hu : u.Keeps) (h : s.bare = u.bare)
    (hl : a.takes = true → ∃ t rest rest', t.kind.isFiller = false ∧ look = some (t, rest) ∧
      look' = some (t, rest')) :
    (a.run s look).bare = (a.run u look').bare := by
  cases a with
  | take g field =>
      obtain ⟨t, rest, rest', ht, rfl, rfl⟩ := hl rfl
      rw [run, run, State.bare_take _ (by simpa [State.Keeps] using hs) _ _ ht,
        State.bare_take _ (by simpa [State.Keeps] using hu) _ _ ht]
      simp [h]
  | fill e g =>
      obtain ⟨t, rest, rest', ht, rfl, rfl⟩ := hl rfl
      rw [run, run, State.bare_take _ (State.keeps_of_pending_nil (by simp)) _ _ ht,
        State.bare_take _ (State.keeps_of_pending_nil (by simp)) _ _ ht]
      simp [s.bare_flush hs, u.bare_flush hu, h]
  | descend g child =>
      obtain ⟨t, rest, rest', ht, rfl, rfl⟩ := hl rfl
      rw [run, run, State.bare_take _ (State.keeps_of_pending_nil (by simp)) _ _ ht,
        State.bare_take _ (State.keeps_of_pending_nil (by simp)) _ _ ht,
        State.bare_enter _ (by simpa [State.Keeps] using hs),
        State.bare_enter _ (by simpa [State.Keeps] using hu)]
      simp [h]
  | finish field =>
      obtain ⟨t, rest, rest', ht, rfl, rfl⟩ := hl rfl
      rw [run, run, State.bare_close, State.bare_close, State.bare_take _ hs _ _ ht,
        State.bare_take _ hu _ _ ht, h]
  | abort fault => simp [run, h]
  | stop fault => simp [run, h]
  | lack fault => simp [run, h]
  | abandon fault g => simp [run, h]
  | recover found recovery header =>
      have hrecover : ∀ (v : State) (look : Lookahead), v.Keeps →
          ((Action.recover found recovery header).run v look).bare =
            (if header then v.bare.closeEarly else v.bare).enter
              (.unexpected found recovery 0) := by
        intro v look hv
        cases header with
        | false => exact v.bare_enter hv _
        | true => exact v.closeEarly.bare_enter hv _
      rw [hrecover s look hs, hrecover u look' hu, h]

/-! ## The machine on tokens -/

/-- The kind of the next token, as it is seen in the mode. -/
def seen (m : Mode) (ts : List Token) : Option TokenKind :=
  ts.head?.map fun t => if m = .pattern ∧ t.kind.isSymbol = true then .keyword else t.kind

/-- A step of the machine on tokens, with the tokens that are left; nothing at the end. -/
def feed (s : State) (ts : List Token) : Option (State × List Token) :=
  if s.isSettled then some (s.close none, ts)
  else match s.stack, ts with
    | level :: _, ts =>
        let a := level.frame.action (seen s.mode ts)
        some (a.run s (ts.head?.map (·, [])), if a.takes then ts.tail else ts)
    | [], [] => none
    | [], t :: ts =>
        match t.kind, Command.ofWord? t.text with
        | .keyword, some command => some (s.start command t [], ts)
        | _, _ => some (s.atRest.recover t ⟨.normal, false, none⟩, t :: ts)

/-- From the state, the tokens lead to the segments. -/
inductive Builds : State → List Token → List Segment → Prop where
  | done {s ts} (h : feed s ts = none) : Builds s ts s.segments.reverse
  | next {s ts s' ts' r} (h : feed s ts = some (s', ts')) (run : Builds s' ts' r) : Builds s ts r

/-- The tokens determine the segments. -/
theorem Builds.unique {s : State} {ts : List Token} {r r' : List Segment} (h : Builds s ts r)
    (h' : Builds s ts r') : r = r' := by
  induction h with
  | done hd =>
      cases h' with
      | done _ => rfl
      | next hn _ =>
          rw [hd] at hn
          cases hn
  | next hn _ ih =>
      cases h' with
      | done hd =>
          rw [hn] at hd
          cases hd
      | next hn' run =>
          rw [hn] at hn'
          cases hn'
          exact ih run

section Feed

variable {s : State} {ts : List Token}

theorem feed_of_isSettled (h : s.isSettled = true) : feed s ts = some (s.close none, ts) := by
  simp [feed, h]

theorem feed_of_stack_cons {f : Frame} {ns : List Node} {below : List Level}
    (h : s.isSettled = false) (hs : s.stack = ⟨f, ns⟩ :: below) :
    feed s ts = some ((f.action (seen s.mode ts)).run s (ts.head?.map (·, [])),
      if (f.action (seen s.mode ts)).takes then ts.tail else ts) := by
  simp [feed, h, hs]

theorem feed_nil (hs : s.stack = []) : feed s [] = none := by
  simp [feed, isSettled_of_stack_nil hs, hs]

theorem feed_keyword {t : Token} {command : Command} (hs : s.stack = []) (hk : t.kind = .keyword)
    (hc : Command.ofWord? t.text = some command) :
    feed s (t :: ts) = some (s.start command t [], ts) := by
  simp [feed, isSettled_of_stack_nil hs, hs, hk, hc]

theorem feed_of_ne_keyword {t : Token} (hs : s.stack = []) (hk : t.kind ≠ .keyword) :
    feed s (t :: ts) = some (s.atRest.recover t ⟨.normal, false, none⟩, t :: ts) := by
  simp only [feed, isSettled_of_stack_nil hs, hs, Bool.false_eq_true, if_false]
  split
  · exact absurd ‹_› hk
  · rfl

end Feed

/-! ## What a text has ahead -/

/-- The next token of the text, if it is no filler, is the first of the tokens or reads as one. -/
inductive Ahead (m : Mode) (text : Text) : List Token → Prop where
  | nil (lexed : lex m text = none) : Ahead m text []
  | filler {t rest ts} (lexed : lex m text = some (t, rest)) (filler : t.kind.isFiller = true) :
      Ahead m text ts
  | token {t rest ts} (lexed : lex m text = some (t, rest)) : Ahead m text (t :: ts)
  /-- A keyword inside a pattern is the front of the word that is read outside. -/
  | longer {t rest t' ts} (pattern : m = .pattern) (lexed : lex m text = some (t, rest))
      (keyword : t.kind = .keyword) (symbol : t'.kind.isSymbol = true) : Ahead m text (t' :: ts)

namespace Ahead

variable {m : Mode} {text : Text} {ts : List Token}

/-- What is seen of the tokens is what is read from the text. -/
theorem seen_eq (h : Ahead m text ts) (hsolid : Solid (lex m text)) :
    seen m ts = (lex m text).map (·.1.kind) := by
  cases h with
  | nil lexed => simp [seen, lexed]
  | filler lexed filler =>
      have hf := hsolid _ lexed
      rw [filler] at hf
      cases hf
  | @token t rest ts lexed =>
      have hsymbol : ¬(m = .pattern ∧ t.kind.isSymbol = true) := by
        rintro ⟨rfl, hs⟩
        rw [isSymbol_of_lex_pattern lexed] at hs
        cases hs
      simp [seen, lexed, hsymbol]
  | longer pattern lexed keyword symbol =>
      subst pattern
      simp [seen, lexed, keyword, symbol]

/-- Before a token that is no filler the tokens start with it, in normal mode. -/
theorem eq_cons {t : Token} {rest : Text} (h : Ahead .normal text ts)
    (hl : lex .normal text = some (t, rest)) (hf : t.kind.isFiller = false) :
    ∃ us, ts = t :: us := by
  cases h with
  | nil lexed =>
      rw [hl] at lexed
      cases lexed
  | filler lexed filler =>
      rw [hl] at lexed
      cases lexed
      rw [hf] at filler
      cases filler
  | token lexed =>
      rw [hl] at lexed
      cases lexed
      exact ⟨_, rfl⟩
  | longer pattern => cases pattern

/-- Where a keyword ends a pattern, what is ahead outside is ahead inside. -/
theorem of_normal (h : Ahead .normal text ts)
    (hk : ∀ look ∈ lex .pattern text, look.1.kind = .keyword) : Ahead .pattern text ts := by
  cases hl : lex .pattern text with
  | none =>
      have hnil : lex .normal text = none := lex_eq_none_iff.2 (lex_eq_none_iff.1 hl)
      cases h with
      | nil _ => exact .nil hl
      | filler lexed _ => cases hnil.symm.trans lexed
      | token lexed => cases hnil.symm.trans lexed
      | longer pattern => cases pattern
  | some look =>
      obtain ⟨t, rest⟩ := look
      have hkey : t.kind = .keyword := hk _ hl
      rcases lex_normal_or_longer hl hkey with hl' | ⟨t', rest', x, u, hl', hsymbol, -, -⟩
      · obtain ⟨us, rfl⟩ := h.eq_cons hl' (by rw [hkey]; rfl)
        exact .token hl
      · obtain ⟨us, rfl⟩ := h.eq_cons hl' (TokenKind.isFiller_of_isSymbol hsymbol)
        exact .longer rfl hl hkey hsymbol

end Ahead

/-- What is ahead of a decision that takes nothing was ahead of it before. -/
theorem WellFormed.ahead_of_not_takes {s : State} {f : Frame} {ns : List Node}
    {below : List Level} {ts : List Token} (hw : WellFormed s) (hs : s.stack = ⟨f, ns⟩ :: below)
    (ht : (s.decision f).takes = false)
    (h : Ahead ((s.decision f).run s (lex s.mode s.rest)).mode
      ((s.decision f).run s (lex s.mode s.rest)).rest ts) : Ahead s.mode s.rest ts := by
  have hfs := frames_of_stack_cons hs
  have hn := hw.nested
  rw [hfs] at hn
  rw [Action.rest_run_of_not_takes s _ ht, State.mode_eq,
    Action.frames_run hfs isSome_lex_of_takes] at h
  rcases hn.modeOf_action ht with hsame | ⟨hnormal, hkind⟩
  · rw [State.mode_of_frames_cons hfs, ← hsame]
    exact h
  · -- outside of a pattern the keyword that ends it is read again
    have hnormal : Ahead .normal s.rest ts := hnormal ▸ h
    cases hm : s.mode with
    | normal => exact hnormal
    | pattern =>
        refine hnormal.of_normal ?_
        intro look hlook
        rw [hm, Option.mem_def.1 hlook] at hkind
        simpa using hkind

/-! ## A run without its fillers -/

/-- The tokens that are no fillers. -/
def solids (ts : List Token) : List Token := ts.filter (!·.kind.isFiller)

/-- The run from the state to the segments reads the tokens, besides fillers, and builds from them
what the machine on tokens does. -/
structure Follows (s : State) (r : List Segment) (ts : List Token) : Prop where
  tokens : solids (Node.leavesAll (r.map (·.node))) = solids s.tokens ++ ts
  ahead : Ahead s.mode s.rest ts
  builds : ∀ u : State, u.pending = [] → u.bare = s.bare →
    ∃ r', Builds u ts r' ∧ Segment.bare r' = Segment.bare r

section Alike

variable {s u : State}

theorem frames_of_bare (h : u.bare = s.bare) : u.frames = s.frames := by
  rw [← u.frames_bare, h, s.frames_bare]

theorem stack_nil_of_bare (h : u.bare = s.bare) (hs : s.stack = []) : u.stack = [] := by
  rw [State.stack_eq_nil_iff] at hs ⊢
  rw [frames_of_bare h, hs]

theorem isSettled_of_bare (h : u.bare = s.bare) : u.isSettled = s.isSettled := by
  have hearly : u.early = s.early := by rw [← u.early_bare, h, s.early_bare]
  rw [Bool.eq_iff_iff, State.isSettled_iff, State.isSettled_iff, frames_of_bare h, hearly]

/-- On the tokens ahead, the machine on tokens decides as on the text. -/
theorem feed_of_ahead {f : Frame} {ns : List Node} {below : List Level} {ts : List Token}
    (h : u.bare = s.bare) (hset : s.isSettled = false) (hs : s.stack = ⟨f, ns⟩ :: below)
    (hsolid : Solid (lex s.mode s.rest)) (hahead : Ahead s.mode s.rest ts) :
    feed u ts = some ((s.decision f).run u (ts.head?.map (·, [])),
      if (s.decision f).takes then ts.tail else ts) := by
  have hfs := (frames_of_bare h).trans (frames_of_stack_cons hs)
  obtain ⟨⟨g, ms⟩, levels, hu, rfl, -⟩ := List.map_eq_cons_iff.1 hfs
  have hmode : u.mode = s.mode := by rw [State.mode_eq, State.mode_eq, frames_of_bare h]
  rw [feed_of_stack_cons ((isSettled_of_bare h).trans hset) hu, hmode, hahead.seen_eq hsolid]
  rfl

end Alike

namespace Follows

variable {s : State} {r : List Segment} {ts : List Token}

theorem settle (hs : s.isSettled = true) (hmode : (s.close none).mode = s.mode)
    (h : Follows (s.close none) r ts) : Follows s r ts where
  tokens := by simpa using h.tokens
  ahead := by simpa [hmode] using h.ahead
  builds u hu hbare := by
    obtain ⟨r', hr', hbare'⟩ := h.builds (u.close none) (by simpa using hu) (by simp [hbare])
    have hset : u.isSettled = true := (isSettled_of_bare hbare).trans hs
    exact ⟨r', .next (feed_of_isSettled hset) hr', hbare'⟩

theorem skip {t : Token} {rest : Text} (hl : lex s.mode s.rest = some (t, rest))
    (hf : t.kind.isFiller = true) (h : Follows (s.skip t rest) r ts) : Follows s r ts where
  tokens := by simpa [solids, hf] using h.tokens
  ahead := .filler hl hf
  builds u hu hbare := h.builds u hu hbare

variable {f : Frame} {ns : List Node} {below : List Level}

theorem take {t : Token} {rest : Text} (hkeeps : s.Keeps) (hset : s.isSettled = false)
    (hs : s.stack = ⟨f, ns⟩ :: below) (hl : lex s.mode s.rest = some (t, rest))
    (hf : t.kind.isFiller = false) (ht : (s.decision f).takes = true)
    (h : Follows ((s.decision f).run s (some (t, rest))) r ts) : Follows s r (t :: ts) where
  tokens := by
    have htokens := h.tokens
    rw [Action.tokens_run_of_takes s rest ht] at htokens
    simpa [solids, hf] using htokens
  ahead := .token hl
  builds u hu hbare := by
    have hahead : Ahead s.mode s.rest (t :: ts) := .token hl
    have hfeed := feed_of_ahead hbare hset hs (by simpa [Solid, hl] using hf) hahead
    rw [ht, if_pos rfl] at hfeed
    have hpending : ((s.decision f).run u (some (t, []))).pending = [] :=
      Action.pending_run_of_takes ht
    obtain ⟨r', hr', hbare'⟩ := h.builds _ hpending (Action.bare_run
      (State.keeps_of_pending_nil hu) hkeeps hbare fun _ => ⟨t, [], rest, hf, rfl, rfl⟩)
    exact ⟨r', .next hfeed hr', hbare'⟩

theorem stay (hkeeps : s.Keeps) (hset : s.isSettled = false)
    (hs : s.stack = ⟨f, ns⟩ :: below) (hsolid : Solid (lex s.mode s.rest))
    (ht : (s.decision f).takes = false)
    (hahead : Ahead s.mode s.rest ts)
    (h : Follows ((s.decision f).run s (lex s.mode s.rest)) r ts) : Follows s r ts where
  tokens := by
    rw [← Action.tokens_run_of_not_takes s (lex s.mode s.rest) ht]
    exact h.tokens
  ahead := hahead
  builds u hu hbare := by
    have hfeed := feed_of_ahead hbare hset hs hsolid hahead
    rw [ht, if_neg (by simp)] at hfeed
    have hpending : ((s.decision f).run u (ts.head?.map (·, []))).pending = [] :=
      ((s.decision f).pending_run u _).elim id fun hp => hp.trans hu
    obtain ⟨r', hr', hbare'⟩ := h.builds _ hpending (Action.bare_run
      (State.keeps_of_pending_nil hu) hkeeps hbare fun htakes => by simp [ht] at htakes)
    exact ⟨r', .next hfeed hr', hbare'⟩

theorem start {t : Token} {rest : Text} {command : Command} (hkeeps : s.Keeps)
    (hs : s.stack = []) (hl : lex .normal s.rest = some (t, rest)) (hk : t.kind = .keyword)
    (hc : Command.ofWord? t.text = some command) (h : Follows (s.start command t rest) r ts) :
    Follows s r (t :: ts) where
  tokens := by
    have htokens := h.tokens
    simpa [State.start, solids, hk, TokenKind.isFiller] using htokens
  ahead := .token (by rw [mode_of_stack_nil hs]; exact hl)
  builds u hu hbare := by
    have hf : t.kind.isFiller = false := by
      rw [hk]
      rfl
    obtain ⟨r', hr', hbare'⟩ := h.builds (u.start command t []) (by simp [State.start])
      (State.bare_start (State.keeps_of_pending_nil hu) hkeeps hbare command [] rest hf)
    exact ⟨r', .next (feed_keyword (stack_nil_of_bare hbare hs) hk hc) hr', hbare'⟩

theorem ahead_stray {t : Token}
    (h : Follows (s.atRest.recover t ⟨.normal, false, none⟩) r ts) : Ahead .normal s.rest ts := by
  simpa [State.recover, Frame.mode] using h.ahead

theorem stray {t : Token} {rest : Text} (hkeeps : s.Keeps) (hs : s.stack = [])
    (hl : lex .normal s.rest = some (t, rest)) (hf : t.kind.isFiller = false)
    (hk : t.kind ≠ .keyword)
    (h : Follows (s.atRest.recover t ⟨.normal, false, none⟩) r ts) : Follows s r ts where
  tokens := by simpa [State.recover] using h.tokens
  ahead := by
    rw [mode_of_stack_nil hs]
    exact ahead_stray h
  builds u hu hbare := by
    obtain ⟨us, rfl⟩ := (ahead_stray h).eq_cons hl hf
    obtain ⟨r', hr', hbare'⟩ := h.builds (u.atRest.recover t ⟨.normal, false, none⟩)
      (by simp [State.recover])
      (State.bare_stray (State.keeps_of_pending_nil hu) hkeeps hbare t _)
    exact ⟨r', .next (feed_of_ne_keyword (stack_nil_of_bare hbare hs) hk) hr', hbare'⟩

theorem done (hkeeps : s.Keeps) (hs : s.stack = []) (hr : s.rest = []) :
    Follows s s.flush.segments.reverse [] where
  tokens := by
    rw [State.leavesAll_segments_flush hs, List.append_nil]
  ahead := .nil (by rw [hr, lex_nil])
  builds u hu hbare := by
    refine ⟨_, .done (feed_nil (stack_nil_of_bare hbare hs)), ?_⟩
    have hsegs : Segment.bare u.segments = Segment.bare s.flush.segments := by
      rw [← s.bare_flush hkeeps] at hbare
      exact congrArg State.segments hbare
    simpa [Segment.bare] using congrArg List.reverse hsegs

end Follows

/-- A run builds from its tokens what the machine on tokens does. -/
theorem Ends.exists_follows {s : State} {r : List Segment × Option Nat}
    (h : Ends (fun _ => none) s r) (hw : WellFormed s) (hsound : Sound s) :
    ∃ ts, Follows s r.1 ts := by
  induction h with
  | @done s segs resumed hd =>
      obtain ⟨hs, hr, rfl, -⟩ := step_none_eq_done hd
      exact ⟨[], .done hsound.pending hs hr⟩
  | @next s s' r hn run ih =>
      have hm := moves_of_step hn
      obtain ⟨ts, hfollows⟩ := ih (hw.moves hm) (hsound.moves hw hm)
      cases hm with
      | settle settled =>
          obtain ⟨command, items, hfs, -⟩ := hw.frames_of_isSettled settled
          refine ⟨ts, hfollows.settle settled ?_⟩
          rw [State.mode_eq, State.mode_eq, State.frames_close, hfs]
          rfl
      | skip open_ lexed filler => exact ⟨ts, hfollows.skip lexed filler⟩
      | @act f ns below open_ stack solid =>
          cases htakes : (s.decision f).takes with
          | true =>
              obtain ⟨⟨t, rest⟩, hlex⟩ := Option.isSome_iff_exists.1 (isSome_lex_of_takes htakes)
              rw [hlex] at hfollows
              exact ⟨_, hfollows.take hsound.pending open_ stack hlex (solid _ hlex) htakes⟩
          | false =>
              have hahead := hw.ahead_of_not_takes stack htakes hfollows.ahead
              exact ⟨ts, hfollows.stay hsound.pending open_ stack solid htakes hahead⟩
      | start stack lexed keyword named =>
          exact ⟨_, hfollows.start hsound.pending stack lexed keyword named⟩
      | stray stack lexed filler keyword =>
          exact ⟨ts, hfollows.stray hsound.pending stack lexed filler keyword⟩

end Machine

namespace Tree

/-- The leaves that are no fillers, by kind and text. -/
def solids (t : Tree) : List (Kind × Text) :=
  (t.tokens.filter (!·.kind.isFiller)).map fun l => (l.kind, l.text)

theorem solids_eq (t : Tree) : t.solids =
    (Machine.solids (Node.leavesAll (t.segments.map (·.node)))).map
      fun tok => (.token tok.kind, tok.text) := by
  have htokens : t.tokens.map (fun l => (l.kind, l.text)) =
      (Node.leavesAll (t.segments.map (·.node))).map fun tok => (.token tok.kind, tok.text) := by
    have hplaced := congrArg (List.map Prod.snd) t.tokens_eq
    rw [List.map_map, List.map_map] at hplaced
    rw [← Token.map_snd_place 0 (Node.leavesAll _), List.map_map]
    exact hplaced
  have hfilter := congrArg (List.filter (!·.1.isFiller)) htokens
  rw [List.filter_map, List.filter_map] at hfilter
  exact hfilter

/-- The structure of a parse is built from its tokens, without the fillers. -/
theorem exists_builds (t : Text) : ∃ r, Machine.Builds (.init 0 [])
      (Machine.solids (Node.leavesAll ((parse t).segments.map (·.node)))) r ∧
    Segment.bare r = Segment.bare (parse t).segments := by
  obtain ⟨ts, hfollows⟩ := (ends_parse t).exists_follows (Machine.wellFormed_init 0 t)
    (Machine.sound_init 0 t)
  rw [hfollows.tokens, Machine.State.tokens_init]
  exact hfollows.builds (.init 0 []) rfl rfl

/-- Texts whose parses have the same leaves up to fillers have the same parse up to fillers. -/
theorem bare_root_parse {a b : Text} (h : (parse a).solids = (parse b).solids) :
    (parse a).root.node.bare = (parse b).root.node.bare := by
  have hroot : ∀ t : Text, (parse t).root.node.bare =
      .branch .sourceFile none none ((Segment.bare (parse t).segments).map (·.node)) := by
    intro t
    rw [root, Node.node_locate, Node.bare_branch, Segment.map_node_bare]
  have htokens : Machine.solids (Node.leavesAll ((parse a).segments.map (·.node))) =
      Machine.solids (Node.leavesAll ((parse b).segments.map (·.node))) := by
    rw [solids_eq, solids_eq] at h
    refine (List.map_inj_right ?_).1 h
    rintro ⟨k, u⟩ ⟨k', u'⟩ heq
    simpa using heq
  obtain ⟨r, hr, hra⟩ := exists_builds a
  obtain ⟨r', hr', hrb⟩ := exists_builds b
  rw [htokens] at hr
  obtain rfl := hr.unique hr'
  rw [hroot a, hroot b, ← hra, hrb]

/-- A string that is not closed, a comment and a stray character, around an open pattern. -/
theorem bare_root_parse_open_pattern :
    (parse "MACRO\x7bREAD:x".toList).solids =
        (parse "MACRO \"a\n\x7b% b\n? READ:x".toList).solids ∧
      (parse "MACRO\x7bREAD:x".toList).root.node.bare =
        (parse "MACRO \"a\n\x7b% b\n? READ:x".toList).root.node.bare := by
  have hsolids : (parse "MACRO\x7bREAD:x".toList).solids =
      (parse "MACRO \"a\n\x7b% b\n? READ:x".toList).solids := by decide +kernel
  exact ⟨hsolids, bare_root_parse hsolids⟩

end Tree

end BibStyle
