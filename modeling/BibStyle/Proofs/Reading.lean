import BibStyle.Proofs.Halting
import BibStyle.Tree

/-!
# The machine reads its text once

Every token the machine reads is attached to exactly one node, in the order of the text. The
tokens of a state are those of its finished segments, of its open nodes from the outermost in, and
of the fillers set aside; a move either leaves them and the text alone or adds the token it read.
The leaves of a parse are therefore the tokens of its text, each read in one of the two modes.
-/

namespace BibStyle

/-- A token with the mode it is read in. -/
abbrev Lexeme := Mode × Token

/-- The tokens, each read in its mode, follow one another from `t` on and leave `rest`. -/
inductive Reads : Text → List Lexeme → Text → Prop where
  | nil {t} : Reads t [] t
  | cons {m t tok rest ts u} (h : lex m t = some (tok, rest)) (hs : Reads rest ts u) :
      Reads t ((m, tok) :: ts) u

namespace Reads

/-- What is read and what is left make up the text. -/
theorem text_eq {t u : Text} {ts : List Lexeme} (h : Reads t ts u) :
    t = (ts.map Prod.snd).flatMap Token.text ++ u := by
  induction h with
  | nil => rfl
  | cons h _ ih =>
      obtain ⟨rfl, -⟩ := append_of_lex h
      rw [ih]
      simp

theorem text_ne_nil {t u : Text} {ts : List Lexeme} (h : Reads t ts u) :
    ∀ tok ∈ ts.map Prod.snd, tok.text ≠ [] := by
  induction h with
  | nil => simp
  | cons h _ ih =>
      intro tok htok
      rcases List.mem_cons.1 htok with rfl | htok
      · exact (append_of_lex h).2
      · exact ih tok htok

end Reads

namespace Node

@[simp] theorem leavesAll_append (ns ms : List Node) :
    leavesAll (ns ++ ms) = leavesAll ns ++ leavesAll ms := by
  induction ns with
  | nil => simp
  | cons n ns ih => simp [ih]

@[simp] theorem leaves_ofToken (field : Option Field) (t : Token) :
    (ofToken field t).leaves = [t] := by simp [ofToken]

@[simp] theorem leaves_marker (fault : Fault) : (marker fault).leaves = [] := by simp [marker]

end Node

namespace Machine

namespace State

/-- The tokens under the finished segments and the open nodes. -/
def attached (s : State) : List Token :=
  Node.leavesAll (s.segments.reverse.map (·.node)) ++
    s.stack.reverse.flatMap fun level => Node.leavesAll level.children.reverse

/-- All tokens read so far. -/
def tokens (s : State) : List Token := s.attached ++ s.pending.reverse

@[simp] theorem tokens_init (pos : Nat) (text : Text) : (init pos text).tokens = [] := by
  simp [tokens, attached, init]

section Operations

variable (s : State)

@[simp] theorem attached_attach (n : Node) : (s.attach n).attached = s.attached ++ n.leaves := by
  unfold attach attached
  split
  · rename_i h
    simp [h]
  · rename_i h
    simp [h]

theorem attached_flush : s.flush.attached = s.tokens := by
  unfold flush tokens
  have hbase : ({ s with pending := [] } : State).attached = s.attached := rfl
  rw [← hbase]
  generalize ({ s with pending := [] } : State) = u
  induction s.pending with
  | nil => simp
  | cons t ts ih => simp [ih]

@[simp] theorem tokens_flush : s.flush.tokens = s.tokens := by
  rw [tokens, attached_flush, pending_flush]
  simp

@[simp] theorem tokens_mark (fault : Fault) : (s.mark fault).tokens = s.tokens := by
  simp [tokens, mark]

@[simp] theorem tokens_setFrame (frame : Frame) : (s.setFrame frame).tokens = s.tokens := by
  unfold setFrame
  split
  · rename_i h
    simp [tokens, attached, h]
  · rfl

@[simp] theorem tokens_closeEarly : s.closeEarly.tokens = s.tokens := rfl

@[simp] theorem attached_close (fault : Option Fault) :
    (s.close fault).attached = s.attached := by
  unfold close
  split
  · rfl
  · rename_i frame children below h
    split
    · simp [attached, h]
    · rw [attached_attach]
      simp [attached, h]

@[simp] theorem tokens_close (fault : Option Fault) : (s.close fault).tokens = s.tokens := by
  simp [tokens]

@[simp] theorem tokens_take (field : Option Field) (t : Token) (rest : Text) :
    (s.take field t rest).tokens = s.tokens ++ [t] := by
  have h : (s.take field t rest).attached = (s.flush.attach (.ofToken field t)).attached := rfl
  rw [tokens, h, attached_attach, attached_flush]
  simp

@[simp] theorem tokens_enter (frame : Frame) : (s.enter frame).tokens = s.tokens := by
  rw [tokens, pending_enter, ← attached_flush]
  simp [attached, enter]

@[simp] theorem tokens_skip (t : Token) (rest : Text) :
    (s.skip t rest).tokens = s.tokens ++ [t] := by
  simp [tokens, skip, attached]

@[simp] theorem tokens_atRest : s.atRest.tokens = s.tokens := tokens_flush s

end Operations

/-- Between statements all tokens are in segments once the fillers are. -/
theorem leavesAll_segments_flush {s : State} (h : s.stack = []) :
    Node.leavesAll (s.flush.segments.reverse.map (·.node)) = s.tokens := by
  rw [← attached_flush, attached, stack_flush h]
  simp

end State

theorem Action.tokens_run_of_takes {a : Action} {t : Token} (s : State) (rest : Text)
    (h : a.takes = true) : (a.run s (some (t, rest))).tokens = s.tokens ++ [t] := by
  cases a <;> simp [takes] at h <;> simp [run]

theorem Action.tokens_run_of_not_takes {a : Action} (s : State) (look : Lookahead)
    (h : a.takes = false) : (a.run s look).tokens = s.tokens := by
  cases a <;> simp [takes] at h <;> simp [run]
  split <;> rfl

/-- A move reads at most one token, and keeps it. -/
theorem Moves.reads {s s' : State} (hm : Moves s s') :
    (s'.rest = s.rest ∧ s'.pos = s.pos ∧ s'.tokens = s.tokens) ∨
      ∃ t, lex s.mode s.rest = some (t, s'.rest) ∧ s'.pos = s.pos + t.size ∧
        s'.tokens = s.tokens ++ [t] := by
  cases hm with
  | settle settled => exact .inl (by simp)
  | @skip t rest open_ lexed filler => exact .inr ⟨t, by simpa using lexed, by simp, by simp⟩
  | @act frame children below open_ stack solid =>
      cases ht : (s.decision frame).takes with
      | true =>
          obtain ⟨⟨t, rest⟩, hlex⟩ := Option.isSome_iff_exists.1 (isSome_lex_of_takes ht)
          rw [hlex]
          exact .inr ⟨t, by rw [Action.rest_run_of_takes ht], Action.pos_run_of_takes ht,
            Action.tokens_run_of_takes s rest ht⟩
      | false =>
          exact .inl ⟨Action.rest_run_of_not_takes s _ ht, Action.pos_run_of_not_takes s _ ht,
            Action.tokens_run_of_not_takes s _ ht⟩
  | @start t rest command stack lexed keyword named =>
      refine .inr ⟨t, ?_, ?_, ?_⟩
      · rw [mode_of_stack_nil stack]
        simpa [State.start] using lexed
      · simp [State.start]
      · simp [State.start]
  | stray stack lexed filler keyword => exact .inl (by simp [State.recover])

/-- A state is as far from where the run began as the tokens read are long. -/
theorem Moves.pos_eq {s s' : State} {base : Nat} (hm : Moves s s')
    (h : s.pos = base + Text.size (s.tokens.flatMap Token.text)) :
    s'.pos = base + Text.size (s'.tokens.flatMap Token.text) := by
  rcases hm.reads with ⟨-, hpos, htokens⟩ | ⟨t, -, hpos, htokens⟩
  · rw [hpos, htokens, h]
  · rw [hpos, htokens, h, List.flatMap_append, Text.size_append, Nat.add_assoc]
    simp [Token.size]

/-- A run keeps the tokens it has and reads on from there. -/
theorem Ends.reads {resume : Nat → Option Nat} {s : State} {r : List Segment × Option Nat}
    (h : Ends resume s r) : ∃ ts u, Reads s.rest ts u ∧ (r.2 = none → u = []) ∧
      Node.leavesAll (r.1.map (·.node)) = s.tokens ++ ts.map Prod.snd := by
  induction h with
  | @done s segs resumed hd =>
      obtain ⟨hs, rfl, hend⟩ := step_eq_done hd
      refine ⟨[], s.rest, .nil, ?_, ?_⟩
      · intro hn
        rcases hend with ⟨hr, -⟩ | ⟨_, _, _, _, -, hsome⟩
        · exact hr
        · simp only at hn
          simp [hn] at hsome
      · rw [State.leavesAll_segments_flush hs]
        simp
  | @next s s' r hn _ ih =>
      obtain ⟨ts, u, hts, hu, hleaves⟩ := ih
      rcases (moves_of_step hn).reads with ⟨hr, -, htok⟩ | ⟨t, hl, -, htok⟩
      · exact ⟨ts, u, hr ▸ hts, hu, htok ▸ hleaves⟩
      · refine ⟨(s.mode, t) :: ts, u, .cons hl hts, hu, ?_⟩
        rw [hleaves, htok]
        simp

/-- With nothing to take over, a run goes to the end of the text. -/
theorem Ends.resumed_eq_none {s : State} {r : List Segment × Option Nat}
    (h : Ends (fun _ => none) s r) : r.2 = none := by
  induction h with
  | done hd => exact (step_none_eq_done hd).2.2.2
  | next _ _ ih => exact ih

end Machine

/-! ## Parses -/

/-- The text under a list of segments. -/
def Segment.texts (segs : List Segment) : Text :=
  (Node.leavesAll (segs.map (·.node))).flatMap Token.text

namespace Segment

@[simp] theorem texts_nil : texts [] = [] := by simp [texts]

@[simp] theorem texts_append (segs segs' : List Segment) :
    texts (segs ++ segs') = texts segs ++ texts segs' := by
  simp [texts]

theorem size_texts (segs : List Segment) :
    (texts segs).size = Node.sizeAll (segs.map (·.node)) :=
  Node.size_textAll _

end Segment

namespace Tree

theorem ends_parse (t : Text) :
    Machine.Ends (fun _ => none) (.init 0 t) ((parse t).segments, none) := by
  have h := Machine.ends_segments (fun _ => none) 0 t
  exact (Prod.ext rfl h.resumed_eq_none : Machine.segments _ 0 t = (_, none)) ▸ h

theorem segments_eq_of_ends {t : Text} {segs : List Segment}
    (h : Machine.Ends (fun _ => none) (.init 0 t) (segs, none)) : (parse t).segments = segs :=
  congrArg Prod.fst ((ends_parse t).unique h)

/-- The leaves of a parse are the tokens of the text, each read in one of the modes. -/
theorem reads_parse (t : Text) : ∃ ts, Reads t ts [] ∧
    Node.leavesAll ((parse t).segments.map (·.node)) = ts.map Prod.snd := by
  obtain ⟨ts, u, hts, hu, hleaves⟩ := (ends_parse t).reads
  obtain rfl := hu rfl
  exact ⟨ts, hts, by simpa using hleaves⟩

/-- The text under the segments of a parse is the text parsed. -/
theorem texts_parse (t : Text) : Segment.texts (parse t).segments = t := by
  obtain ⟨ts, hts, hleaves⟩ := reads_parse t
  rw [Segment.texts, hleaves]
  simpa using hts.text_eq.symm

end Tree

end BibStyle
