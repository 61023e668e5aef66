import BibStyle.Proofs.Graft
import BibStyle.Proofs.Places

/-!
# Statements are parsed apart from what stands before them

Whatever is open at the end of a text is closed by a keyword as it is by the end of the text. So
where lines end before a keyword, the parse of the whole is that of the lines followed by that of
the rest, however malformed the lines are (`Ends.resync`).

The run over the lines is followed with the rest grafted behind it. No token of the lines reaches
into the rest: only blanks run over the end of a line, and a keyword starts with a letter. At the
end of the lines an open node decides on the keyword as it would on the end of the text, in either
mode, and takes nothing.
-/

namespace BibStyle

namespace Machine

/-- The text starts with a keyword, in either mode. -/
def StartsStatement (t : Text) : Prop :=
  ∃ tok rest, lex .normal t = some (tok, rest) ∧ tok.kind = .keyword ∧ rest.head? ≠ some '/'

namespace StartsStatement

variable {t : Text}

theorem lex_eq (h : StartsStatement t) (m : Mode) :
    ∃ tok rest, lex m t = some (tok, rest) ∧ tok.kind = .keyword := by
  obtain ⟨tok, rest, hl, hk, hr⟩ := h
  cases m with
  | normal => exact ⟨tok, rest, hl, hk⟩
  | pattern => exact ⟨tok, rest, lex_pattern_of_normal_keyword hl hk hr, hk⟩

theorem solid (h : StartsStatement t) (m : Mode) : Solid (lex m t) := by
  obtain ⟨tok, rest, hl, hk⟩ := h.lex_eq m
  simp [Solid, hl, hk, TokenKind.isFiller]

theorem stops_isBlank (h : StartsStatement t) : Lexer.Stops Lexer.isBlank t := by
  intro c hc
  cases hb : Lexer.isBlank c with
  | false => rfl
  | true =>
      obtain ⟨u, rfl⟩ := List.head?_eq_some_iff.1 hc
      obtain ⟨tok, rest, hl, hk⟩ := h.lex_eq .normal
      rw [lex_of_isBlank hb] at hl
      cases hl
      cases hk

end StartsStatement

/-- A text that starts with a keyword changes no token of the lines before it. -/
theorem unmoved_of_endsLine {t u : Text} (m : Mode) (ht : t.EndsLine) (hne : t ≠ [])
    (hu : StartsStatement u) : Unmoved u m t := by
  have hlast : t.getLast? = some '\n' := ht.resolve_left hne
  cases hl : lex m t with
  | none => exact absurd (lex_eq_none_iff.1 hl) hne
  | some look =>
      obtain ⟨tok, rest⟩ := look
      obtain ⟨rfl, -⟩ := append_of_lex hl
      rw [Unmoved, hl, Option.map_some, List.append_assoc]
      rcases rest with - | ⟨c, rest⟩
      · have hmem : '\n' ∈ tok.text := by
          rw [List.append_nil] at hlast
          exact List.mem_of_getLast? hlast
        have hk := whitespace_of_newline_mem hl hmem
        exact lex_of_whitespace hl hk hu.stops_isBlank
      · refine lex_congr hl ⟨rfl, ?_⟩
        rintro - hc
        simp only [List.head?_cons, Option.some.injEq] at hc
        subst hc
        rcases rest with - | ⟨d, rest⟩
        · simp at hlast
        · rfl

/-- What the end of the text does to an open node, a keyword does. -/
theorem step_graft_of_rest_nil {s s' : State} {u : Text} (hr : s.rest = [])
    (hset : s.isSettled = false) (hu : StartsStatement u) (h : step (fun _ => none) s = .next s') :
    step (fun _ => none) (s.graft u 0 []) = .next (s'.graft u 0 []) := by
  have hnone : lex s.mode s.rest = none := by rw [hr, lex_nil]
  cases hs : s.stack with
  | nil =>
      rw [mode_of_stack_nil hs] at hnone
      rw [step_of_stack_nil hs (by simp [Solid, hnone]), hnone] at h
      simp [atTop] at h
  | cons level below =>
      obtain ⟨tok, rest, hl, hk⟩ := hu.lex_eq s.mode
      have hrest : (s.graft u 0 []).rest = u := by simp [hr]
      have hlex : lex (s.graft u 0 []).mode (s.graft u 0 []).rest = some (tok, rest) := by
        rw [hrest, State.mode_graft, hl]
      have hsolid : Solid (lex (s.graft u 0 []).mode (s.graft u 0 []).rest) := by
        rw [hrest]
        exact hu.solid _
      have hdec : (s.graft u 0 []).decision level.frame = s.decision level.frame := by
        rw [State.decision, State.decision, hlex, hnone, Option.map_some, hk, Option.map_none,
          Frame.action_none]
      have hnot : (s.decision level.frame).takes = false := by
        rw [State.decision, hnone, Option.map_none, Frame.action_none]
        exact level.frame.takes_action_keyword
      rw [step_of_stack_cons hset hs (by simp [Solid, hnone]), hnone] at h
      cases h
      rw [step_of_stack_cons (s := s.graft u 0 []) hset hs hsolid, hdec, hlex,
        Action.run_of_not_takes _ _ (Option.map _ none) hnot, Action.run_graft]

/-- A run to the end of its lines goes on with the statements behind them. -/
theorem Ends.resync {s : State} {r : List Segment × Option Nat} {u : Text}
    (h : Ends (fun _ => none) s r) (hs : s.rest.EndsLine) (hu : StartsStatement u) :
    Ends (fun _ => none) (s.graft u 0 []) (r.1 ++ (Tree.parse u).segments, none) := by
  induction h with
  | @done s segs resumed hd =>
      obtain ⟨hstack, hr, rfl, -⟩ := step_none_eq_done hd
      have hrest : (s.graft u 0 []).rest = u := by simp [hr]
      have hsolid : Solid (lex .normal (s.graft u 0 []).rest) := by
        rw [hrest]
        exact hu.solid _
      have hend := ends_of_stack_nil (s := s.graft u 0 []) hstack hsolid
      rw [hrest] at hend
      simpa using hend
  | @next s s' r hn _ ih =>
      have hs' : s'.rest.EndsLine := by
        rcases (moves_of_step hn).reads with ⟨hr, -, -⟩ | ⟨tok, hl, -, -⟩
        · exact hr ▸ hs
        · rw [← (append_of_lex hl).1] at hs
          exact hs.of_append
      refine .next ?_ (ih hs')
      by_cases hkeep : s.isSettled = false → s.rest ≠ []
      · rw [step_graft _ 0 [] fun hset => unmoved_of_endsLine _ hs (hkeep hset) hu, hn]
        rfl
      · have hset : s.isSettled = false := by
          cases hset : s.isSettled with
          | false => rfl
          | true => exact absurd (fun h => by cases hset.symm.trans h) hkeep
        have hr : s.rest = [] := Decidable.byContradiction fun hr => hkeep fun _ => hr
        exact step_graft_of_rest_nil hr hset hu hn

end Machine

namespace Tree

/-- The faults under segments that follow one another are those of each, at their places. -/
theorem faults_append {a b : Text} {segs : List Segment}
    (h : segs = (parse a).segments ++ (parse b).segments) :
    (Tree.mk (a ++ b) segs).faults =
      (parse a).faults ++ (parse b).faults.map (Diagnostic.shift a.size) := by
  have hsize : Node.sizeAll ((parse a).segments.map (·.node)) = a.size := by
    rw [← Segment.size_texts, texts_parse]
  subst h
  rw [faults_eq, faults_eq, faults_eq, List.map_append, Node.faultsAllAt_append, hsize,
    ← Node.faultsAllAt_add, Nat.zero_add, Nat.add_zero]

/-- Lines change nothing in the parse of the statements behind them, whatever they leave open. -/
theorem parse_append_of_keyword {a b rest : Text} {tok : Token} (ha : a.EndsLine)
    (hb : lex .normal b = some (tok, rest)) (hk : tok.kind = .keyword)
    (hr : rest.head? ≠ some '/') :
    (parse (a ++ b)).segments = (parse a).segments ++ (parse b).segments ∧
      (parse (a ++ b)).faults =
        (parse a).faults ++ (parse b).faults.map (Diagnostic.shift a.size) := by
  have hends := (ends_parse a).resync ha ⟨tok, rest, hb, hk, hr⟩
  have hsegs : (parse (a ++ b)).segments = (parse a).segments ++ (parse b).segments :=
    segments_eq_of_ends hends
  exact ⟨hsegs, faults_append hsegs⟩

/-- A macro whose pattern is never closed does not reach the next line. -/
theorem parse_append_of_keyword_open_pattern :
    Text.EndsLine "MACRO \x7bjan\n".toList ∧
      lex .normal "READ".toList = some (⟨.keyword, "READ".toList⟩, []) ∧
      (parse ("MACRO \x7bjan\n".toList ++ "READ".toList)).segments =
        (parse "MACRO \x7bjan\n".toList).segments ++ (parse "READ".toList).segments ∧
      (parse ("MACRO \x7bjan\n".toList ++ "READ".toList)).faults =
        (parse "MACRO \x7bjan\n".toList).faults ++
          (parse "READ".toList).faults.map (Diagnostic.shift 11) := by
  have hline : Text.EndsLine "MACRO \x7bjan\n".toList := .inr (by decide)
  have hread : lex .normal "READ".toList = some (⟨.keyword, "READ".toList⟩, []) := by decide
  exact ⟨hline, hread, parse_append_of_keyword hline hread rfl (by decide)⟩

end Tree

end BibStyle
