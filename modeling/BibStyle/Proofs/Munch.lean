import BibStyle.Proofs.Lossless
import BibStyle.Proofs.Rules

/-!
# Tokens are longest matches

Of the fronts of a text that some rule of the mode matches the longest is its first token, and a
character that starts none is a token of its own (`Munch`). The token that is read is such a one: a
longer front that a rule matches would be a token of the text that ends with it, but what is read
there is the shorter token again (`eq_of_lex_of_matches`). As a text has one first token only,
reading is the same as longest match (`exists_lex_iff`).
-/

namespace BibStyle

open Lexer

/-! ## The first token -/

/-- The token is the first one of the text by longest match. -/
inductive Munch (m : Mode) (t : Text) : Token → Prop where
  /-- A keyword comes before a word of any other kind, and no two other kinds share a word. -/
  | matched {tok : Token} (front : tok.text <+: t) (nonempty : tok.text ≠ [])
      (matched : m.Matches tok.kind tok.text)
      (longest : ∀ k w, w <+: t → m.Matches k w → w.length ≤ tok.text.length)
      (first : ∀ k, m.Matches k tok.text → k = tok.kind ∨ tok.kind = .keyword) : Munch m t tok
  | stray {c u} (text : t = c :: u) (unmatched : ∀ k w, w <+: t → w ≠ [] → ¬m.Matches k w) :
      Munch m t ⟨.strayChar, [c]⟩

section Longest

variable {m : Mode} {t rest : Text} {tok tok' : Token}

/-- A front that a rule matches is not longer than the token that is read, and if it is as long, it
is that token. -/
theorem eq_of_lex_of_matches {k : TokenKind} {w : Text} (h : lex m t = some (tok, rest))
    (hw : w <+: t) (hm : m.Matches k w) (hle : tok.text.length ≤ w.length) :
    tok.text = w ∧ tok.kind ≠ .strayChar ∧ (tok.kind = k ∨ tok.kind = .keyword) := by
  obtain ⟨rfl, hscans⟩ := lex_eq_some_iff.1 h
  obtain ⟨x, rfl⟩ := List.prefix_of_prefix_length_le (List.prefix_append tok.text rest) hw hle
  obtain ⟨y, rfl⟩ := (List.prefix_append_right_inj tok.text).1 hw
  -- the text that ends with the front has both as its first token
  have hread : lex m (tok.text ++ x) = some (tok, x) := lex_of_scans hscans.of_append
  obtain ⟨k', hlex, hstray, hk⟩ := exists_lex_of_matches hm
  obtain ⟨htok, rfl⟩ := Prod.mk.inj (Option.some.inj (hread.symm.trans hlex))
  have hkind : tok.kind = k' := congrArg Token.kind htok
  exact ⟨congrArg Token.text htok, hkind ▸ hstray, hkind ▸ hk⟩

/-- What starts no token is a single character. -/
theorem exists_of_strayChar (h : Scans m tok rest) (hk : tok.kind = .strayChar) :
    ∃ c, tok = ⟨.strayChar, [c]⟩ := by
  cases h with
  | sharp => exact ⟨_, rfl⟩
  | stray => exact ⟨_, rfl⟩
  | word => exact absurd hk (wordKind_ne _ (by simp) (by simp))
  | patternWord => exact absurd hk (wordKind_ne _ (by simp) (by simp))
  | _ => cases hk

theorem munch_of_lex (h : lex m t = some (tok, rest)) : Munch m t tok := by
  obtain ⟨ht, hscans⟩ := lex_eq_some_iff.1 h
  have hfront : tok.text <+: t := ⟨rest, ht.symm⟩
  by_cases hk : tok.kind = .strayChar
  · obtain ⟨c, rfl⟩ := exists_of_strayChar hscans hk
    refine .stray ht fun k w hw hne hm => ?_
    exact (eq_of_lex_of_matches h hw hm (List.length_pos_iff.2 hne)).2.1 rfl
  · refine .matched hfront (append_of_lex h).2 (Mode.matches_of_scans hscans hk) ?_ ?_
    · intro k w hw hm
      rcases Nat.le_total w.length tok.text.length with hle | hle
      · exact hle
      · rw [(eq_of_lex_of_matches h hw hm hle).1]
    · intro k hm
      exact (eq_of_lex_of_matches h hfront hm (Nat.le_refl _)).2.2.imp Eq.symm id

/-- A text has one first token. -/
theorem Munch.unique (h : Munch m t tok) (h' : Munch m t tok') : tok = tok' := by
  cases h with
  | matched front nonempty matched longest first =>
      cases h' with
      | matched front' nonempty' matched' longest' first' =>
          have htext : tok.text = tok'.text := by
            have hle := longest' _ _ front matched
            have hle' := longest _ _ front' matched'
            exact (List.prefix_of_prefix_length_le front front' hle).eq_of_length
              (Nat.le_antisymm hle hle')
          have hkind : tok.kind = tok'.kind := by
            rcases first tok'.kind (htext ▸ matched') with hk | hk
            · exact hk.symm
            · rcases first' tok.kind (htext ▸ matched) with hk' | hk'
              · exact hk'
              · rw [hk, hk']
          cases tok
          cases tok'
          rw [Token.mk.injEq]
          exact ⟨hkind, htext⟩
      | stray text unmatched => exact absurd matched (unmatched _ _ front nonempty)
  | stray text unmatched =>
      cases h' with
      | matched front nonempty matched => exact absurd matched (unmatched _ _ front nonempty)
      | stray text' =>
          obtain ⟨rfl, -⟩ := List.cons.inj (text.symm.trans text')
          rfl

theorem Munch.ne_nil (h : Munch m t tok) : t ≠ [] := by
  rintro rfl
  cases h with
  | matched front nonempty => exact nonempty (List.prefix_nil.1 front)
  | stray text => cases text

/-- Reading gives the first token by longest match. -/
theorem exists_lex_iff : (∃ rest, lex m t = some (tok, rest)) ↔ Munch m t tok := by
  constructor
  · rintro ⟨rest, h⟩
    exact munch_of_lex h
  · intro h
    obtain ⟨⟨tok', rest⟩, hlex⟩ := Option.ne_none_iff_exists'.1 (mt lex_eq_none_iff.1 h.ne_nil)
    obtain rfl := h.unique (munch_of_lex hlex)
    exact ⟨rest, hlex⟩

end Longest

/-! ## Reading at a place -/

/-- The token stands in the text at the span, and is what longest match finds there. -/
structure Token.StandsAt (tok : Token) (m : Mode) (t : Text) (span : Span) : Prop where
  nonempty : span.start < span.stop
  boundary : t.isBoundary span.stop = true
  munch : ∃ before rest, t = before ++ rest ∧ before.size = span.start ∧
    span.stop = span.start + tok.size ∧ Munch m rest tok

/-- The tokens that are read one after the other from byte `pos` on, each where the last one ends,
until none is found. -/
inductive Repeats (m : Mode) (t : Text) : Nat → List (Span × Token) → Prop where
  | done {pos} (h : lexAt m pos t = none) : Repeats m t pos []
  | next {pos span tok rest} (h : lexAt m pos t = some (span, tok))
      (hs : Repeats m t span.stop rest) : Repeats m t pos ((span, tok) :: rest)

section At

variable {m : Mode} {t : Text} {pos : Nat} {span : Span} {tok : Token}

theorem lexAt_eq_some_iff : lexAt m pos t = some (span, tok) ↔
    ∃ before u rest, t = before ++ u ∧ before.size = pos ∧ lex m u = some (tok, rest) ∧
      span = ⟨pos, pos + tok.size⟩ := by
  constructor
  · intro h
    rw [lexAt] at h
    split at h
    · rename_i before u hcut
      obtain ⟨rfl, hpos⟩ := Text.cut?_eq_some_iff.1 hcut
      obtain ⟨⟨tok', rest⟩, hlex, heq⟩ := Option.map_eq_some_iff.1 h
      obtain ⟨rfl, rfl⟩ := Prod.mk.inj heq
      exact ⟨before, u, rest, rfl, hpos, hlex, rfl⟩
    · cases h
  · rintro ⟨before, u, rest, rfl, rfl, hlex, rfl⟩
    rw [Token.lexAt_size_append, hlex]
    rfl

theorem lexAt_eq_none_iff : lexAt m pos t = none ↔ t.size ≤ pos ∨ t.isBoundary pos = false := by
  cases hb : t.isBoundary pos with
  | false =>
      have hcut : t.cut? pos = none := by simpa [Text.isBoundary] using hb
      simp [lexAt, hcut]
  | true =>
      obtain ⟨before, u, rfl, rfl⟩ := Text.isBoundary_iff.1 hb
      rw [Token.lexAt_size_append, Option.map_eq_none_iff, lex_eq_none_iff, Text.size_append]
      rw [← Text.size_eq_zero]
      simp

theorem lexAt_eq_some_iff_standsAt :
    lexAt m pos t = some (span, tok) ↔ span.start = pos ∧ tok.StandsAt m t span := by
  rw [lexAt_eq_some_iff]
  constructor
  · rintro ⟨before, u, rest, rfl, rfl, hlex, rfl⟩
    obtain ⟨hu, hne⟩ := append_of_lex hlex
    refine ⟨rfl, Nat.lt_add_of_pos_right (Text.size_pos hne), ?_, ?_⟩
    · refine Text.isBoundary_iff.2 ⟨before ++ tok.text, rest, ?_, Text.size_append _ _⟩
      rw [List.append_assoc, hu]
    · exact ⟨before, u, rfl, rfl, rfl, munch_of_lex hlex⟩
  · rintro ⟨rfl, hstands⟩
    obtain ⟨before, u, rfl, hstart, hstop, hmunch⟩ := hstands.munch
    obtain ⟨rest, hlex⟩ := exists_lex_iff.2 hmunch
    refine ⟨before, u, rest, rfl, hstart, hlex, ?_⟩
    rw [← hstop]

end At

/-! ## Reading all of a text -/

theorem repeats_lexAll (m : Mode) (before u : Text) :
    Repeats m (before ++ u) before.size (Token.place before.size (lexAll m u)) := by
  fun_induction lexAll m u generalizing before with
  | case1 u h =>
      apply Repeats.done
      rw [Token.lexAt_size_append, h]
      rfl
  | case2 u tok rest h ih =>
      have hrest := ih (before ++ tok.text)
      rw [List.append_assoc, (append_of_lex h).1, Text.size_append] at hrest
      exact .next (lexAt_eq_some_iff.2 ⟨before, u, rest, rfl, rfl, h, rfl⟩) hrest

/-- What is read from a boundary on covers the rest of the text. -/
theorem Repeats.covers {m : Mode} {t : Text} {pos : Nat} {ps : List (Span × Token)}
    (h : Repeats m t pos ps) {before u : Text} (ht : t = before ++ u) (hpos : before.size = pos) :
    Span.Tiles pos (ps.map Prod.fst) t.size ∧ ps.flatMap (·.2.text) = u := by
  induction h generalizing before u with
  | @done pos h =>
      subst ht hpos
      rw [Token.lexAt_size_append, Option.map_eq_none_iff, lex_eq_none_iff] at h
      subst h
      rw [List.append_nil]
      exact ⟨.nil, rfl⟩
  | @next pos span tok ps h hs ih =>
      obtain ⟨before', u', rest, ht', hpos', hlex, rfl⟩ := lexAt_eq_some_iff.1 h
      obtain ⟨rfl, rfl⟩ := Text.append_inj_of_size (ht.symm.trans ht') (hpos.trans hpos'.symm)
      obtain ⟨hu, hne⟩ := append_of_lex hlex
      have hrest : t = (before ++ tok.text) ++ rest := by rw [ht, List.append_assoc, hu]
      obtain ⟨htiles, htext⟩ := ih hrest (by rw [Text.size_append, hpos]; rfl)
      refine ⟨.cons rfl (Nat.lt_add_of_pos_right (Text.size_pos hne)) htiles, ?_⟩
      rw [List.flatMap_cons, htext, hu]

/-- No token is found at or past the end of a text or inside a character. Anywhere else it is the
one of longest match: it is not empty and ends between characters, no rule of the mode matches a
longer front of what stands there, and it is a keyword if it can be one; or it is a single
character, and no rule matches any front. So reading a text from its start, each token where the
last one ends, comes to an end and cuts the text into its tokens, whatever the mode. -/
theorem lexAt_longest_match (m : Mode) (t : Text) :
    (∀ pos, lexAt m pos t = none ↔ t.size ≤ pos ∨ t.isBoundary pos = false) ∧
      (∀ pos span tok,
        lexAt m pos t = some (span, tok) ↔ span.start = pos ∧ tok.StandsAt m t span) ∧
      Repeats m t 0 (Token.place 0 (lexAll m t)) ∧
      ∀ ps, Repeats m t 0 ps →
        Span.Tiles 0 (ps.map Prod.fst) t.size ∧ ps.flatMap (·.2.text) = t :=
  ⟨fun _ => lexAt_eq_none_iff, fun _ _ _ => lexAt_eq_some_iff_standsAt, repeats_lexAll m [] t,
    fun _ h => h.covers (List.nil_append t).symm rfl⟩

/-- Digits that do not follow after all are given back. -/
example : lexAt .normal 1 "a#-x".toList = some (⟨1, 2⟩, ⟨.strayChar, ['#']⟩) := by decide

end BibStyle
