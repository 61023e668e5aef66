import BibStyle.Proofs.Munch
import BibStyle.Proofs.Survival

/-!
# How far the text behind matters

A token ends where the characters behind it do not lengthen it, so it is settled once it is known
what they are, and only so many of them matter (`Token.lookahead`): none where the token brings its
own end, as the quote of a string, the character behind a word, and two behind a lone `#`, which a
minus sign and a digit would make an integer. One character less is never enough
(`Token.isLeast_lookahead`). As two are the most, a token stays what it is in any text that is the
same up to two characters behind it.

For statements one character is enough. One that is complete ends in a token of its own, a word or
a brace, so a text that is the same up to the character behind it has the same segments there, and
what follows is parsed as if it stood alone. Where a statement starts nothing before it matters
(`Text.Joints`).
-/

namespace BibStyle

open Lexer

/-! ## Characters behind a byte -/

/-- Behind byte `pos` the text has at least `n` characters. -/
def Text.Reaches (p : Text) (n pos : Nat) : Prop :=
  ∃ u v : Text, p = u ++ v ∧ u.size = pos ∧ n ≤ v.length

namespace Text.Reaches

variable {p : Text} {n k pos : Nat}

theorem mono (h : p.Reaches n pos) (hk : k ≤ n) : p.Reaches k pos := by
  obtain ⟨u, v, hp, hu, hn⟩ := h
  exact ⟨u, v, hp, hu, Nat.le_trans hk hn⟩

/-- A front of `a ++ rest` that reaches behind `a` is `a` and a front of the rest. -/
theorem exists_append {a rest : Text} (h : p.Reaches n a.size) (hp : p <+: a ++ rest) :
    ∃ b z, p = a ++ b ∧ rest = b ++ z ∧ n ≤ b.length := by
  obtain ⟨u, v, rfl, hu, hn⟩ := h
  obtain ⟨z, hz⟩ := hp
  rw [List.append_assoc] at hz
  obtain ⟨rfl, rfl⟩ := Text.append_inj_of_size hz hu
  exact ⟨v, z, rfl, rfl, hn⟩

end Text.Reaches

/-! ## What settles a token -/

namespace Token

/-- The number of characters behind a token that tell whether it ends there. -/
def lookahead (m : Mode) (tok : Token) : Nat :=
  match tok.kind, m, tok.text with
  | .strayChar, .normal, ['#'] => 2
  | .strayChar, .normal, [':'] => 1
  | .strayChar, _, _ => 0
  | .lbrace, _, _ | .rbrace, _, _ | .quote, _, _ => 0
  | .builtin, _, _ | .string, _, _ | .operator, _, _ => 0
  | _, _, _ => 1

/-- The first `n` characters behind the token settle that it is read. -/
def SettledBy (tok : Token) (m : Mode) (n : Nat) : Prop :=
  ∀ u v : Text, u.take n = v.take n → lex m (tok.text ++ u) = some (tok, u) →
    lex m (tok.text ++ v) = some (tok, v)

theorem lookahead_le_two (m : Mode) (tok : Token) : tok.lookahead m ≤ 2 := by
  unfold lookahead
  split <;> decide

theorem lookahead_wordKind (m : Mode) {other : TokenKind} (w : Text)
    (ho : other = .identifier ∨ other = .pattern) : lookahead m ⟨wordKind other w, w⟩ = 1 := by
  unfold wordKind
  split
  · rfl
  · rcases ho with rfl | rfl <;> rfl

theorem lookahead_stray {m : Mode} {c : Char} (hc : isStray m c = true) :
    lookahead m ⟨.strayChar, [c]⟩ = if m = .normal ∧ c = ':' then 1 else 0 := by
  cases m with
  | pattern => rfl
  | normal =>
      have hne : c ≠ '#' := by
        rintro rfl
        exact absurd hc (by decide)
      by_cases hcolon : c = ':'
      · subst hcolon
        rfl
      · simp [lookahead, hne, hcolon]

variable {m : Mode} {tok : Token} {u v : Text}

theorem head?_eq_of_take_eq {n : Nat} (h : u.take (n + 1) = v.take (n + 1)) :
    u.head? = v.head? := by
  have := congrArg List.head? h
  simpa [List.head?_take] using this

theorem sameAhead_of_take_one (hk : tok.kind ≠ .strayChar) (h : u.take 1 = v.take 1) :
    SameAhead tok u v :=
  ⟨head?_eq_of_take_eq h, fun hstray => absurd hstray hk⟩

theorem sameAhead_of_take_two (h : u.take 2 = v.take 2) : SameAhead tok u v := by
  refine ⟨head?_eq_of_take_eq h, fun _ _ => ?_⟩
  have htail : u.tail.take 1 = v.tail.take 1 := by
    have := congrArg List.tail h
    rwa [← List.drop_one, ← List.drop_one, List.drop_take, List.drop_take, List.drop_one,
      List.drop_one] at this
  exact head?_eq_of_take_eq htail

/-- A token that is read stays one when the characters that it looks at do. -/
theorem scans_of_take_lookahead (h : Scans m tok u)
    (ht : u.take (tok.lookahead m) = v.take (tok.lookahead m)) : Scans m tok v := by
  cases h with
  | lbrace => exact .lbrace
  | rbrace => exact .rbrace
  | quote => exact .quote
  | builtin hc hw => exact .builtin hc hw
  | string hw => exact .string hw
  | operator hc => exact .operator hc
  | assign => exact .assign
  | blank hc hw hr => exact (Scans.blank hc hw hr).congr (sameAhead_of_take_one (by simp) ht)
  | comment hw hr => exact (Scans.comment hw hr).congr (sameAhead_of_take_one (by simp) ht)
  | word hc hw hr hd =>
      rw [lookahead_wordKind _ _ (.inl rfl)] at ht
      exact (Scans.word hc hw hr hd).congr
        (sameAhead_of_take_one (wordKind_ne _ (by simp) (by simp)) ht)
  | patternWord hc hw hr =>
      rw [lookahead_wordKind _ _ (.inr rfl)] at ht
      exact (Scans.patternWord hc hw hr).congr
        (sameAhead_of_take_one (wordKind_ne _ (by simp) (by simp)) ht)
  | integer hm hn hw hr =>
      exact (Scans.integer hm hn hw hr).congr (sameAhead_of_take_one (by simp) ht)
  | openString hw hr hd =>
      exact (Scans.openString hw hr hd).congr (sameAhead_of_take_one (by simp) ht)
  | sharp hr hd => exact (Scans.sharp hr hd).congr (sameAhead_of_take_two ht)
  | stray hc hd =>
      refine .stray hc fun hm hcolon => ?_
      rw [lookahead_stray hc, if_pos ⟨hm, hcolon⟩] at ht
      exact head?_eq_of_take_eq ht ▸ hd hm hcolon

theorem settledBy_lookahead (m : Mode) (tok : Token) : tok.SettledBy m (tok.lookahead m) :=
  fun _ _ ht h => lex_of_scans (scans_of_take_lookahead (scans_of_lex h) ht)

/-! ## Less does not settle it -/

/-- Characters that also stand in front of what makes the token longer do not settle it. -/
theorem not_settledBy_of_longer {n : Nat} {k : TokenKind}
    (h : lex m (tok.text ++ u) = some (tok, u)) (hlong : Scans m ⟨k, tok.text ++ v⟩ [])
    (hv : v ≠ []) (ht : u.take n = v.take n) : ¬tok.SettledBy m n := by
  intro hs
  have hread := lex_of_scans hlong
  rw [List.append_nil, hs u v ht h] at hread
  exact hv (Prod.mk.inj (Option.some.inj hread)).2

/-- A token that looks at one character behind it is longer if that is a character of its own. -/
theorem exists_longer (h : Scans m tok u) (hone : tok.lookahead m = 1) :
    ∃ k c, Scans m ⟨k, tok.text ++ [c]⟩ [] := by
  have hend : ∀ p, Stops p [] := fun p c hc => by cases hc
  have hgrow : ∀ {p : Char → Bool} {w : Text} {c : Char}, (∀ x ∈ w, p x = true) → p c = true →
      ∀ x ∈ w ++ [c], p x = true :=
    fun hw hc => List.forall_mem_append.2 ⟨hw, by simpa using hc⟩
  cases h with
  | blank hc hw hr => exact ⟨_, ' ', .blank hc (hgrow hw (by decide)) (hend _)⟩
  | comment hw hr => exact ⟨_, 'a', .comment (hgrow hw (by decide)) (hend _)⟩
  | word hc hw hr hd => exact ⟨_, 'a', .word hc (hgrow hw (by decide)) (hend _) (by simp)⟩
  | patternWord hc hw hr => exact ⟨_, 'a', .patternWord hc (hgrow hw (by decide)) (hend _)⟩
  | @integer minus ds _ hm hn hw hr =>
      refine ⟨.integer, '0', ?_⟩
      rw [List.cons_append, List.append_assoc]
      exact .integer hm (by simp) (hgrow hw (by decide)) (hend _)
  | openString hw hr hd => exact ⟨_, 'a', .openString (hgrow hw (by decide)) (hend _) (by simp)⟩
  | @stray _ c _ hc hd =>
      rw [lookahead_stray hc] at hone
      split at hone
      · rename_i hcolon
        obtain ⟨rfl, rfl⟩ := hcolon
        exact ⟨_, '=', .assign⟩
      · cases hone
  | _ => cases hone

theorem eq_sharp_of_lookahead (h : tok.lookahead m = 2) :
    m = .normal ∧ tok = ⟨.strayChar, ['#']⟩ := by
  obtain ⟨kind, text⟩ := tok
  unfold lookahead at h
  split at h
  · next hkind htext =>
      obtain rfl : kind = .strayChar := hkind
      obtain rfl : text = ['#'] := htext
      exact ⟨rfl, rfl⟩
  all_goals cases h

/-- A token that is read is settled by as many characters behind it as it looks at, and by no
fewer. -/
theorem isLeast_lookahead (h : lex m (tok.text ++ u) = some (tok, u)) :
    IsLeast {n | tok.SettledBy m n} (tok.lookahead m) := by
  refine ⟨settledBy_lookahead m tok, fun n hn => Nat.le_of_not_lt fun hlt => ?_⟩
  have hle := lookahead_le_two m tok
  obtain hone | htwo : tok.lookahead m = 1 ∨ tok.lookahead m = 2 := by omega
  · obtain rfl : n = 0 := by omega
    obtain ⟨k, c, hlong⟩ := exists_longer (scans_of_lex h) hone
    exact not_settledBy_of_longer h hlong (List.cons_ne_nil _ _) rfl hn
  · obtain ⟨rfl, rfl⟩ := eq_sharp_of_lookahead htwo
    have hminus : lex .normal ['#', '-'] = some (⟨.strayChar, ['#']⟩, ['-']) := by decide
    have hlong : Scans .normal ⟨.integer, '#' :: (['-'] ++ ['0'])⟩ [] :=
      .integer (.inr rfl) (by simp) (List.forall_mem_singleton.2 rfl) (fun c hc => by cases hc)
    refine not_settledBy_of_longer hminus (v := ['-', '0']) hlong (List.cons_ne_nil _ _) ?_ hn
    -- with one character less there is only the minus sign to see
    obtain rfl | rfl : n = 0 ∨ n = 1 := by omega
    · rfl
    · rfl

end Token

/-! ## Reading in another text -/

section At

variable {m : Mode} {s s' p : Text} {pos : Nat} {span : Span} {tok : Token}

/-- A text that is the same as far as the token looks has the same token there. -/
theorem lexAt_of_lookahead (h : lexAt m pos s = some (span, tok)) (hp : p <+: s) (hp' : p <+: s')
    (hreach : p.Reaches (tok.lookahead m) span.stop) : lexAt m pos s' = some (span, tok) := by
  obtain ⟨before, u, rest, rfl, rfl, hlex, rfl⟩ := lexAt_eq_some_iff.1 h
  obtain ⟨hu, -⟩ := append_of_lex hlex
  have hstop : before.size + tok.size = Text.size (before ++ tok.text) := by
    rw [Text.size_append]
    rfl
  rw [← hu, ← List.append_assoc] at hp
  obtain ⟨b, z, rfl, rfl, hb⟩ := Text.Reaches.exists_append (hstop ▸ hreach) hp
  obtain ⟨z', rfl⟩ := hp'
  have hsame : (b ++ z).take (tok.lookahead m) = (b ++ z').take (tok.lookahead m) := by
    rw [List.take_append_of_le_length hb, List.take_append_of_le_length hb]
  rw [← hu] at hlex
  refine lexAt_eq_some_iff.2 ⟨before, tok.text ++ (b ++ z'), b ++ z', by simp, rfl, ?_, rfl⟩
  exact tok.settledBy_lookahead m _ _ hsame hlex

/-- A token is the same in any text that is the same up to two characters behind it. -/
theorem lexAt_of_prefix (h : lexAt m pos s = some (span, tok)) (hp : p <+: s) (hp' : p <+: s')
    (hreach : p.Reaches 2 span.stop) : lexAt m pos s' = some (span, tok) :=
  lexAt_of_lookahead h hp hp' (hreach.mono (tok.lookahead_le_two m))

/-- A lone `#` stays one whatever stands behind the letter behind its minus sign. -/
theorem lexAt_of_prefix_sharp :
    lexAt .normal 1 "a#-x\n".toList = some (⟨1, 2⟩, ⟨.strayChar, ['#']⟩) ∧
      "a#-x".toList <+: "a#-x\n".toList ∧ "a#-x".toList <+: "a#-x1$".toList ∧
      Text.Reaches "a#-x".toList 2 2 ∧
      lexAt .normal 1 "a#-x1$".toList = some (⟨1, 2⟩, ⟨.strayChar, ['#']⟩) := by
  have hread : lexAt .normal 1 "a#-x\n".toList = some (⟨1, 2⟩, ⟨.strayChar, ['#']⟩) := by decide
  have hp : "a#-x".toList <+: "a#-x\n".toList := ⟨['\n'], rfl⟩
  have hp' : "a#-x".toList <+: "a#-x1$".toList := ⟨['1', '$'], rfl⟩
  have hreach : Text.Reaches "a#-x".toList 2 2 := ⟨['a', '#'], ['-', 'x'], rfl, rfl, Nat.le_refl 2⟩
  exact ⟨hread, hp, hp', hreach, lexAt_of_prefix hread hp hp' hreach⟩

end At

/-! ## Parsing in another text -/

/-- Where the parse of the text can be cut: a complete statement has an end behind which all that
matters is the next character, and what stands before a statement does not matter. -/
structure Text.Joints (s : Text) : Prop where
  restart : ∀ i g o, (Tree.parse s).segments[i]? = some g → g.isCompleteStatement = true →
    (Tree.parse s).offsets[i]? = some o → o + g.size < s.size →
    ∃ p c x, s = p ++ c :: x ∧ p.size = o + g.size ∧ ∀ x',
      (Tree.parse (p ++ c :: x')).segments.take (i + 1) = (Tree.parse s).segments.take (i + 1) ∧
      Machine.run (fun _ => none) (Machine.enough (Text.size (c :: x')))
          (.init (o + g.size) (c :: x')) =
        some ((Tree.parse (p ++ c :: x')).segments.drop (i + 1), none)
  resume : ∀ k o, (Tree.parse s).StatementAt k o →
    ∃ p u, s = p ++ u ∧ p.size = o ∧ (Tree.parse s).segments.drop k = (Tree.parse u).segments

namespace Tree

/-- The segments up to one end where it does. -/
theorem size_texts_take_succ {t : Tree} {i o : Nat} {g : Segment} (hg : t.segments[i]? = some g)
    (ho : t.offsets[i]? = some o) :
    (Segment.texts (t.segments.take (i + 1))).size = o + g.size := by
  rw [offsets, getElem?_offsetsFrom, hg, Option.map_some, Option.some.injEq, Nat.zero_add] at ho
  rw [Segment.size_texts, List.take_add_one, hg, Option.toList_some, List.map_append,
    Node.sizeAll_append, ho]
  simp [Segment.size]

/-- A run that starts afresh at any offset gives the segments of the parse. -/
theorem run_init (pos : Nat) (t : Text) :
    Machine.run (fun _ => none) (Machine.enough t.size) (.init pos t) =
      some ((parse t).segments, none) := by
  rw [Machine.run_enough, Machine.eq_parse_of_ends_init (Machine.ends_segments _ pos t)]

/-- Every text can be taken up behind its complete statements, and where a statement starts. -/
theorem joints_parse (s : Text) : s.Joints where
  restart i g o hg hc ho hlt := by
    have hp := size_texts_take_succ hg ho
    have hsplit := texts_take_drop s (i + 1)
    generalize htake : Segment.texts ((parse s).segments.take (i + 1)) = p at hp hsplit
    generalize Segment.texts ((parse s).segments.drop (i + 1)) = y at hsplit
    subst hsplit
    cases y with
    | nil => simp [hp] at hlt
    | cons c x =>
        refine ⟨p, c, x, rfl, hp, fun x' => ?_⟩
        have hlength : ((parse (p ++ c :: x)).segments.take (i + 1)).length = i + 1 := by
          have := (List.getElem?_eq_some_iff.1 hg).1
          rw [List.length_take]
          omega
        have hhead : (c :: x').head? = (c :: x).head? := rfl
        have hsegs := segments_parse_of_complete hg hc htake hhead
        refine ⟨?_, ?_⟩
        · rw [hsegs, List.take_left' hlength]
        · rw [run_init, hsegs, List.drop_left' hlength]
  resume k o hk := by
    obtain ⟨g, hg, hst, rfl⟩ := statementAt_iff.1 hk
    obtain ⟨u, hs, hdrop⟩ := exists_parse_eq_drop hg hst
    exact ⟨_, u, hs, rfl, hdrop⟩

/-- At the end of the text a complete statement may still grow into something else. -/
example : (parse "READ".toList).segments.all (·.isCompleteStatement) = true ∧
    (parse "READY".toList).segments.all (!·.isStatement) = true := by decide

end Tree

end BibStyle
