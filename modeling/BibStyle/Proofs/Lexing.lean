import BibStyle.Proofs.Text
import BibStyle.Token.Lexer

/-!
# How far reading a token looks

`Scans m tok rest` says which tokens there are in mode `m` and what may stand behind each for it
to be the longest one; `lex_eq_some_iff` says that reading is exactly that. Everything the parser
relies on is read off the constructors:

* a token is settled by the character behind it, except for a lone `#`, which also needs the one
  after a minus sign (`lex_congr`);
* blanks, comments and closing braces are the same in both modes (`lex_mode_of_isTrivia`,
  `lex_mode_of_rbrace`);
* a keyword between the braces of a pattern starts a token at least as long outside of them
  (`lex_normal_of_pattern_keyword`), and a keyword outside is one inside unless a slash follows
  (`lex_pattern_of_normal_keyword`).
-/

namespace BibStyle

namespace Lexer

/-- No character at the front of the text satisfies `p`. -/
def Stops (p : Char → Bool) (t : Text) : Prop := ∀ c ∈ t.head?, p c = false

theorem Stops.congr {p : Char → Bool} {t u : Text} (h : Stops p t) (he : t.head? = u.head?) :
    Stops p u := fun c hc => h c (he ▸ hc)

theorem stops_dropWhile (p : Char → Bool) (t : Text) : Stops p (t.dropWhile p) := by
  intro c hc
  have h := List.head?_dropWhile_not p t
  rw [Option.mem_def] at hc
  rw [hc] at h
  exact h

theorem takeWhile_eq_nil_of_stops {p : Char → Bool} {t : Text} (h : Stops p t) :
    t.takeWhile p = [] := by
  cases t with
  | nil => rfl
  | cons c t => simp [h c (by simp)]

theorem dropWhile_eq_self_of_stops {p : Char → Bool} {t : Text} (h : Stops p t) :
    t.dropWhile p = t := by
  cases t with
  | nil => rfl
  | cons c t => simp [h c (by simp)]

theorem takeWhile_append_of_stops {p : Char → Bool} {w t : Text} (hw : ∀ c ∈ w, p c = true)
    (h : Stops p t) : (w ++ t).takeWhile p = w := by
  rw [List.takeWhile_append_of_pos hw, takeWhile_eq_nil_of_stops h, List.append_nil]

theorem dropWhile_append_of_stops {p : Char → Bool} {w t : Text} (hw : ∀ c ∈ w, p c = true)
    (h : Stops p t) : (w ++ t).dropWhile p = t := by
  rw [List.dropWhile_append_of_pos hw, dropWhile_eq_self_of_stops h]

theorem of_mem_takeWhile {p : Char → Bool} {t : Text} : ∀ c ∈ t.takeWhile p, p c = true :=
  List.all_eq_true.1 List.all_takeWhile

/-! ## Classes of characters -/

theorem isWordStart_of_isBlank {c : Char} (h : isBlank c = true) : isWordStart c = false := by
  simp only [isBlank, Bool.or_eq_true, beq_iff_eq] at h
  rcases h with ((((rfl | rfl) | rfl) | rfl) | rfl) | rfl <;> decide

theorem isBlank_of_isWordStart {c : Char} (h : isWordStart c = true) : isBlank c = false := by
  cases hb : isBlank c with
  | false => rfl
  | true => simp [isWordStart_of_isBlank hb] at h

theorem isOperator_cases {c : Char} (h : isOperator c = true) :
    isBlank c = false ∧ isWordStart c = false := by
  simp only [isOperator, Bool.or_eq_true, beq_iff_eq] at h
  rcases h with (((((rfl | rfl) | rfl) | rfl) | rfl) | rfl) | rfl <;> decide

/-- A character that starts no token by itself; a colon may still start one together with what
follows. -/
def isStray : Mode → Char → Bool
  | .normal, c => !(isBlank c || isWordStart c || isOperator c || c == '%' || c == '{' ||
      c == '}' || c == '\x27' || c == '#' || c == '"')
  | .pattern, c => !(isBlank c || isWordStart c || c == '%' || c == '{' || c == '}')

/-- A token of mode `m` that `rest` does not lengthen. -/
inductive Scans : Mode → Token → Text → Prop where
  | blank {m c w rest} (hc : isBlank c = true) (hw : ∀ x ∈ w, isBlank x = true)
      (hr : Stops isBlank rest) : Scans m ⟨.whitespace, c :: w⟩ rest
  | comment {m w rest} (hw : ∀ x ∈ w, isInComment x = true) (hr : Stops isInComment rest) :
      Scans m ⟨.comment, '%' :: w⟩ rest
  | lbrace {m rest} : Scans m ⟨.lbrace, ['{']⟩ rest
  | rbrace {m rest} : Scans m ⟨.rbrace, ['}']⟩ rest
  | quote {rest} : Scans .normal ⟨.quote, ['\x27']⟩ rest
  | word {c w rest} (hc : isWordStart c = true) (hw : ∀ x ∈ w, isWordPart x = true)
      (hr : Stops isWordPart rest) (hd : rest.head? ≠ some '$') :
      Scans .normal ⟨wordKind .identifier (c :: w), c :: w⟩ rest
  | builtin {c w rest} (hc : isWordStart c = true) (hw : ∀ x ∈ w, isWordPart x = true) :
      Scans .normal ⟨.builtin, c :: w ++ ['$']⟩ rest
  | patternWord {c w rest} (hc : isWordStart c = true) (hw : ∀ x ∈ w, isPatternPart x = true)
      (hr : Stops isPatternPart rest) :
      Scans .pattern ⟨wordKind .pattern (c :: w), c :: w⟩ rest
  | integer {minus ds rest} (hm : minus = [] ∨ minus = ['-']) (hn : ds ≠ [])
      (hw : ∀ x ∈ ds, x.isDigit = true) (hr : Stops Char.isDigit rest) :
      Scans .normal ⟨.integer, '#' :: (minus ++ ds)⟩ rest
  | sharp {rest} (hr : Stops Char.isDigit rest)
      (hd : rest.head? = some '-' → Stops Char.isDigit rest.tail) :
      Scans .normal ⟨.strayChar, ['#']⟩ rest
  | string {w rest} (hw : ∀ x ∈ w, isInString x = true) :
      Scans .normal ⟨.string, '"' :: w ++ ['"']⟩ rest
  | openString {w rest} (hw : ∀ x ∈ w, isInString x = true) (hr : Stops isInString rest)
      (hd : rest.head? ≠ some '"') : Scans .normal ⟨.openString, '"' :: w⟩ rest
  | operator {c rest} (hc : isOperator c = true) : Scans .normal ⟨.operator, [c]⟩ rest
  | assign {rest} : Scans .normal ⟨.operator, [':', '=']⟩ rest
  | stray {m c rest} (hc : isStray m c = true)
      (hd : m = .normal → c = ':' → rest.head? ≠ some '=') : Scans m ⟨.strayChar, [c]⟩ rest

/-- A word is a keyword or what its mode calls a word. -/
theorem wordKind_ne {kind other : TokenKind} (w : Text) (hk : kind ≠ .keyword)
    (ho : kind ≠ other) : wordKind other w ≠ kind := by
  unfold wordKind
  split
  · exact hk.symm
  · exact ho.symm

theorem ofWord?_of_wordKind {other : TokenKind} {w : Text} (ho : other ≠ .keyword)
    (h : wordKind other w = .keyword) : ∃ c, Command.ofWord? w = some c := by
  unfold wordKind at h
  split at h
  · exact Option.isSome_iff_exists.1 ‹_›
  · exact absurd h ho

/-! ## Reading a token is scanning -/

theorem scans_run (m : Mode) (c : Char) (t : Text) (hc : isBlank c = true) :
    Scans m (run .whitespace isBlank c t).1 (run .whitespace isBlank c t).2 :=
  .blank hc of_mem_takeWhile (stops_dropWhile _ _)

theorem scans_comment (m : Mode) (t : Text) :
    Scans m (run .comment isInComment '%' t).1 (run .comment isInComment '%' t).2 :=
  .comment of_mem_takeWhile (stops_dropWhile _ _)

theorem scans_word {c : Char} (t : Text) (hc : isWordStart c = true) :
    Scans .normal (word c t).1 (word c t).2 := by
  unfold word
  split
  · exact .builtin hc of_mem_takeWhile
  · rename_i rest hd
    refine .word hc of_mem_takeWhile (stops_dropWhile _ _) ?_
    intro h
    obtain ⟨u, hu⟩ := List.head?_eq_some_iff.1 h
    exact hd u hu

theorem scans_patternWord {c : Char} (t : Text) (hc : isWordStart c = true) :
    Scans .pattern (patternWord c t).1 (patternWord c t).2 :=
  .patternWord hc of_mem_takeWhile (stops_dropWhile _ _)

theorem digits?_eq_none {t : Text} (h : digits? t = none) :
    Stops Char.isDigit t ∧ (t.head? = some '-' → Stops Char.isDigit t.tail) := by
  unfold digits? at h
  split at h
  rename_i minus u heq
  have hu : Stops Char.isDigit u := by
    intro c hc
    obtain ⟨v, rfl⟩ := List.head?_eq_some_iff.1 hc
    cases hd : c.isDigit with
    | false => rfl
    | true => simp [hd] at h
  split at heq
  · rename_i v
    obtain ⟨-, rfl⟩ := Prod.mk.inj heq
    exact ⟨by intro c hc; simp at hc; subst hc; decide, fun _ => hu⟩
  · rename_i v hv
    obtain ⟨-, rfl⟩ := Prod.mk.inj heq
    refine ⟨hu, ?_⟩
    intro hm
    obtain ⟨w, rfl⟩ := List.head?_eq_some_iff.1 hm
    exact absurd rfl (hv w)

theorem scans_integer (t : Text) : Scans .normal (integer t).1 (integer t).2 := by
  unfold integer
  split
  · rename_i ds rest h
    unfold digits? at h
    split at h
    rename_i minus u heq
    have hm : minus = [] ∨ minus = ['-'] := by
      split at heq <;> cases heq <;> simp
    split at h
    · simp at h
    · rename_i hne
      simp only [Option.some.injEq, Prod.mk.injEq] at h
      obtain ⟨rfl, rfl⟩ := h
      exact .integer hm hne of_mem_takeWhile (stops_dropWhile _ _)
  · rename_i h
    obtain ⟨hr, hd⟩ := digits?_eq_none h
    exact .sharp hr hd

theorem scans_string (t : Text) : Scans .normal (string t).1 (string t).2 := by
  unfold string
  split
  · exact .string of_mem_takeWhile
  · rename_i rest hd
    refine .openString of_mem_takeWhile (stops_dropWhile _ _) ?_
    intro h
    obtain ⟨u, hu⟩ := List.head?_eq_some_iff.1 h
    exact hd u hu

theorem scans_normal (c : Char) (t : Text) : Scans .normal (normal c t).1 (normal c t).2 := by
  unfold normal
  split
  · exact scans_run _ _ _ ‹_›
  split
  · exact scans_word _ ‹_›
  split
  · exact .operator ‹_›
  rename_i hb hw ho
  split
  · exact scans_comment _ _
  · exact .lbrace
  · exact .rbrace
  · exact .quote
  · exact scans_integer _
  · exact scans_string _
  · exact .assign
  · rename_i h₁ h₂ h₃ h₄ h₅ h₆ h₇
    refine .stray ?_ ?_
    · simp_all [isStray]
    · rintro - rfl h
      obtain ⟨u, hu⟩ := List.head?_eq_some_iff.1 h
      exact h₇ u rfl hu

theorem scans_pattern (c : Char) (t : Text) :
    Scans .pattern (pattern c t).1 (pattern c t).2 := by
  unfold pattern
  split
  · exact scans_run _ _ _ ‹_›
  split
  · exact scans_patternWord _ ‹_›
  rename_i hb hw
  split
  · exact scans_comment _ _
  · exact .lbrace
  · exact .rbrace
  · refine .stray ?_ (by simp)
    simp_all [isStray]

theorem digits?_eq_some {minus ds rest : Text} (hm : minus = [] ∨ minus = ['-']) (hn : ds ≠ [])
    (hw : ∀ x ∈ ds, x.isDigit = true) (hr : Stops Char.isDigit rest) :
    digits? (minus ++ ds ++ rest) = some (minus ++ ds, rest) := by
  obtain ⟨d, ds, rfl⟩ := List.exists_cons_of_ne_nil hn
  have ht := takeWhile_append_of_stops hw hr
  have hd := dropWhile_append_of_stops hw hr
  rcases hm with rfl | rfl
  · have hm : d ≠ '-' := by
      rintro rfl
      exact absurd (hw '-' (by simp)) (by decide)
    unfold digits?
    simp only [List.nil_append, List.cons_append] at ht hd ⊢
    split
    · rename_i heq
      split at heq
      · rename_i v hv
        exact absurd (List.cons.inj hv).1 hm
      · simp [ht] at heq
    · split
      · rename_i v hv
        exact absurd (List.cons.inj hv).1 hm
      · simp [ht, hd]
  · unfold digits?
    simp only [List.cons_append, List.nil_append] at ht hd ⊢
    simp [ht, hd]

theorem digits?_of_stops {rest : Text} (hr : Stops Char.isDigit rest)
    (hd : rest.head? = some '-' → Stops Char.isDigit rest.tail) : digits? rest = none := by
  unfold digits?
  split
  rename_i minus u heq
  have hu : Stops Char.isDigit u := by
    split at heq
    · obtain ⟨-, rfl⟩ := Prod.mk.inj heq
      exact hd rfl
    · obtain ⟨-, rfl⟩ := Prod.mk.inj heq
      exact hr
  simp [takeWhile_eq_nil_of_stops hu]

theorem normal_of_scans {tok : Token} {rest : Text} (h : Scans .normal tok rest) :
    ∃ c w, tok.text = c :: w ∧ normal c (w ++ rest) = (tok, rest) := by
  cases h with
  | @blank _ c w _ hc hw hr =>
      refine ⟨c, w, rfl, ?_⟩
      unfold normal
      rw [if_pos hc, run, takeWhile_append_of_stops hw hr, dropWhile_append_of_stops hw hr]
  | @comment _ w _ hw hr =>
      refine ⟨'%', w, rfl, ?_⟩
      unfold normal
      rw [if_neg (by decide), if_neg (by decide), if_neg (by decide)]
      simp [run, takeWhile_append_of_stops hw hr, dropWhile_append_of_stops hw hr]
  | lbrace => exact ⟨'{', [], rfl, rfl⟩
  | rbrace => exact ⟨'}', [], rfl, rfl⟩
  | quote => exact ⟨'\x27', [], rfl, rfl⟩
  | @word c w _ hc hw hr hd =>
      refine ⟨c, w, rfl, ?_⟩
      unfold normal
      rw [if_neg (by simp [isBlank_of_isWordStart hc]), if_pos hc, Lexer.word,
        takeWhile_append_of_stops hw hr, dropWhile_append_of_stops hw hr]
      split
      · exact absurd rfl hd
      · rfl
  | @builtin c w _ hc hw =>
      refine ⟨c, w ++ ['$'], rfl, ?_⟩
      have hr : Stops isWordPart ('$' :: rest) := by
        intro x hx
        simp at hx
        subst hx
        decide
      unfold normal
      rw [if_neg (by simp [isBlank_of_isWordStart hc]), if_pos hc, Lexer.word,
        List.append_assoc, List.singleton_append, takeWhile_append_of_stops hw hr,
        dropWhile_append_of_stops hw hr]
      rfl
  | @integer minus ds _ hm hn hw hr =>
      refine ⟨'#', minus ++ ds, rfl, ?_⟩
      unfold normal
      rw [if_neg (by decide), if_neg (by decide), if_neg (by decide)]
      simp only [Lexer.integer, digits?_eq_some hm hn hw hr]
  | sharp hr hd =>
      refine ⟨'#', [], rfl, ?_⟩
      unfold normal
      rw [if_neg (by decide), if_neg (by decide), if_neg (by decide)]
      simp only [Lexer.integer, List.nil_append, digits?_of_stops hr hd, one]
  | @string w _ hw =>
      refine ⟨'"', w ++ ['"'], rfl, ?_⟩
      have hr : Stops isInString ('"' :: rest) := by
        intro x hx
        simp at hx
        subst hx
        decide
      unfold normal
      rw [if_neg (by decide), if_neg (by decide), if_neg (by decide)]
      simp only [Lexer.string, List.append_assoc, List.cons_append, List.nil_append,
        takeWhile_append_of_stops hw hr, dropWhile_append_of_stops hw hr]
  | @openString w _ hw hr hd =>
      refine ⟨'"', w, rfl, ?_⟩
      unfold normal
      rw [if_neg (by decide), if_neg (by decide), if_neg (by decide)]
      simp only [Lexer.string, takeWhile_append_of_stops hw hr, dropWhile_append_of_stops hw hr]
      split
      · exact absurd rfl hd
      · rfl
  | @operator c _ hc =>
      obtain ⟨hb, hs⟩ := isOperator_cases hc
      refine ⟨c, [], rfl, ?_⟩
      unfold normal
      rw [if_neg (by simp [hb]), if_neg (by simp [hs]), if_pos hc]
      rfl
  | assign => exact ⟨':', ['='], rfl, rfl⟩
  | @stray _ c _ hc hd =>
      refine ⟨c, [], rfl, ?_⟩
      simp only [isStray, Bool.not_eq_true', Bool.or_eq_false_iff, beq_eq_false_iff_ne] at hc
      obtain ⟨⟨⟨⟨⟨⟨⟨⟨hb, hw⟩, ho⟩, h₁⟩, h₂⟩, h₃⟩, h₄⟩, h₅⟩, h₆⟩ := hc
      unfold normal
      rw [if_neg (by simp [hb]), if_neg (by simp [hw]), if_neg (by simp [ho])]
      split
      all_goals first | contradiction | rfl | skip
      rename_i h
      exact absurd (by rw [List.nil_append] at h; rw [h]; rfl) (hd rfl rfl)

theorem pattern_of_scans {tok : Token} {rest : Text} (h : Scans .pattern tok rest) :
    ∃ c w, tok.text = c :: w ∧ pattern c (w ++ rest) = (tok, rest) := by
  cases h with
  | @blank _ c w _ hc hw hr =>
      refine ⟨c, w, rfl, ?_⟩
      unfold pattern
      rw [if_pos hc, run, takeWhile_append_of_stops hw hr, dropWhile_append_of_stops hw hr]
  | @comment _ w _ hw hr =>
      refine ⟨'%', w, rfl, ?_⟩
      unfold pattern
      rw [if_neg (by decide), if_neg (by decide)]
      simp [run, takeWhile_append_of_stops hw hr, dropWhile_append_of_stops hw hr]
  | lbrace => exact ⟨'{', [], rfl, rfl⟩
  | rbrace => exact ⟨'}', [], rfl, rfl⟩
  | @patternWord c w _ hc hw hr =>
      refine ⟨c, w, rfl, ?_⟩
      unfold pattern
      rw [if_neg (by simp [isBlank_of_isWordStart hc]), if_pos hc, Lexer.patternWord,
        takeWhile_append_of_stops hw hr, dropWhile_append_of_stops hw hr]
  | @stray _ c _ hc hd =>
      refine ⟨c, [], rfl, ?_⟩
      simp only [isStray, Bool.not_eq_true', Bool.or_eq_false_iff, beq_eq_false_iff_ne] at hc
      obtain ⟨⟨⟨⟨hb, hw⟩, h₁⟩, h₂⟩, h₃⟩ := hc
      unfold pattern
      rw [if_neg (by simp [hb]), if_neg (by simp [hw])]
      split
      all_goals first | contradiction | rfl

end Lexer

open Lexer

theorem scans_of_lex {m : Mode} {t rest : Text} {tok : Token} (h : lex m t = some (tok, rest)) :
    Scans m tok rest := by
  cases t with
  | nil => simp at h
  | cons c t =>
      cases m with
      | normal =>
          simp only [lex, Option.some.injEq] at h
          simpa [h] using scans_normal c t
      | pattern =>
          simp only [lex, Option.some.injEq] at h
          simpa [h] using scans_pattern c t

theorem lex_of_scans {m : Mode} {rest : Text} {tok : Token} (h : Scans m tok rest) :
    lex m (tok.text ++ rest) = some (tok, rest) := by
  cases m with
  | normal =>
      obtain ⟨c, w, ht, hn⟩ := normal_of_scans h
      rw [ht, List.cons_append, lex, hn]
  | pattern =>
      obtain ⟨c, w, ht, hn⟩ := pattern_of_scans h
      rw [ht, List.cons_append, lex, hn]

/-- Reading a token is finding one in front that the rest does not lengthen. -/
theorem lex_eq_some_iff {m : Mode} {t rest : Text} {tok : Token} :
    lex m t = some (tok, rest) ↔ t = tok.text ++ rest ∧ Scans m tok rest := by
  constructor
  · intro h
    exact ⟨(append_of_lex h).1.symm, scans_of_lex h⟩
  · rintro ⟨rfl, h⟩
    exact lex_of_scans h

/-! ## What a token depends on -/

/-- The texts `rest` and `rest'` look the same from the end of the token `tok`: they start alike,
and behind a stray character a minus sign is followed alike. -/
def SameAhead (tok : Token) (rest rest' : Text) : Prop :=
  rest.head? = rest'.head? ∧
    (tok.kind = .strayChar → rest.head? = some '-' → rest.tail.head? = rest'.tail.head?)

/-- A token stays the same when the text behind it is exchanged for one that looks the same. -/
theorem Lexer.Scans.congr {m : Mode} {tok : Token} {rest rest' : Text} (h : Scans m tok rest)
    (ha : SameAhead tok rest rest') : Scans m tok rest' := by
  obtain ⟨hh, ht⟩ := ha
  cases h with
  | blank hc hw hr => exact .blank hc hw (hr.congr hh)
  | comment hw hr => exact .comment hw (hr.congr hh)
  | lbrace => exact .lbrace
  | rbrace => exact .rbrace
  | quote => exact .quote
  | word hc hw hr hd => exact .word hc hw (hr.congr hh) (hh ▸ hd)
  | builtin hc hw => exact .builtin hc hw
  | patternWord hc hw hr => exact .patternWord hc hw (hr.congr hh)
  | integer hm hn hw hr => exact .integer hm hn hw (hr.congr hh)
  | sharp hr hd =>
      refine .sharp (hr.congr hh) ?_
      intro hm
      rw [← hh] at hm
      exact (hd hm).congr (ht rfl hm)
  | string hw => exact .string hw
  | openString hw hr hd => exact .openString hw (hr.congr hh) (hh ▸ hd)
  | operator hc => exact .operator hc
  | assign => exact .assign
  | stray hc hd => exact .stray hc (hh ▸ hd)

theorem lex_congr {m : Mode} {t rest rest' : Text} {tok : Token}
    (h : lex m t = some (tok, rest)) (ha : SameAhead tok rest rest') :
    lex m (tok.text ++ rest') = some (tok, rest') :=
  lex_of_scans ((scans_of_lex h).congr ha)

theorem Lexer.Stops.of_append {p : Char → Bool} {t u : Text} (h : Stops p (t ++ u)) :
    Stops p t := by
  intro c hc
  obtain ⟨v, rfl⟩ := List.head?_eq_some_iff.1 hc
  exact h c rfl

theorem head?_ne_of_append {c : Char} {t u : Text} (h : (t ++ u).head? ≠ some c) :
    t.head? ≠ some c := by
  intro hc
  obtain ⟨v, rfl⟩ := List.head?_eq_some_iff.1 hc
  exact h rfl

/-- A token is one as well when the text ends somewhere behind it. -/
theorem Lexer.Scans.of_append {m : Mode} {tok : Token} {rest x : Text}
    (h : Scans m tok (rest ++ x)) : Scans m tok rest := by
  cases h with
  | blank hc hw hr => exact .blank hc hw hr.of_append
  | comment hw hr => exact .comment hw hr.of_append
  | lbrace => exact .lbrace
  | rbrace => exact .rbrace
  | quote => exact .quote
  | word hc hw hr hd => exact .word hc hw hr.of_append (head?_ne_of_append hd)
  | builtin hc hw => exact .builtin hc hw
  | patternWord hc hw hr => exact .patternWord hc hw hr.of_append
  | integer hm hn hw hr => exact .integer hm hn hw hr.of_append
  | sharp hr hd =>
      refine .sharp hr.of_append ?_
      intro hm
      obtain ⟨v, rfl⟩ := List.head?_eq_some_iff.1 hm
      exact (hd rfl).of_append
  | string hw => exact .string hw
  | openString hw hr hd => exact .openString hw hr.of_append (head?_ne_of_append hd)
  | operator hc => exact .operator hc
  | assign => exact .assign
  | stray hc hd => exact .stray hc fun hm hc => head?_ne_of_append (hd hm hc)

/-- Blanks at the end of a text stay a token of their own in front of anything but blanks. -/
theorem lex_of_whitespace {m : Mode} {t rest rest' : Text} {tok : Token}
    (h : lex m t = some (tok, rest)) (hk : tok.kind = .whitespace) (hr : Stops isBlank rest') :
    lex m (tok.text ++ rest') = some (tok, rest') := by
  have hs := scans_of_lex h
  cases hs with
  | blank hc hw _ => exact lex_of_scans (.blank hc hw hr)
  | word => exact absurd hk (wordKind_ne _ (by simp) (by simp))
  | patternWord => exact absurd hk (wordKind_ne _ (by simp) (by simp))
  | _ => cases hk

/-- Only blanks contain a line break. -/
theorem whitespace_of_newline_mem {m : Mode} {t rest : Text} {tok : Token}
    (h : lex m t = some (tok, rest)) (hn : '\n' ∈ tok.text) : tok.kind = .whitespace := by
  have hne : ∀ {p : Char → Bool} {w : Text}, p '\n' = false → (∀ x ∈ w, p x = true) →
      '\n' ∉ w := by
    intro p w hp hw hm
    exact absurd (hw _ hm) (by simp [hp])
  have hs := scans_of_lex h
  cases hs with
  | blank => rfl
  | comment hw _ => simp [hne (by decide) hw] at hn
  | word hc hw _ _ =>
      rcases List.mem_cons.1 hn with rfl | hn
      · exact absurd hc (by decide)
      · exact absurd hn (hne (by decide) hw)
  | builtin hc hw =>
      simp only [List.cons_append, List.mem_cons, List.mem_append, List.not_mem_nil] at hn
      rcases hn with rfl | hn | hn | hn
      · exact absurd hc (by decide)
      · exact absurd hn (hne (by decide) hw)
      · exact absurd hn (by decide)
      · exact hn.elim
  | patternWord hc hw _ =>
      rcases List.mem_cons.1 hn with rfl | hn
      · exact absurd hc (by decide)
      · exact absurd hn (hne (by decide) hw)
  | integer hm _ hw _ =>
      rcases hm with rfl | rfl <;> simp [hne (by decide) hw] at hn
  | string hw => simp [hne (by decide) hw] at hn
  | openString hw _ _ => simp [hne (by decide) hw] at hn
  | operator hc =>
      simp only [List.mem_singleton] at hn
      subst hn
      exact absurd hc (by decide)
  | @stray m c _ hc _ =>
      simp only [List.mem_singleton] at hn
      subst hn
      cases m <;> exact absurd hc (by decide)
  | _ => simp at hn

/-! ## The two modes -/

/-- Blanks, comments and closing braces are the same tokens in both modes. -/
theorem Lexer.Scans.mode {m : Mode} (m' : Mode) {rest : Text} {tok : Token} (h : Scans m tok rest)
    (hk : tok.kind = .whitespace ∨ tok.kind = .comment ∨ tok.kind = .rbrace) :
    Scans m' tok rest := by
  have hword : ∀ {other : TokenKind} {w : Text}, other = .identifier ∨ other = .pattern →
      ¬(wordKind other w = .whitespace ∨ wordKind other w = .comment ∨
        wordKind other w = .rbrace) := by
    rintro other w (rfl | rfl) (h | h | h) <;>
      exact absurd h (wordKind_ne _ (by simp) (by simp))
  cases h with
  | blank hc hw hr => exact .blank hc hw hr
  | comment hw hr => exact .comment hw hr
  | rbrace => exact .rbrace
  | word => exact absurd hk (hword (.inl rfl))
  | patternWord => exact absurd hk (hword (.inr rfl))
  | _ => simp at hk

theorem lex_mode_of_isTrivia {m m' : Mode} {t rest : Text} {tok : Token}
    (h : lex m t = some (tok, rest)) (hk : tok.kind.isTrivia = true) :
    lex m' t = some (tok, rest) := by
  obtain ⟨rfl, hs⟩ := lex_eq_some_iff.1 h
  refine lex_of_scans (hs.mode m' ?_)
  cases hkind : tok.kind <;> simp_all [TokenKind.isTrivia]

theorem lex_mode_of_rbrace {m m' : Mode} {t rest : Text} {tok : Token}
    (h : lex m t = some (tok, rest)) (hk : tok.kind = .rbrace) : lex m' t = some (tok, rest) := by
  obtain ⟨rfl, hs⟩ := lex_eq_some_iff.1 h
  exact lex_of_scans (hs.mode m' (.inr (.inr hk)))

/-- Patterns are tokens of their own mode only. -/
theorem kind_ne_pattern_of_lex {t rest : Text} {tok : Token}
    (h : lex .normal t = some (tok, rest)) : tok.kind ≠ .pattern := by
  have hs := scans_of_lex h
  cases hs with
  | word => exact wordKind_ne _ (by simp) (by simp)
  | _ => simp

/-- Identifiers and builtins are none of pattern mode. -/
theorem isSymbol_of_lex_pattern {t rest : Text} {tok : Token}
    (h : lex .pattern t = some (tok, rest)) : tok.kind.isSymbol = false := by
  have hs := scans_of_lex h
  cases hs with
  | patternWord =>
      simp only [wordKind]
      split <;> rfl
  | _ => rfl

/-- A keyword is the name of a command. -/
theorem ofWord?_of_keyword {m : Mode} {t rest : Text} {tok : Token}
    (h : lex m t = some (tok, rest)) (hk : tok.kind = .keyword) :
    ∃ c, Command.ofWord? tok.text = some c := by
  have hs := scans_of_lex h
  cases hs with
  | word => exact ofWord?_of_wordKind (by simp) hk
  | patternWord => exact ofWord?_of_wordKind (by simp) hk
  | _ => cases hk

theorem map_toUpper_of_ofWord? {w : Text} {c : Command} (h : Command.ofWord? w = some c) :
    w.map Char.toUpper = c.keyword.toList := by
  have h' := List.find?_some h
  exact (beq_iff_eq.1 h').symm

/-- A word names a command if it is the keyword of the command, in capital or small letters. -/
theorem ofWord?_eq_some_iff {w : Text} {c : Command} :
    Command.ofWord? w = some c ↔ w.map Char.toUpper = c.keyword.toList := by
  refine ⟨map_toUpper_of_ofWord?, ?_⟩
  intro h
  have hkeyword : ∀ c : Command,
      Command.all.find? (·.keyword.toList == c.keyword.toList) = some c := by
    intro c
    cases c <;> rfl
  rw [Command.ofWord?, h]
  exact hkeyword c

theorem isAlpha_of_toUpper_mem {x : Char} {c : Command} (h : x.toUpper ∈ c.keyword.toList) :
    x.isAlpha = true := by
  have hk : c.keyword.toList.all Char.isAlpha = true := by cases c <;> rfl
  unfold Char.toUpper at h
  split at h
  · rename_i hx
    have hlower : x.isLower = true :=
      Bool.and_eq_true_iff.2 ⟨decide_eq_true hx.1, decide_eq_true hx.2⟩
    exact Bool.or_eq_true_iff.2 (.inr hlower)
  · exact List.all_eq_true.1 hk x h

/-- The name of a command consists of letters. -/
theorem isAlpha_of_ofWord? {w : Text} {c : Command} (h : Command.ofWord? w = some c) :
    ∀ x ∈ w, x.isAlpha = true := by
  intro x hx
  refine isAlpha_of_toUpper_mem (c := c) ?_
  rw [← map_toUpper_of_ofWord? h]
  exact List.mem_map_of_mem hx

theorem isWordPart_of_isAlpha {x : Char} (h : x.isAlpha = true) : isWordPart x = true := by
  simp [isWordPart, Char.isAlphanum, h]

theorem isPatternPart_of_isAlpha {x : Char} (h : x.isAlpha = true) : isPatternPart x = true := by
  simp [isPatternPart, Char.isAlphanum, h]

theorem isWordPart_of_isPatternPart {x : Char} (h : isPatternPart x = true) (hx : x ≠ '/') :
    isWordPart x = true := by
  simp only [isPatternPart, Bool.or_eq_true, beq_iff_eq] at h
  simp only [isWordPart, Bool.or_eq_true, beq_iff_eq]
  rcases h with ((((h | h) | h) | h) | h) | h
  · simp [h]
  · simp [h]
  · simp [h]
  · simp [h]
  · exact absurd h hx
  · simp [h]

theorem mem_of_isWordPart {x : Char} (h : isWordPart x = true) (hp : isPatternPart x = false) :
    x ∈ [':', '<', '>', '&'] := by
  simp only [isWordPart, isPatternPart, Bool.or_eq_true, Bool.or_eq_false_iff, beq_iff_eq,
    beq_eq_false_iff_ne] at h hp
  simp only [List.mem_cons, List.not_mem_nil, or_false]
  grind

theorem lex_of_isBlank {x : Char} (h : isBlank x = true) (t : Text) :
    lex .normal (x :: t) = some (Lexer.run .whitespace isBlank x t) := by
  simp only [lex]
  unfold normal
  rw [if_pos h]

theorem lex_of_isWordStart {x : Char} (h : isWordStart x = true) (t : Text) :
    lex .normal (x :: t) = some (Lexer.word x t) := by
  simp only [lex]
  unfold normal
  rw [if_neg (by simp [isBlank_of_isWordStart h]), if_pos h]

theorem TokenKind.isFiller_of_isSymbol {k : TokenKind} (h : k.isSymbol = true) :
    k.isFiller = false := by
  cases k <;> first | rfl | cases h

/-- A keyword read in pattern mode is one in normal mode as well, unless a character follows that
makes it longer there. -/
theorem lex_normal_or_longer {t rest : Text} {tok : Token}
    (h : lex .pattern t = some (tok, rest)) (hk : tok.kind = .keyword) :
    lex .normal t = some (tok, rest) ∨ ∃ tok' rest' x u, lex .normal t = some (tok', rest') ∧
      tok'.kind.isSymbol = true ∧ tok'.text = tok.text ++ x :: u ∧
      x ∈ [':', '<', '>', '&', '$'] := by
  obtain ⟨c, hc⟩ := ofWord?_of_keyword h hk
  have ha := isAlpha_of_ofWord? hc
  obtain ⟨rfl, hs⟩ := lex_eq_some_iff.1 h
  cases hs with
  | @patternWord x w _ hx hw hr =>
      have hw' : ∀ y ∈ w, isWordPart y = true := fun y hy =>
        isWordPart_of_isAlpha (ha y (List.mem_cons_of_mem _ hy))
      have hkind : wordKind .identifier (x :: w) = wordKind .pattern (x :: w) := by
        simp [wordKind, hc]
      rw [List.cons_append, lex_of_isWordStart hx, Lexer.word, List.dropWhile_append_of_pos hw',
        List.takeWhile_append_of_pos hw']
      by_cases hstops : Stops isWordPart rest
      · rw [takeWhile_eq_nil_of_stops hstops, dropWhile_eq_self_of_stops hstops, List.append_nil]
        split
        · exact .inr ⟨_, _, '$', [], rfl, rfl, rfl, by simp⟩
        · rw [hkind]
          exact .inl rfl
      · -- the next character is part of a word, but not of a pattern
        obtain ⟨y, hy, hpart⟩ : ∃ y ∈ rest.head?, isWordPart y = true := by
          simpa [Stops] using hstops
        obtain ⟨v, rfl⟩ := List.head?_eq_some_iff.1 hy
        have hpattern : isPatternPart y = false := hr y rfl
        have hmem : y ∈ [':', '<', '>', '&', '$'] :=
          List.mem_append_left ['$'] (mem_of_isWordPart hpart hpattern)
        have hlong : Command.ofWord? (x :: (w ++ y :: v.takeWhile isWordPart)) = none := by
          rw [Option.eq_none_iff_forall_ne_some]
          intro c' hc'
          have hy' := isAlpha_of_ofWord? hc' y (by simp)
          rw [isPatternPart_of_isAlpha hy'] at hpattern
          cases hpattern
        rw [List.takeWhile_cons_of_pos hpart]
        split
        · exact .inr ⟨_, _, y, v.takeWhile isWordPart ++ ['$'], rfl, rfl, by simp, hmem⟩
        · refine .inr ⟨_, _, y, v.takeWhile isWordPart, rfl, ?_, by simp, hmem⟩
          simp [wordKind, hlong, TokenKind.isSymbol]
  | _ => cases hk

/-- A keyword read in pattern mode is the front of a token of normal mode. -/
theorem lex_normal_of_pattern_keyword {t rest : Text} {tok : Token}
    (h : lex .pattern t = some (tok, rest)) (hk : tok.kind = .keyword) :
    ∃ tok' rest', lex .normal t = some (tok', rest') ∧ rest'.length ≤ rest.length := by
  rcases lex_normal_or_longer h hk with h' | ⟨tok', rest', x, u, h', -, htext, -⟩
  · exact ⟨tok, rest, h', Nat.le_refl _⟩
  · refine ⟨tok', rest', h', ?_⟩
    have hlength := congrArg List.length ((append_of_lex h).1.trans (append_of_lex h').1.symm)
    rw [htext] at hlength
    simp only [List.length_append, List.length_cons] at hlength
    omega

/-- A keyword of normal mode is one of pattern mode if no slash follows. -/
theorem lex_pattern_of_normal_keyword {t rest : Text} {tok : Token}
    (h : lex .normal t = some (tok, rest)) (hk : tok.kind = .keyword)
    (hr : rest.head? ≠ some '/') : lex .pattern t = some (tok, rest) := by
  obtain ⟨c, hc⟩ := ofWord?_of_keyword h hk
  have ha := isAlpha_of_ofWord? hc
  obtain ⟨rfl, hs⟩ := lex_eq_some_iff.1 h
  refine lex_of_scans ?_
  cases hs with
  | @word x w _ hx hw hs hd =>
      have hkind : wordKind .identifier (x :: w) = wordKind .pattern (x :: w) := by
        simp [wordKind, hc]
      rw [hkind]
      refine .patternWord hx ?_ ?_
      · intro y hy
        exact isPatternPart_of_isAlpha (ha y (List.mem_cons_of_mem _ hy))
      · intro y hy
        cases hp : isPatternPart y with
        | false => rfl
        | true =>
            have hne : y ≠ '/' := by
              rintro rfl
              exact hr hy
            exact absurd (isWordPart_of_isPatternPart hp hne) (by simp [hs y hy])
  | _ => cases hk

end BibStyle
