import BibStyle.Token

/-! # Reading tokens off a text

A token is the longest piece at the front of the text that one of the patterns of the mode
matches; a word that is a keyword counts as one. A character that begins no token is a token of
its own, so reading never fails before the end of the text.
-/

namespace BibStyle

namespace Lexer

def isBlank (c : Char) : Bool :=
  c == ' ' || c == '\t' || c == '\r' || c == '\n' || c == '\x0c' || c == '\u3000'

def isInComment (c : Char) : Bool := c != '\r' && c != '\n'

def isInString (c : Char) : Bool := c != '"' && c != '\n'

def isWordStart (c : Char) : Bool := c.isAlpha || c == '_'

def isWordPart (c : Char) : Bool :=
  c.isAlphanum || c == '_' || c == '.' || c == '+' || c == ':' || c == '<' || c == '>' ||
    c == '&' || c == '-'

def isPatternPart (c : Char) : Bool :=
  c.isAlphanum || c == '_' || c == '.' || c == '+' || c == '/' || c == '-'

def isOperator (c : Char) : Bool :=
  c == '=' || c == '*' || c == '>' || c == '<' || c == '+' || c == '-' || c == '&'

/-- A token of one character. -/
def one (kind : TokenKind) (c : Char) (t : Text) : Token × Text := (⟨kind, [c]⟩, t)

/-- A token of the character `c` and all that follows it and satisfies `p`. -/
def run (kind : TokenKind) (p : Char → Bool) (c : Char) (t : Text) : Token × Text :=
  (⟨kind, c :: t.takeWhile p⟩, t.dropWhile p)

/-- A keyword, or else a token of the given kind. -/
def wordKind (other : TokenKind) (word : Text) : TokenKind :=
  if (Command.ofWord? word).isSome then .keyword else other

/-- A dollar sign right after a word makes it the name of a builtin. -/
def word (c : Char) (t : Text) : Token × Text :=
  let text := c :: t.takeWhile isWordPart
  match t.dropWhile isWordPart with
  | '$' :: rest => (⟨.builtin, text ++ ['$']⟩, rest)
  | rest => (⟨wordKind .identifier text, text⟩, rest)

def patternWord (c : Char) (t : Text) : Token × Text :=
  let text := c :: t.takeWhile isPatternPart
  (⟨wordKind .pattern text, text⟩, t.dropWhile isPatternPart)

/-- The text of an integer after its `#` sign, if digits follow. -/
def digits? (t : Text) : Option (Text × Text) :=
  let (minus, t) := match t with
    | '-' :: t => (['-'], t)
    | t => ([], t)
  match t.takeWhile Char.isDigit with
  | [] => none
  | ds => some (minus ++ ds, t.dropWhile Char.isDigit)

def integer (t : Text) : Token × Text :=
  match digits? t with
  | some (ds, rest) => (⟨.integer, '#' :: ds⟩, rest)
  | none => one .strayChar '#' t

/-- A string ends on the line it starts on; without its closing quote it runs up to the end of
that line. -/
def string (t : Text) : Token × Text :=
  let text := '"' :: t.takeWhile isInString
  match t.dropWhile isInString with
  | '"' :: rest => (⟨.string, text ++ ['"']⟩, rest)
  | rest => (⟨.openString, text⟩, rest)

def normal (c : Char) (t : Text) : Token × Text :=
  if isBlank c then run .whitespace isBlank c t
  else if isWordStart c then word c t
  else if isOperator c then one .operator c t
  else match c, t with
    | '%', t => run .comment isInComment '%' t
    | '{', t => one .lbrace '{' t
    | '}', t => one .rbrace '}' t
    | '\x27', t => one .quote '\x27' t
    | '#', t => integer t
    | '"', t => string t
    | ':', '=' :: t => (⟨.operator, [':', '=']⟩, t)
    | c, t => one .strayChar c t

def pattern (c : Char) (t : Text) : Token × Text :=
  if isBlank c then run .whitespace isBlank c t
  else if isWordStart c then patternWord c t
  else match c with
    | '%' => run .comment isInComment '%' t
    | '{' => one .lbrace '{' t
    | '}' => one .rbrace '}' t
    | c => one .strayChar c t

end Lexer

/-- The first token of a text and what follows it; nothing at the end of the text. -/
def lex (m : Mode) : Text → Option (Token × Text)
  | [] => none
  | c :: t => match m with
    | .normal => some (Lexer.normal c t)
    | .pattern => some (Lexer.pattern c t)

namespace Lexer

/-- A token and the rest make up the text `c :: t`, and the token is not empty. -/
def Splits (r : Token × Text) (c : Char) (t : Text) : Prop :=
  r.1.text ++ r.2 = c :: t ∧ r.1.text ≠ []

theorem one_splits (kind : TokenKind) (c : Char) (t : Text) : Splits (one kind c t) c t := by
  simp [Splits, one]

theorem run_splits (kind : TokenKind) (p : Char → Bool) (c : Char) (t : Text) :
    Splits (run kind p c t) c t := by
  simp [Splits, run]

theorem word_splits (c : Char) (t : Text) : Splits (word c t) c t := by
  have h := List.takeWhile_append_dropWhile (p := isWordPart) (l := t)
  unfold word Splits
  split
  · rename_i rest hr
    rw [hr] at h
    simp [h]
  · simp

theorem patternWord_splits (c : Char) (t : Text) : Splits (patternWord c t) c t := by
  simp [Splits, patternWord]

theorem append_of_digits? {t ds rest : Text} (h : digits? t = some (ds, rest)) :
    ds ++ rest = t := by
  unfold digits? at h
  split at h
  rename_i minus u heq
  have ht : minus ++ u = t := by
    split at heq <;> cases heq <;> rfl
  split at h
  · simp at h
  · simp only [Option.some.injEq, Prod.mk.injEq] at h
    obtain ⟨rfl, rfl⟩ := h
    rw [List.append_assoc, List.takeWhile_append_dropWhile, ht]

theorem integer_splits (t : Text) : Splits (integer t) '#' t := by
  unfold integer
  split
  · rename_i ds rest h
    simp [Splits, append_of_digits? h]
  · exact one_splits ..

theorem string_splits (t : Text) : Splits (string t) '"' t := by
  have h := List.takeWhile_append_dropWhile (p := isInString) (l := t)
  unfold string Splits
  split
  · rename_i rest hr
    rw [hr] at h
    simp [h]
  · simp

theorem normal_splits (c : Char) (t : Text) : Splits (normal c t) c t := by
  unfold normal
  split
  · exact run_splits ..
  split
  · exact word_splits ..
  split
  · exact one_splits ..
  split
  · exact run_splits ..
  · exact one_splits ..
  · exact one_splits ..
  · exact one_splits ..
  · exact integer_splits ..
  · exact string_splits ..
  · simp [Splits]
  · exact one_splits ..

theorem pattern_splits (c : Char) (t : Text) : Splits (pattern c t) c t := by
  unfold pattern
  split
  · exact run_splits ..
  split
  · exact patternWord_splits ..
  split
  · exact run_splits ..
  all_goals exact one_splits ..

end Lexer

@[simp] theorem lex_nil (m : Mode) : lex m [] = none := rfl

theorem lex_eq_none_iff {m : Mode} {t : Text} : lex m t = none ↔ t = [] := by
  cases t with
  | nil => simp
  | cons c t => cases m <;> simp [lex]

/-- Reading a token loses nothing, and a token is never empty. -/
theorem append_of_lex {m : Mode} {t rest : Text} {tok : Token} (h : lex m t = some (tok, rest)) :
    tok.text ++ rest = t ∧ tok.text ≠ [] := by
  cases t with
  | nil => simp at h
  | cons c t =>
      cases m with
      | normal =>
          simp only [lex, Option.some.injEq] at h
          simpa [Lexer.Splits, h] using Lexer.normal_splits c t
      | pattern =>
          simp only [lex, Option.some.injEq] at h
          simpa [Lexer.Splits, h] using Lexer.pattern_splits c t

theorem length_lt_of_lex {m : Mode} {t rest : Text} {tok : Token}
    (h : lex m t = some (tok, rest)) : rest.length < t.length := by
  obtain ⟨h₁, h₂⟩ := append_of_lex h
  have : 0 < tok.text.length := List.length_pos_iff.2 h₂
  rw [← h₁, List.length_append]
  omega

/-- The token that starts at byte `pos`; nothing at or past the end, or inside a character. -/
def lexAt (m : Mode) (pos : Nat) (t : Text) : Option (Span × Token) :=
  match t.cut? pos with
  | some (_, rest) => (lex m rest).map fun (tok, _) => (⟨pos, pos + tok.size⟩, tok)
  | none => none

/-- All tokens of a text, read in one mode. -/
def lexAll (m : Mode) (t : Text) : List Token :=
  match _h : lex m t with
  | none => []
  | some (tok, rest) => tok :: lexAll m rest
termination_by t.length
decreasing_by exact length_lt_of_lex (by assumption)

theorem flatMap_text_lexAll (m : Mode) (t : Text) : (lexAll m t).flatMap Token.text = t := by
  fun_induction lexAll m t with
  | case1 t h => exact (lex_eq_none_iff.1 h).symm
  | case2 t tok rest h ih => simp [ih, (append_of_lex h).1]

end BibStyle
