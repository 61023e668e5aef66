import BibStyle.Grammar
import BibStyle.Proofs.Reading

/-!
# The grammar as derivations

`Derivable t` says that the text can be read as tokens that, blanks and comments apart, follow the
productions of the grammar. Each token comes with the mode it is read in: what stands between the
braces of a macro's pattern is read as a pattern, and everything else as usual. Blanks and comments
are the same tokens in both modes, so theirs do not matter.

The second half takes derivations apart from the left. `After p k` and the like say that a list of
tokens starts with a `p` and goes on as `k` wants; what the first token can be, and what is left to
derive behind it, is one equivalence for each of them.
-/

namespace BibStyle

namespace Grammar

/-- A token of the kind, outside of patterns. -/
def IsToken (kind : TokenKind) (l : Lexeme) : Prop := l.1 = .normal ∧ l.2.kind = kind

/-- The keyword of the command, in capital or small letters. -/
def IsKeyword (c : Command) (l : Lexeme) : Prop :=
  IsToken .keyword l ∧ l.2.text.map Char.toUpper = c.keyword.toList

def IsPattern (l : Lexeme) : Prop := l.1 = .pattern ∧ l.2.kind = .pattern

def IsSymbol (l : Lexeme) : Prop := IsToken .identifier l ∨ IsToken .builtin l

/-- `list = { identifier* }` -/
inductive IdentifierList : List Lexeme → Prop where
  | mk {l ids r} (lbrace : IsToken .lbrace l) (identifiers : ∀ i ∈ ids, IsToken .identifier i)
      (rbrace : IsToken .rbrace r) : IdentifierList (l :: (ids ++ [r]))

mutual

inductive Term : List Lexeme → Prop where
  | integer {l} (h : IsToken .integer l) : Term [l]
  | string {l} (h : IsToken .string l) : Term [l]
  | identifier {l} (h : IsToken .identifier l) : Term [l]
  | builtin {l} (h : IsToken .builtin l) : Term [l]
  | operator {l} (h : IsToken .operator l) : Term [l]
  | ref {q x} (quote : IsToken .quote q) (symbol : IsSymbol x) : Term [q, x]
  | block {ts} (h : Block ts) : Term ts

inductive Terms : List Lexeme → Prop where
  | nil : Terms []
  | cons {ts us} (first : Term ts) (rest : Terms us) : Terms (ts ++ us)

/-- `block = { term* }` -/
inductive Block : List Lexeme → Prop where
  | mk {l ts r} (lbrace : IsToken .lbrace l) (terms : Terms ts) (rbrace : IsToken .rbrace r) :
      Block (l :: (ts ++ [r]))

end

/-- `{ x }`, with an `x` of the given sort -/
inductive Group (p : Lexeme → Prop) : List Lexeme → Prop where
  | mk {l x r} (lbrace : IsToken .lbrace l) (inside : p x) (rbrace : IsToken .rbrace r) :
      Group p [l, x, r]

inductive Statement : List Lexeme → Prop where
  | entry {k fs is ss} (keyword : IsKeyword .entry k) (fields : IdentifierList fs)
      (integers : IdentifierList is) (strings : IdentifierList ss) :
      Statement (k :: (fs ++ (is ++ ss)))
  | integers {k ts} (keyword : IsKeyword .integers k) (list : IdentifierList ts) :
      Statement (k :: ts)
  | strings {k ts} (keyword : IsKeyword .strings k) (list : IdentifierList ts) :
      Statement (k :: ts)
  | macroDef {k ps ss} (keyword : IsKeyword .macroDef k) (pattern : Group IsPattern ps)
      (subst : Group (IsToken .string) ss) : Statement (k :: (ps ++ ss))
  | function {k ns ts} (keyword : IsKeyword .function k) (name : Group (IsToken .identifier) ns)
      (body : Block ts) : Statement (k :: (ns ++ ts))
  | read {k} (keyword : IsKeyword .read k) : Statement [k]
  | sort {k} (keyword : IsKeyword .sort k) : Statement [k]
  | execute {k ts} (keyword : IsKeyword .execute k) (func : Group IsSymbol ts) : Statement (k :: ts)
  | iterate {k ts} (keyword : IsKeyword .iterate k) (func : Group IsSymbol ts) : Statement (k :: ts)
  | reverse {k ts} (keyword : IsKeyword .reverse k) (func : Group IsSymbol ts) : Statement (k :: ts)

inductive SourceFile : List Lexeme → Prop where
  | nil : SourceFile []
  | cons {ts us} (first : Statement ts) (rest : SourceFile us) : SourceFile (ts ++ us)

/-- The tokens that are neither blanks nor comments. -/
def significant (ts : List Lexeme) : List Lexeme := ts.filter (!·.2.kind.isTrivia)

end Grammar

/-- The text reads as a source file of the grammar. -/
def Derivable (t : Text) : Prop := ∃ ts, Reads t ts [] ∧ Grammar.SourceFile (Grammar.significant ts)

namespace Grammar

/-! ## What is left to derive -/

/-- The tokens start with a `p`, and what follows satisfies `k`. -/
def After (p k : List Lexeme → Prop) (ts : List Lexeme) : Prop :=
  ∃ us vs, ts = us ++ vs ∧ p us ∧ k vs

/-- The first token satisfies `p`, and what follows satisfies `k`. -/
def First (p : Lexeme → Prop) (k : List Lexeme → Prop) : List Lexeme → Prop
  | [] => False
  | l :: ts => p l ∧ k ts

/-- The rest of a list of identifiers, and then `k`. -/
def ListRest (k : List Lexeme → Prop) (ts : List Lexeme) : Prop :=
  ∃ ids r vs, ts = ids ++ r :: vs ∧ (∀ i ∈ ids, IsToken .identifier i) ∧ IsToken .rbrace r ∧ k vs

/-- The rest of a block, and then `k`. -/
def BlockRest (k : List Lexeme → Prop) (ts : List Lexeme) : Prop :=
  ∃ us r vs, ts = us ++ r :: vs ∧ Terms us ∧ IsToken .rbrace r ∧ k vs

variable {k : List Lexeme → Prop} {l : Lexeme} {ts : List Lexeme}

@[simp] theorem first_nil (p : Lexeme → Prop) : First p k [] ↔ False := Iff.rfl

@[simp] theorem first_cons (p : Lexeme → Prop) : First p k (l :: ts) ↔ p l ∧ k ts := Iff.rfl

theorem after_identifierList :
    After IdentifierList k ts ↔ First (IsToken .lbrace) (ListRest k) ts := by
  constructor
  · rintro ⟨_, vs, rfl, ⟨lbrace, identifiers, rbrace⟩, hk⟩
    exact ⟨lbrace, _, _, vs, by simp, identifiers, rbrace, hk⟩
  · intro h
    rcases ts with - | ⟨l, ts⟩
    · cases h
    · obtain ⟨lbrace, ids, r, vs, rfl, identifiers, rbrace, hk⟩ := h
      exact ⟨l :: (ids ++ [r]), vs, by simp, .mk lbrace identifiers rbrace, hk⟩

theorem after_group (p : Lexeme → Prop) :
    After (Group p) k ts ↔ First (IsToken .lbrace) (First p (First (IsToken .rbrace) k)) ts := by
  constructor
  · rintro ⟨_, vs, rfl, ⟨lbrace, inside, rbrace⟩, hk⟩
    exact ⟨lbrace, inside, rbrace, hk⟩
  · intro h
    rcases ts with - | ⟨l, - | ⟨x, - | ⟨r, ts⟩⟩⟩
    · cases h
    · cases h.2
    · cases h.2.2
    · obtain ⟨lbrace, inside, rbrace, hk⟩ := h
      exact ⟨[l, x, r], ts, rfl, .mk lbrace inside rbrace, hk⟩

theorem after_block : After Block k ts ↔ First (IsToken .lbrace) (BlockRest k) ts := by
  constructor
  · rintro ⟨_, vs, rfl, ⟨lbrace, terms, rbrace⟩, hk⟩
    exact ⟨lbrace, _, _, vs, by simp, terms, rbrace, hk⟩
  · intro h
    rcases ts with - | ⟨l, ts⟩
    · cases h
    · obtain ⟨lbrace, us, r, vs, rfl, terms, rbrace, hk⟩ := h
      exact ⟨l :: (us ++ [r]), vs, by simp, .mk lbrace terms rbrace, hk⟩

@[simp] theorem listRest_nil : ListRest k [] ↔ False := by
  simp [ListRest]

theorem listRest_cons : ListRest k (l :: ts) ↔
    (IsToken .identifier l ∧ ListRest k ts) ∨ (IsToken .rbrace l ∧ k ts) := by
  constructor
  · rintro ⟨ids, r, vs, heq, identifiers, rbrace, hk⟩
    rcases ids with - | ⟨i, ids⟩
    · obtain ⟨rfl, rfl⟩ := List.cons.inj heq
      exact .inr ⟨rbrace, hk⟩
    · obtain ⟨rfl, rfl⟩ := List.cons.inj heq
      obtain ⟨identifier, identifiers⟩ := List.forall_mem_cons.1 identifiers
      exact .inl ⟨identifier, ids, r, vs, rfl, identifiers, rbrace, hk⟩
  · rintro (⟨identifier, ids, r, vs, rfl, identifiers, rbrace, hk⟩ | ⟨rbrace, hk⟩)
    · exact ⟨l :: ids, r, vs, rfl, List.forall_mem_cons.2 ⟨identifier, identifiers⟩, rbrace, hk⟩
    · exact ⟨[], l, ts, rfl, by simp, rbrace, hk⟩

@[simp] theorem blockRest_nil : BlockRest k [] ↔ False := by
  simp [BlockRest]

/-- A token that is a term by itself. -/
theorem term_singleton (hm : l.1 = .normal) (h : l.2.kind.isTerm = true) : Term [l] := by
  cases hk : l.2.kind with
  | integer => exact .integer ⟨hm, hk⟩
  | string => exact .string ⟨hm, hk⟩
  | identifier => exact .identifier ⟨hm, hk⟩
  | builtin => exact .builtin ⟨hm, hk⟩
  | operator => exact .operator ⟨hm, hk⟩
  | _ => simp [hk, TokenKind.isTerm] at h

/-- What a block starts with, and what is left of it then. -/
theorem blockRest_cons : BlockRest k (l :: ts) ↔
    (IsToken .rbrace l ∧ k ts) ∨ ((l.1 = .normal ∧ l.2.kind.isTerm = true) ∧ BlockRest k ts) ∨
      (IsToken .quote l ∧ First IsSymbol (BlockRest k) ts) ∨
      (IsToken .lbrace l ∧ BlockRest (BlockRest k) ts) := by
  constructor
  · rintro ⟨_, r, vs, heq, terms, rbrace, hk⟩
    have hterm : ∀ {kind us}, IsToken kind l → kind.isTerm = true → ts = us ++ r :: vs → Terms us →
        (l.1 = .normal ∧ l.2.kind.isTerm = true) ∧ BlockRest k ts := by
      rintro kind us ⟨hm, rfl⟩ hk' rfl terms
      exact ⟨⟨hm, hk'⟩, us, r, vs, rfl, terms, rbrace, hk⟩
    cases terms with
    | nil =>
        obtain ⟨rfl, rfl⟩ := List.cons.inj heq
        exact .inl ⟨rbrace, hk⟩
    | @cons _ us' first rest =>
        have hrest : BlockRest k (us' ++ r :: vs) := ⟨us', r, vs, rfl, rest, rbrace, hk⟩
        cases first with
        | ref quote symbol =>
            obtain ⟨rfl, rfl⟩ := List.cons.inj heq
            exact .inr (.inr (.inl ⟨quote, symbol, hrest⟩))
        | block block =>
            obtain @⟨l', us, r', lbrace', terms', rbrace'⟩ := block
            obtain ⟨rfl, rfl⟩ := List.cons.inj heq
            refine .inr (.inr (.inr ⟨lbrace', us, r', us' ++ r :: vs, ?_, terms', rbrace', hrest⟩))
            simp
        | _ h =>
            obtain ⟨rfl, rfl⟩ := List.cons.inj heq
            exact .inr (.inl (hterm h rfl rfl rest))
  · rintro (⟨rbrace, hk⟩ | ⟨⟨hm, hterm⟩, us, r, vs, rfl, terms, rbrace, hk⟩ | ⟨quote, h⟩ |
      ⟨lbrace, us, r, vs, rfl, terms, rbrace, us', r', vs', rfl, terms', rbrace', hk⟩)
    · exact ⟨[], l, ts, rfl, .nil, rbrace, hk⟩
    · exact ⟨l :: us, r, vs, rfl, .cons (term_singleton hm hterm) terms, rbrace, hk⟩
    · rcases ts with - | ⟨x, ts⟩
      · cases h
      · obtain ⟨symbol, us, r, vs, rfl, terms, rbrace, hk⟩ := h
        exact ⟨l :: x :: us, r, vs, rfl, .cons (.ref quote symbol) terms, rbrace, hk⟩
    · refine ⟨l :: (us ++ [r]) ++ us', r', vs', by simp, ?_, rbrace', hk⟩
      exact .cons (.block (.mk lbrace terms rbrace)) terms'

/-! ## Statements by the table of their parts -/

/-- A token that a group of the class may hold. -/
def InClass : Class → Lexeme → Prop
  | .identifier => IsToken .identifier
  | .symbol => IsSymbol
  | .pattern => IsPattern
  | .string => IsToken .string

theorem inClass_iff (cls : Class) (l : Lexeme) :
    InClass cls l ↔ l.1 = cls.mode ∧ cls.accepts l.2.kind = true := by
  cases cls with
  | symbol =>
      cases hk : l.2.kind <;>
        simp [InClass, IsSymbol, IsToken, Class.mode, Class.accepts, TokenKind.isSymbol, hk]
  | _ => simp [InClass, IsToken, IsPattern, Class.mode, Class.accepts]

def Part : Item → List Lexeme → Prop
  | .list _ => IdentifierList
  | .group _ cls => Group (InClass cls)
  | .block _ => Block

/-- The parts of a statement one after the other, and then `k`. -/
def Parts : List Item → (List Lexeme → Prop) → List Lexeme → Prop
  | [], k => k
  | item :: items, k => After (Part item) (Parts items k)

theorem parts_append {items : List Item} {us vs : List Lexeme} (h : Parts items (· = []) us)
    (hk : k vs) : Parts items k (us ++ vs) := by
  induction items generalizing us with
  | nil =>
      have hus : us = [] := h
      subst hus
      exact hk
  | cons item items ih =>
      obtain ⟨ws, xs, rfl, hpart, hparts⟩ := h
      exact ⟨ws, xs ++ vs, by simp, hpart, ih hparts⟩

theorem exists_of_parts {items : List Item} (h : Parts items k ts) :
    ∃ us vs, ts = us ++ vs ∧ Parts items (· = []) us ∧ k vs := by
  induction items generalizing ts with
  | nil => exact ⟨[], ts, rfl, rfl, h⟩
  | cons item items ih =>
      obtain ⟨ws, xs, rfl, hpart, hparts⟩ := h
      obtain ⟨us, vs, rfl, hus, hk⟩ := ih hparts
      exact ⟨ws ++ us, vs, by simp, ⟨ws, us, rfl, hpart, hus⟩, hk⟩

theorem statement_of_parts {c : Command} (keyword : IsKeyword c l)
    (h : Parts c.items (· = []) ts) : Statement (l :: ts) := by
  cases c with
  | entry =>
      obtain ⟨fs, _, rfl, fields, is, _, rfl, integers, ss, _, rfl, strings, rfl⟩ := h
      rw [List.append_nil]
      exact .entry keyword fields integers strings
  | integers =>
      obtain ⟨us, _, rfl, list, rfl⟩ := h
      rw [List.append_nil]
      exact .integers keyword list
  | strings =>
      obtain ⟨us, _, rfl, list, rfl⟩ := h
      rw [List.append_nil]
      exact .strings keyword list
  | macroDef =>
      obtain ⟨ps, _, rfl, pattern, ss, _, rfl, subst, rfl⟩ := h
      rw [List.append_nil]
      exact .macroDef keyword pattern subst
  | function =>
      obtain ⟨ns, _, rfl, name, us, _, rfl, body, rfl⟩ := h
      rw [List.append_nil]
      exact .function keyword name body
  | read =>
      obtain rfl : ts = [] := h
      exact .read keyword
  | sort =>
      obtain rfl : ts = [] := h
      exact .sort keyword
  | execute =>
      obtain ⟨us, _, rfl, func, rfl⟩ := h
      rw [List.append_nil]
      exact .execute keyword func
  | iterate =>
      obtain ⟨us, _, rfl, func, rfl⟩ := h
      rw [List.append_nil]
      exact .iterate keyword func
  | reverse =>
      obtain ⟨us, _, rfl, func, rfl⟩ := h
      rw [List.append_nil]
      exact .reverse keyword func

theorem exists_parts_of_statement (h : Statement ts) :
    ∃ c l us, ts = l :: us ∧ IsKeyword c l ∧ Parts c.items (· = []) us := by
  have one : ∀ {item us}, Part item us → Parts [item] (· = []) us :=
    fun {item us} h => ⟨us, [], by simp, h, rfl⟩
  cases h with
  | entry keyword fields integers strings =>
      exact ⟨.entry, _, _, rfl, keyword, _, _, rfl, fields, _, _, rfl, integers, one strings⟩
  | integers keyword list => exact ⟨.integers, _, _, rfl, keyword, one list⟩
  | strings keyword list => exact ⟨.strings, _, _, rfl, keyword, one list⟩
  | macroDef keyword pattern subst =>
      exact ⟨.macroDef, _, _, rfl, keyword, _, _, rfl, pattern, one subst⟩
  | function keyword name body =>
      exact ⟨.function, _, _, rfl, keyword, _, _, rfl, name, one body⟩
  | read keyword => exact ⟨.read, _, _, rfl, keyword, rfl⟩
  | sort keyword => exact ⟨.sort, _, _, rfl, keyword, rfl⟩
  | execute keyword func => exact ⟨.execute, _, _, rfl, keyword, one func⟩
  | iterate keyword func => exact ⟨.iterate, _, _, rfl, keyword, one func⟩
  | reverse keyword func => exact ⟨.reverse, _, _, rfl, keyword, one func⟩

/-- A source file starts with the keyword of a command, and goes on with the parts of that
command. -/
theorem sourceFile_cons : SourceFile (l :: ts) ↔
    ∃ c, IsKeyword c l ∧ Parts c.items SourceFile ts := by
  constructor
  · intro h
    generalize heq : l :: ts = us at h
    cases h with
    | nil => cases heq
    | cons first rest =>
        obtain ⟨c, l', us, rfl, keyword, hparts⟩ := exists_parts_of_statement first
        obtain ⟨rfl, rfl⟩ := List.cons.inj heq
        exact ⟨c, keyword, parts_append hparts rest⟩
  · rintro ⟨c, keyword, h⟩
    obtain ⟨us, vs, rfl, hparts, hk⟩ := exists_of_parts h
    exact .cons (statement_of_parts keyword hparts) hk

end Grammar

end BibStyle
