import BibStyle.Proofs.Incremental
import Mathlib.Algebra.Order.Ring.Nat

/-!
# A tree loses nothing of its text

The leaves of a tree stand one after the other from the first byte of its text to the last, they
hold all of the text, and each is the token that is read at its place in one of the two modes. This
holds of every parse, because the leaves of a parse are the tokens that the machine has read
(`lossless_parse`), and it stays true however the tree is edited.
-/

namespace BibStyle

/-- The spans follow one another from byte `a` to byte `b`, and none is empty. -/
inductive Span.Tiles : Nat → List Span → Nat → Prop where
  | nil {a} : Tiles a [] a
  | cons {a b s ss} (start : s.start = a) (nonempty : s.start < s.stop) (rest : Tiles s.stop ss b) :
      Tiles a (s :: ss) b

namespace Token

theorem tiles_place (pos : Nat) {ts : List Token} (h : ∀ t ∈ ts, t.text ≠ []) :
    Span.Tiles pos ((place pos ts).map Prod.fst) (pos + Text.size (ts.flatMap Token.text)) := by
  induction ts generalizing pos with
  | nil => exact .nil
  | cons t ts ih =>
      have hpos : 0 < t.size := Text.size_pos (h t (by simp))
      have hrest := ih (pos + t.size) fun u hu => h u (List.mem_cons_of_mem _ hu)
      rw [List.flatMap_cons, Text.size_append, ← Nat.add_assoc]
      exact .cons rfl (Nat.lt_add_of_pos_right hpos) hrest

theorem lexAt_size_append (m : Mode) (w t : Text) :
    lexAt m w.size (w ++ t) =
      (lex m t).map fun p => (⟨w.size, w.size + p.1.size⟩, p.1) := by
  rw [lexAt, Text.cut?_size_append]

/-- Tokens that are read one after the other are each read at their place. -/
theorem lexAt_of_mem_place {w u v : Text} {ts : List Lexeme} (h : Reads u ts v)
    {p : Span × Token} (hp : p ∈ place w.size (ts.map Prod.snd)) :
    ∃ m, lexAt m p.1.start (w ++ u) = some p := by
  induction h generalizing w with
  | nil => simp at hp
  | @cons m t tok rest ts v hl hs ih =>
      rw [List.map_cons, place_cons] at hp
      rcases List.mem_cons.1 hp with rfl | hp
      · refine ⟨m, ?_⟩
        rw [lexAt_size_append, hl]
        rfl
      · have hsize : w.size + tok.size = Text.size (w ++ tok.text) := (Text.size_append _ _).symm
        rw [hsize] at hp
        obtain ⟨m', hm'⟩ := ih hp
        refine ⟨m', ?_⟩
        rwa [← (append_of_lex hl).1, ← List.append_assoc]

end Token

namespace Tree

/-- The leaves of the tree are the whole of its text, token by token. -/
structure Lossless (t : Tree) : Prop where
  /-- The sizes of the segments add up to the size of the text. -/
  segments : (t.segments.map Segment.size).sum = t.size
  /-- The leaves follow one another from the start of the text to its end. -/
  tiles : Span.Tiles 0 (t.tokens.map (·.span)) t.size
  /-- The texts of the leaves make up the text. -/
  texts : t.tokens.flatMap (·.text) = t.text
  /-- Each leaf is the token at its place, in one of the modes. -/
  lexed : ∀ l ∈ t.tokens, ∃ m tok,
    lexAt m l.span.start t.text = some (l.span, tok) ∧ l.kind = .token tok.kind ∧ l.text = tok.text

theorem sum_size_segments (segs : List Segment) :
    (segs.map Segment.size).sum = Text.size (Segment.texts segs) := by
  rw [Segment.size_texts]
  induction segs with
  | nil => rfl
  | cons s segs ih => simp [ih, Segment.size]

theorem lossless_parse (t : Text) : (parse t).Lossless := by
  obtain ⟨ts, hreads, hleaves⟩ := reads_parse t
  have htokens := tokens_eq (parse t)
  rw [hleaves] at htokens
  have htext := hreads.text_eq
  rw [List.append_nil] at htext
  refine ⟨?_, ?_, ?_, ?_⟩
  · rw [sum_size_segments, texts_parse]
    rfl
  · have hspans : (parse t).tokens.map (·.span) =
        (Token.place 0 (ts.map Prod.snd)).map Prod.fst := by
      have := congrArg (List.map Prod.fst) htokens
      simpa [Function.comp_def, Node.placed, Node.placedToken] using this
    have htiles := Token.tiles_place 0 hreads.text_ne_nil
    rw [← htext, Nat.zero_add] at htiles
    rw [hspans]
    exact htiles
  · have htexts : (parse t).tokens.map (·.text) = (ts.map Prod.snd).map Token.text := by
      have hplace := congrArg (List.map Token.text) (Token.map_snd_place 0 (ts.map Prod.snd))
      rw [List.map_map] at hplace
      have := congrArg (List.map fun p => p.2.2) htokens
      rw [← hplace]
      simpa [Function.comp_def, Node.placed, Node.placedToken] using this
    rw [List.flatMap_def, htexts, ← List.flatMap_def, ← htext]
    rfl
  · intro l hl
    have hmem : Node.placed l ∈ (parse t).tokens.map Node.placed := List.mem_map_of_mem hl
    rw [htokens] at hmem
    obtain ⟨p, hp, heq⟩ := List.mem_map.1 hmem
    obtain ⟨m, hm⟩ := Token.lexAt_of_mem_place (w := []) hreads hp
    simp only [Node.placed, Node.placedToken, Prod.mk.injEq] at heq
    obtain ⟨hspan, hkind, htext⟩ := heq
    exact ⟨m, p.2, by rw [← hspan]; exact hm, hkind.symm, htext.symm⟩

/-- However a parse has been edited, its leaves are the whole of its text. -/
theorem lossless_editAll_parse (s : Text) (es : List Edit) : ((parse s).editAll es).Lossless := by
  obtain ⟨t, ht⟩ := editAll_parse s es
  rw [ht]
  exact lossless_parse t

end Tree

end BibStyle
