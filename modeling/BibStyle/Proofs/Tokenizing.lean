import BibStyle.Proofs.Closing

/-!
# A text without a macro is read in one mode

The machine picks the mode of each token from what is open, while `lexAll` reads a text from end to
end in one mode. The two agree on every text in which no keyword is `MACRO`: a pattern stands
between the braces of a macro only, so without one the machine is in normal mode throughout, and
the leaves of the parse are the tokens of the text (`Tree.tokens_parse_of_macroless`).

Along a run no macro is open (`Unpatterned`), since the node of a statement is opened by its keyword
and keeps its kind until it is closed. The groups of an open statement are those of its command
(`Sound.mem_items`), and only a macro has one that is read in the other mode.
-/

namespace BibStyle

open Node

/-! ## Reading all of a text -/

@[simp] theorem lexAll_nil (m : Mode) : lexAll m [] = [] := by
  rw [lexAll]
  rfl

theorem lexAll_of_lex {m : Mode} {t rest : Text} {tok : Token} (h : lex m t = some (tok, rest)) :
    lexAll m t = tok :: lexAll m rest := by
  rw [lexAll]
  split
  · rename_i hnone
    rw [h] at hnone
    cases hnone
  · rename_i hsome
    rw [h] at hsome
    cases hsome
    rfl

namespace Machine

/-! ## The groups of an open statement -/

/-- Open nodes inside one another each have children that fit. -/
theorem Holds.exists_fits {f : Frame} {below : List Level} (h : Holds f below) :
    ∀ level ∈ below, ∃ ns, level.frame.Fits ns := by
  induction below generalizing f with
  | nil => simp
  | cons level below ih =>
      obtain ⟨hfits, -, hbelow⟩ := h
      refine List.forall_mem_cons.2 ⟨?_, ih hbelow⟩
      exact ⟨_, hfits (.branch f.kind f.field none []) ⟨rfl, rfl⟩⟩

/-- The group that is open in a statement is one of its command. -/
theorem Sound.mem_items {s : State} {command : Command} {items : List Item} {slot : Slot}
    (h : Sound s) (hf : .statement command items (some slot) ∈ s.frames) :
    .group slot.field slot.cls ∈ command.items := by
  obtain ⟨level, hlevel, heq⟩ := List.mem_map.1 hf
  have hfits : ∃ ns, level.frame.Fits ns := by
    have hstack := h.stack
    cases hs : s.stack with
    | nil => simp [hs] at hlevel
    | cons top below =>
        rw [hs] at hstack hlevel
        rcases List.mem_cons.1 hlevel with rfl | hlevel
        · exact ⟨_, hstack.1⟩
        · exact hstack.2.2.exists_fits level hlevel
  rw [heq] at hfits
  obtain ⟨ns, passed, hitems, -⟩ := hfits
  simp [← hitems]

/-! ## No macro is open -/

/-- None of the open nodes is a macro. -/
def Unpatterned (s : State) : Prop := ∀ f ∈ s.frames, f.kind ≠ .statement .macroDef

/-- What is read in the mode of patterns is in a group of that mode, or right inside it. -/
theorem Nested.exists_slot {early : Bool} {fs : List Frame} (h : Nested early fs)
    (hm : modeOf fs = .pattern) : ∃ command items slot,
      .statement command items (some slot) ∈ fs ∧ slot.cls.mode = .pattern := by
  cases h with
  | @statement command items slot =>
      cases slot with
      | none => cases hm
      | some slot => exact ⟨command, items, slot, List.mem_cons_self, hm⟩
  | @group found depth command items slot => exact ⟨command, items, slot, by simp, hm⟩
  | _ => cases hm

/-- Without a macro tokens are read in normal mode. -/
theorem Unpatterned.mode_eq {s : State} (h : Unpatterned s) (hw : WellFormed s) (hsound : Sound s) :
    s.mode = .normal := by
  cases hm : s.mode with
  | normal => rfl
  | pattern =>
      rw [State.mode_eq] at hm
      obtain ⟨command, items, slot, hmem, hslot⟩ := hw.nested.exists_slot hm
      obtain rfl := Command.eq_macroDef (hsound.mem_items hmem) hslot
      exact absurd rfl (h _ hmem)

/-- A decision opens no statement, and a statement that goes on keeps its kind. -/
theorem Frame.kind_of_mem_action {f g : Frame} {fs : List Frame} {kind : Option TokenKind}
    (hg : g ∈ (f.action kind).frames (f :: fs)) :
    g ∈ fs ∨ g.kind = f.kind ∨ ∀ c, g.kind ≠ .statement c := by
  have hgoesOn : ∀ k : Frame, k.kind = f.kind → g ∈ k :: fs →
      g ∈ fs ∨ g.kind = f.kind ∨ ∀ c, g.kind ≠ .statement c := by
    intro k hk hmem
    rcases List.mem_cons.1 hmem with rfl | hmem
    · exact .inr (.inl hk)
    · exact .inl hmem
  have hopens : ∀ k child : Frame, (∀ c, child.kind ≠ .statement c) → k.kind = f.kind →
      g ∈ child :: k :: fs → g ∈ fs ∨ g.kind = f.kind ∨ ∀ c, g.kind ≠ .statement c := by
    intro k child hchild hk hmem
    rcases List.mem_cons.1 hmem with rfl | hmem
    · exact .inr (.inr hchild)
    · exact hgoesOn k hk hmem
  have hsuits := f.suits_action kind
  cases ha : f.action kind with
  | take k field => exact hgoesOn k (ha ▸ hsuits :) (by simpa [ha, Action.frames] using hg)
  | fill e k => exact hgoesOn k (ha ▸ hsuits :) (by simpa [ha, Action.frames] using hg)
  | abandon fault k => exact hgoesOn k (ha ▸ hsuits :) (by simpa [ha, Action.frames] using hg)
  | descend k child =>
      have hchild : ∀ c, child.kind ≠ .statement c := by
        intro c hc
        rcases action_descend ha with ⟨-, item, -, -, -, rfl | rfl⟩ | ⟨-, -, -, rfl | rfl⟩ <;>
          cases hc
      rw [ha] at hsuits hg
      exact hopens k child hchild hsuits.1 hg
  | recover found recovery header =>
      have hstretch : ∀ c, (Frame.unexpected found recovery 0).kind ≠ .statement c := by
        intro c hc
        cases hc
      rw [ha] at hg
      exact hopens f _ hstretch rfl hg
  | finish field => exact .inl (by simpa [ha, Action.frames] using hg)
  | abort fault => exact .inl (by simpa [ha, Action.frames] using hg)
  | stop fault => exact .inl (by simpa [ha, Action.frames] using hg)
  | lack fault => exact .inl (by simpa [ha, Action.frames] using hg)

/-- A move opens a macro only at its keyword. -/
theorem Unpatterned.moves {s s' : State} (h : Unpatterned s) (hm : Moves s s')
    (hno : ∀ t rest, lex .normal s.rest = some (t, rest) → t.kind = .keyword →
      Command.ofWord? t.text ≠ some .macroDef) : Unpatterned s' := by
  intro g hg
  cases hm with
  | settle settled => exact h g (List.mem_of_mem_tail (by simpa using hg))
  | skip open_ lexed filler => exact h g hg
  | @act f ns below open_ stack solid =>
      have hfs := frames_of_stack_cons stack
      rw [Action.frames_run hfs isSome_lex_of_takes] at hg
      rcases Frame.kind_of_mem_action hg with hg | hkind | hkind
      · exact h g (hfs ▸ List.mem_cons_of_mem f hg)
      · rw [hkind]
        exact h f (hfs ▸ List.mem_cons_self)
      · exact hkind .macroDef
  | @start t rest command stack lexed keyword named =>
      obtain rfl : g = .statement command command.items none := by
        simpa [State.start, frames_of_stack_nil stack] using hg
      rintro heq
      obtain rfl : command = .macroDef := NodeKind.statement.inj heq
      exact hno t rest lexed keyword named
  | stray stack lexed filler keyword =>
      obtain rfl : g = _ := by
        simpa [State.recover, frames_of_stack_nil stack] using hg
      intro hmacro
      cases hmacro

/-- A run over a text without a macro reads the tokens of the text. -/
theorem Ends.leaves_of_macroless {s : State} {r : List Segment × Option Nat}
    (h : Ends (fun _ => none) s r) (hw : WellFormed s) (hsound : Sound s) (hu : Unpatterned s)
    (hno : ∀ t ∈ lexAll .normal s.rest, t.kind = .keyword →
      Command.ofWord? t.text ≠ some .macroDef) :
    leavesAll (r.1.map (·.node)) = s.tokens ++ lexAll .normal s.rest := by
  induction h with
  | @done s segs resumed hd =>
      obtain ⟨hs, hr, rfl, -⟩ := step_none_eq_done hd
      rw [State.leavesAll_segments_flush hs, hr, lexAll_nil, List.append_nil]
  | @next s s' r hn _ ih =>
      have hm := moves_of_step hn
      have hu' : Unpatterned s' := by
        refine hu.moves hm fun t rest hl => hno t ?_
        rw [lexAll_of_lex hl]
        exact List.mem_cons_self
      have hrun := ih (hw.moves hm) (hsound.moves hw hm) hu'
      rcases hm.reads with ⟨hr, -, htokens⟩ | ⟨t, hl, -, htokens⟩
      · rw [hr, htokens] at hrun
        exact hrun hno
      · rw [hu.mode_eq hw hsound] at hl
        rw [lexAll_of_lex hl] at hno ⊢
        rw [hrun fun u hu => hno u (List.mem_cons_of_mem t hu), htokens, List.append_assoc,
          List.singleton_append]

end Machine

namespace Tree

/-- If no keyword of a text is `MACRO`, in capital or small letters, the leaves of its parse are its
tokens in normal mode: the same kinds, places and texts in the same order. -/
theorem tokens_parse_of_macroless {t : Text} (h : ∀ tok ∈ lexAll .normal t, tok.kind = .keyword →
      tok.text.map Char.toUpper ≠ "MACRO".toList) :
    (parse t).tokens.map (fun l => (l.span, l.kind, l.text)) =
      (Token.place 0 (lexAll .normal t)).map
        (fun p => (p.1, Kind.token p.2.kind, p.2.text)) := by
  have hinit : Machine.Unpatterned (.init 0 t) := by
    simp [Machine.Unpatterned, Machine.State.init, Machine.State.frames]
  have hleaves : leavesAll ((parse t).segments.map (·.node)) = lexAll .normal t := by
    have hrun := (ends_parse t).leaves_of_macroless (Machine.wellFormed_init 0 t)
      (Machine.sound_init 0 t) hinit
      fun tok htok hk hword => h tok htok hk (map_toUpper_of_ofWord? hword)
    rwa [Machine.State.tokens_init, List.nil_append] at hrun
  rw [← hleaves]
  exact tokens_eq (parse t)

/-- A function that is never closed, with braces and a stray character in its name. -/
theorem tokens_parse_of_macroless_open_name :
    (∀ tok ∈ lexAll .normal "function \x7bf/ \x7b\x7d 'READ".toList, tok.kind = .keyword →
      tok.text.map Char.toUpper ≠ "MACRO".toList) ∧
    (parse "function \x7bf/ \x7b\x7d 'READ".toList).tokens.map
        (fun l => (l.span, l.kind, l.text)) =
      (Token.place 0 (lexAll .normal "function \x7bf/ \x7b\x7d 'READ".toList)).map
        (fun p => (p.1, Kind.token p.2.kind, p.2.text)) := by
  have h : ∀ tok ∈ lexAll .normal "function \x7bf/ \x7b\x7d 'READ".toList, tok.kind = .keyword →
      tok.text.map Char.toUpper ≠ "MACRO".toList := by
    decide +kernel
  exact ⟨h, tokens_parse_of_macroless h⟩

end Tree

end BibStyle
