import BibStyle.Proofs.Fitting
import BibStyle.Proofs.Levels

/-!
# Every parse follows the schema

However a text is broken, each node of its parse has the children, the fields and the fault that its
kind allows (`Node.Schema`). A state is sound if its segments follow the schema and its open nodes
still can (`Stacked`): each has children that fit, and a place for the node inside it. Moves keep a
state sound, so the segments of every run follow the schema.

That a statement without a fault has all its parts needs one more fact along the run: what is closed
early has left a fault in some open node.
-/

namespace BibStyle

open Node

namespace Machine

/-! ## What is open follows the schema so far -/

/-- The open nodes `below` have a place for what a node with the frame becomes. -/
def Holds (f : Frame) : List Level → Prop
  | [] => True
  | ⟨g, ns⟩ :: below => (∀ n, f.Makes n → g.Fits (ns.reverse ++ [n])) ∧
      (∀ n ∈ ns, n.All Schema) ∧ Holds g below

/-- The open nodes can all be closed in accord with the schema. -/
def Stacked : List Level → Prop
  | [] => True
  | ⟨f, ns⟩ :: below => f.Fits ns.reverse ∧ (∀ n ∈ ns, n.All Schema) ∧ Holds f below

theorem Holds.congr {f g : Frame} {below : List Level} (h : Holds f below) (hk : g.kind = f.kind)
    (hf : g.field = f.field) : Holds g below := by
  cases below with
  | nil => trivial
  | cons level below =>
      refine ⟨?_, h.2⟩
      rintro n ⟨hkind, hfield⟩
      exact h.1 n ⟨hkind.trans (by rw [hk]), hfield.trans hf⟩

theorem Holds.stacked_attachTo {f : Frame} {n : Node} {below : List Level} (h : Holds f below)
    (hn : n.All Schema) (hf : f.Makes n) : Stacked (attachTo n below) := by
  rcases below with - | ⟨⟨g, ms⟩, below⟩
  · trivial
  · obtain ⟨hfits, hms, hbelow⟩ := h
    refine ⟨?_, List.forall_mem_cons.2 ⟨hn, hms⟩, hbelow⟩
    rw [List.reverse_cons]
    exact hfits n hf

theorem all_schema_ofToken {field : Option Field} {t : Token}
    (h : (Node.ofToken field t).Schema) : (Node.ofToken field t).All Schema := all_leaf.2 h

theorem all_schema_marker {fault : Fault} (h : (Node.marker fault).Schema) :
    (Node.marker fault).All Schema := all_branch.2 ⟨h, by simp⟩

namespace Stacked

variable {f g : Frame} {ns : List Node} {below : List Level}

theorem push {n : Node} (h : Stacked (⟨f, ns⟩ :: below)) (hn : n.All Schema)
    (hfits : g.Fits (ns.reverse ++ [n])) (hk : g.kind = f.kind) (hf : g.field = f.field) :
    Stacked (⟨g, n :: ns⟩ :: below) := by
  refine ⟨by simpa using hfits, ?_, h.2.2.congr hk hf⟩
  exact List.forall_mem_cons.2 ⟨hn, h.2.1⟩

theorem push_fillers {ms : List Node} (h : Stacked (⟨f, ns⟩ :: below)) (hne : ns ≠ [])
    (hms : ∀ m ∈ ms, m.IsFiller ∧ m.All Schema) : Stacked (⟨f, ms ++ ns⟩ :: below) := by
  induction ms with
  | nil => exact h
  | cons m ms ih =>
      obtain ⟨⟨hfiller, hschema⟩, hms⟩ := List.forall_mem_cons.1 hms
      have hstack := ih hms
      exact hstack.push hschema (hstack.1.append_filler (by simp [hne]) hfiller) rfl rfl

variable {a : Action} {fillers : List Node} {t : Token}

/-- A node that an action closes follows the schema. -/
theorem schema_of_closed {n : Node} (h : Stacked (⟨f, ns⟩ :: below))
    (hflush : Stacked (⟨f, fillers ++ ns⟩ :: below)) (hkeeps : a.Keeps f ns.reverse t)
    (hkeeps' : a.Keeps f (fillers ++ ns).reverse t) (hn : a.closed f ns fillers t = some n) :
    n.All Schema ∧ f.Makes n := by
  have hbranch : ∀ (fault : Option Fault) (ms : List Node), (∀ m ∈ ms, m.All Schema) →
      Schema (.branch f.kind f.field fault ms.reverse) →
        some (Node.branch f.kind f.field fault ms.reverse) = some n →
          n.All Schema ∧ f.Makes n := by
    rintro fault ms hms hschema heq
    obtain rfl := Option.some.inj heq
    refine ⟨all_branch.2 ⟨hschema, ?_⟩, rfl, rfl⟩
    intro m hm
    exact hms m (List.mem_reverse.1 hm)
  cases a with
  | finish field =>
      refine hbranch none _ ?_ ?_ hn
      · exact List.forall_mem_cons.2 ⟨all_schema_ofToken hkeeps'.1, hflush.2.1⟩
      · simpa using hkeeps'.2
  | abort fault => exact hbranch (some fault) ns h.2.1 hkeeps hn
  | stop fault => exact hbranch (some fault) ns h.2.1 hkeeps hn
  | lack fault =>
      refine hbranch none _ ?_ ?_ hn
      · exact List.forall_mem_cons.2 ⟨all_schema_marker hkeeps.1, h.2.1⟩
      · simpa using hkeeps.2
  | _ => cases hn

/-- An action that keeps to the schema leaves nodes that can be closed in accord with it. -/
theorem levels (h : Stacked (⟨f, ns⟩ :: below))
    (hflush : Stacked (⟨f, fillers ++ ns⟩ :: below)) (hkeeps : a.Keeps f ns.reverse t)
    (hkeeps' : a.Keeps f (fillers ++ ns).reverse t)
    (hfound : ∀ found recovery header, a = .recover found recovery header →
      found.isFiller = false) :
    Stacked (a.levels f ns fillers t below) := by
  have hclosed : ∀ n, a.closed f ns fillers t = some n → Stacked (attachTo n below) := by
    intro n hn
    obtain ⟨hall, hmakes⟩ := h.schema_of_closed hflush hkeeps hkeeps' hn
    exact h.2.2.stacked_attachTo hall hmakes
  cases a with
  | take g field =>
      obtain ⟨hschema, hfits, hkind, hfield⟩ := hkeeps'
      exact hflush.push (all_schema_ofToken hschema) hfits hkind hfield
  | fill e g =>
      obtain ⟨hfits, hkind, hfield⟩ := hkeeps'
      refine ⟨by simpa using hfits, ?_, h.2.2.congr hkind hfield⟩
      exact List.forall_mem_cons.2 ⟨all_schema_ofToken (schema_ofToken_none t),
        List.forall_mem_cons.2 ⟨all_schema_marker (.missing e), hflush.2.1⟩⟩
  | descend g child =>
      obtain ⟨hchild, hfits, hkind, hfield⟩ := hkeeps'
      refine ⟨hchild, ?_, hfits, hflush.2.1, h.2.2.congr hkind hfield⟩
      exact List.forall_mem_singleton.2 (all_schema_ofToken (schema_ofToken_none t))
  | finish field => exact hclosed _ rfl
  | abort fault => exact hclosed _ rfl
  | stop fault => exact hclosed _ rfl
  | lack fault => exact hclosed _ rfl
  | abandon fault g =>
      obtain ⟨hmarker, hfits, hkind, hfield⟩ := hkeeps
      exact h.push (all_schema_marker hmarker) hfits hkind hfield
  | recover found recovery header =>
      exact ⟨⟨hfound _ _ _ rfl, by simp, by simp⟩, by simp, hkeeps', hflush.2⟩

end Stacked

/-! ## Sound states -/

/-- What is finished follows the schema, and what is open can still do so. -/
structure Sound (s : State) : Prop where
  stack : Stacked s.stack
  segments : ∀ g ∈ s.segments, g.node.All Schema ∧ g.node.InFile
  pending : ∀ t ∈ s.pending, t.kind.isFiller = true
  /-- No filler stands in front of the tokens that are unexpected. -/
  fresh : s.isFresh = true → s.pending = []
  /-- What is closed early leaves a fault in the statement. -/
  flawed : s.early = true → s.stack ≠ [] → s.stack.any Level.flawed = true

theorem sound_init (pos : Nat) (text : Text) : Sound (.init pos text) where
  stack := trivial
  segments := by simp [State.init]
  pending := by simp [State.init]
  fresh := by simp [State.init]
  flawed := by simp [State.init]

/-- The outermost node is a statement or a stretch of unexpected tokens. -/
theorem Nested.inFile {early : Bool} {f : Frame} {n : Node} (h : Nested early [f]) (hn : f.Makes n)
    (hne : n.children ≠ []) : n.InFile := by
  obtain ⟨hkind, hfield⟩ := hn
  cases h with
  | statement => exact .statement (by rw [isStatement, hkind]; rfl) hfield
  | between => exact .error ⟨hkind, hfield⟩ hne

namespace Sound

variable {s : State} {f : Frame} {ns : List Node} {below : List Level}

theorem isFiller_of_mem_fillers (h : Sound s) : ∀ m ∈ s.fillers, m.IsFiller ∧ m.All Schema := by
  intro m hm
  obtain ⟨t, ht, rfl⟩ := List.mem_map.1 hm
  exact ⟨⟨h.pending t ht, rfl⟩, all_schema_ofToken (schema_ofToken_none t)⟩

theorem stacked (h : Sound s) (hs : s.stack = ⟨f, ns⟩ :: below) :
    Stacked (⟨f, ns⟩ :: below) := hs ▸ h.stack

/-- Only a stretch of unexpected tokens is open without a child. -/
theorem isFresh_of_nil (h : Sound s) (hs : s.stack = ⟨f, []⟩ :: below) : s.isFresh = true := by
  have hfits : f.Fits [] := (h.stacked hs).1
  cases f with
  | statement command items slot =>
      cases slot with
      | none =>
          obtain ⟨passed, -, hbegins⟩ := hfits
          exact absurd rfl hbegins.ne_nil
      | some slot =>
          obtain ⟨passed, -, hbegins⟩ := hfits
          exact absurd rfl hbegins.ne_nil
  | list f =>
      obtain ⟨-, l, ms, hnil, -⟩ := hfits
      cases hnil
  | block f =>
      obtain ⟨-, l, ms, hnil, -⟩ := hfits
      cases hnil
  | ref =>
      obtain ⟨q, ms, hnil, -⟩ := hfits
      cases hnil
  | unexpected found recovery depth => simp [State.isFresh, hs]

/-- A node without a child takes the token it was opened for. -/
theorem exists_take_of_nil (h : Sound s) (hw : WellFormed s) (hs : s.stack = ⟨f, []⟩ :: below) :
    ∃ g, s.decision f = .take g none := by
  obtain ⟨g, hg, -⟩ := hw.action_of_isFresh (h.isFresh_of_nil hs) (frames_of_stack_cons hs)
  exact ⟨g, hg⟩

theorem ne_nil_of_not_takes (h : Sound s) (hw : WellFormed s) (hs : s.stack = ⟨f, ns⟩ :: below)
    (ht : (s.decision f).takes = false) : ns ≠ [] := by
  rintro rfl
  obtain ⟨g, hg⟩ := h.exists_take_of_nil hw hs
  rw [hg] at ht
  cases ht

theorem ne_nil_of_statement (h : Sound s) {command : Command} {items : List Item}
    {slot : Option Slot} (hs : s.stack = ⟨.statement command items slot, ns⟩ :: below) :
    ns ≠ [] := by
  rintro rfl
  have hfresh := h.isFresh_of_nil hs
  simp [State.isFresh, hs] at hfresh

/-- The fillers set aside have a place in the innermost open node. -/
theorem stacked_fillers (h : Sound s) (hs : s.stack = ⟨f, ns⟩ :: below) :
    Stacked (⟨f, s.fillers ++ ns⟩ :: below) := by
  rcases ns with - | ⟨n, ns⟩
  · rw [State.fillers_of_pending_nil (h.fresh (h.isFresh_of_nil hs))]
    exact h.stacked hs
  · exact (h.stacked hs).push_fillers (by simp) h.isFiller_of_mem_fillers

/-- The kind of the next token says what is decided, and the token itself what is taken. -/
theorem exists_token (look : Lookahead) : ∃ t : Token, (∀ k ∈ look.map (·.1.kind), t.kind = k) ∧
    (look.isSome = true → ∃ rest, look = some (t, rest)) := by
  rcases look with - | ⟨t, rest⟩
  · exact ⟨⟨.lbrace, []⟩, by simp, by simp⟩
  · exact ⟨t, by simp, fun _ => ⟨rest, rfl⟩⟩

/-- Every decision keeps to the schema, with the fillers set aside among the children or not. -/
theorem keeps_decision (h : Sound s) (hw : WellFormed s) (hset : s.isSettled = false)
    (hs : s.stack = ⟨f, ns⟩ :: below) (hsolid : Solid (lex s.mode s.rest)) {t : Token}
    (ht : ∀ k ∈ (lex s.mode s.rest).map (·.1.kind), t.kind = k) :
    (s.decision f).Keeps f ns.reverse t ∧ (s.decision f).Keeps f (s.fillers ++ ns).reverse t := by
  have hfs := frames_of_stack_cons hs
  have hkeeps : ∀ ms : List Node, f.Fits ms → (ms = [] → ns = []) →
      (s.decision f).Keeps f ms t := by
    intro ms hfits hnil
    refine hfits.keeps_action ht ?_ ?_ ?_ ?_
    · exact fun command items hf => (waits_of_not_settled hset hfs command items hf).2
    · intro hmode hp
      obtain ⟨⟨tok, rest⟩, hlex, hk⟩ := Option.map_eq_some_iff.1 hp
      rw [State.mode_of_frames_cons hfs, hmode] at hlex
      exact kind_ne_pattern_of_lex hlex hk
    · intro k hk
      obtain ⟨⟨tok, rest⟩, hlex, rfl⟩ := Option.map_eq_some_iff.1 hk
      exact hsolid _ hlex
    · rintro found recovery depth rfl hms
      obtain rfl := hnil hms
      obtain ⟨found', recovery', fs, tok, rest, hfs', hlex, hfound, -, htake⟩ :=
        hw.fresh (h.isFresh_of_nil hs)
      obtain ⟨hf, -⟩ := List.cons.inj (hfs.symm.trans hfs')
      cases hf
      rw [State.mode_of_frames_cons hfs, Frame.mode, hlex] at ht ⊢
      refine ⟨(ht _ rfl).trans hfound, ?_⟩
      rw [Option.map_some, htake]
      rfl
  refine ⟨hkeeps _ (h.stacked hs).1 (by simp), hkeeps _ (h.stacked_fillers hs).1 ?_⟩
  intro hnil
  exact (List.append_eq_nil_iff.1 (List.reverse_eq_nil_iff.1 hnil)).2

/-- What the innermost open node decides leaves a sound state. -/
theorem act (h : Sound s) (hw : WellFormed s) (hset : s.isSettled = false)
    (hs : s.stack = ⟨f, ns⟩ :: below) (hsolid : Solid (lex s.mode s.rest)) :
    Sound ((s.decision f).run s (lex s.mode s.rest)) := by
  obtain ⟨t, ht, htoken⟩ := exists_token (lex s.mode s.rest)
  have hl : (s.decision f).takes = true → ∃ rest, lex s.mode s.rest = some (t, rest) :=
    fun htakes => htoken (isSome_lex_of_takes htakes)
  obtain ⟨hkeeps, hkeeps'⟩ := h.keeps_decision hw hset hs hsolid ht
  have hflush := h.stacked_fillers hs
  have hstack : ((s.decision f).run s (lex s.mode s.rest)).stack =
      (s.decision f).levels f ns s.fillers t below := Action.stack_run hs hl
  refine ⟨?_, ?_, ?_, ?_, ?_⟩
  · rw [hstack]
    refine (h.stacked hs).levels hflush hkeeps hkeeps' ?_
    intro found recovery header ha
    obtain ⟨⟨tok, rest⟩, hlex, rfl⟩ := Option.map_eq_some_iff.1 (Frame.action_recover ha).1
    exact hsolid _ hlex
  · intro g hg
    rcases Action.mem_segments_run hs hl hg with hg | ⟨rfl, hn⟩
    · exact h.segments g hg
    · obtain ⟨hall, hmakes⟩ := (h.stacked hs).schema_of_closed hflush hkeeps hkeeps' hn
      have hnested := hw.nested
      rw [frames_of_stack_cons hs] at hnested
      have hne := Action.children_closed (h.ne_nil_of_not_takes hw hs) hn
      exact ⟨hall, hnested.inFile hmakes hne⟩
  · intro u hu
    rcases (s.decision f).pending_run s (lex s.mode s.rest) with hp | hp
    · simp [hp] at hu
    · exact h.pending u (hp ▸ hu)
  · intro hfresh
    obtain ⟨found, recovery, header, ha⟩ :=
      Action.recover_of_isFresh_run isSome_lex_of_takes hfresh
    rw [ha]
    simp [Action.run]
  · intro hearly hne
    rw [Action.early_run] at hearly
    rw [hstack] at hne ⊢
    refine Action.flawed_levels (f.suits_action _) ?_ hne
    rcases Action.isClean_of_early hearly with he | hclean
    · exact .inl (hs ▸ h.flawed he (by simp [hs]))
    · exact .inr hclean

/-- A settled statement has all its parts, or a fault. -/
theorem settle (h : Sound s) (hw : WellFormed s) (hset : s.isSettled = true) :
    Sound (s.close none) := by
  obtain ⟨command, items, ns, hs, hend⟩ := hw.stack_of_isSettled hset
  obtain ⟨⟨passed, hitems, hbegins⟩, hns, -⟩ := h.stacked hs
  have hfields : (passed.map Item.field).Sublist (command.items.map Item.field) := by
    rw [← hitems, List.map_append]
    exact List.sublist_append_left _ _
  have hschema : Schema (.branch (.statement command) none none ns.reverse) := by
    refine hbegins.schema hfields (hend.imp ?_ ?_)
    · intro he
      have hflawed := h.flawed he (by simp [hs])
      simpa [hs, Level.flawed, Frame.kind, flawedAll_eq_any] using hflawed
    · rintro rfl
      rw [← hitems, List.append_nil]
  have hstack : (s.close none).stack = [] := s.stack_close none hs
  refine ⟨hstack ▸ trivial, ?_, ?_, by simp, by simp [hstack]⟩
  · intro g hg
    rcases s.mem_segments_close hs hg with hg | ⟨-, hn⟩
    · exact h.segments g hg
    · rw [hn]
      refine ⟨all_branch.2 ⟨hschema, ?_⟩, .statement rfl rfl⟩
      intro n hmem
      exact hns n (List.mem_reverse.1 hmem)
  · simpa using h.pending

/-- Fillers between statements are segments of their own. -/
theorem segments_flush (h : Sound s) (hs : s.stack = []) :
    ∀ g ∈ s.flush.segments, g.node.All Schema ∧ g.node.InFile := by
  rw [State.segments_flush_of_stack_nil hs]
  intro g hg
  rcases List.mem_append.1 hg with hg | hg
  · obtain ⟨t, ht, rfl⟩ := List.mem_map.1 hg
    obtain ⟨hfiller, hall⟩ := h.isFiller_of_mem_fillers _ (List.mem_map_of_mem ht)
    exact ⟨hall, .filler hfiller⟩
  · exact h.segments g hg

theorem start (h : Sound s) (hs : s.stack = []) {command : Command} {t : Token} (rest : Text)
    (hk : t.kind = .keyword) (hc : Command.ofWord? t.text = some command) :
    Sound (s.start command t rest) := by
  have hstack := s.stack_start command t rest hs
  have hbegins : Begins command [] [.ofToken none t] := by
    refine ⟨⟨_, rfl, ⟨congrArg Kind.token hk, rfl⟩, ?_⟩, by simp, .slnil, fun _ => rfl⟩
    simpa [text] using hc
  refine ⟨?_, ?_, by simp [State.start], by simp [State.start], by simp [State.start]⟩
  · rw [hstack]
    refine ⟨⟨[], rfl, hbegins⟩, ?_, trivial⟩
    exact List.forall_mem_singleton.2 (all_schema_ofToken (schema_ofToken_none t))
  · rw [State.segments_start]
    exact h.segments_flush hs

theorem stray (h : Sound s) (hs : s.stack = []) {t : Token} (hf : t.kind.isFiller = false) :
    Sound (s.atRest.recover t ⟨.normal, false, none⟩) := by
  refine ⟨?_, ?_, by simp [State.recover], by simp [State.recover], by simp [State.recover]⟩
  · rw [State.recover, s.stack_enter_atRest _ hs]
    exact ⟨⟨hf, by simp, by simp⟩, by simp, trivial⟩
  · rw [State.recover, s.segments_enter_atRest]
    exact h.segments_flush hs

/-- Every move leads from a sound state to a sound state. -/
theorem moves {s' : State} (h : Sound s) (hw : WellFormed s) (hm : Moves s s') : Sound s' := by
  cases hm with
  | settle settled => exact h.settle hw settled
  | @skip t rest open_ lexed filler =>
      refine ⟨h.stack, h.segments, ?_, ?_, h.flawed⟩
      · exact List.forall_mem_cons.2 ⟨filler, h.pending⟩
      · intro hfresh
        obtain ⟨found, recovery, fs, tok, _, hfs, hlex, -, hsolid, -⟩ := hw.fresh hfresh
        rw [State.mode_of_frames_cons hfs] at lexed
        cases lexed.symm.trans hlex
        rw [filler] at hsolid
        cases hsolid
  | act open_ stack solid => exact h.act hw open_ stack solid
  | start stack lexed keyword named => exact h.start stack _ keyword named
  | stray stack lexed filler keyword => exact h.stray stack filler

end Sound

/-- A run from a sound state gives segments that follow the schema. -/
theorem Ends.schema {resume : Nat → Option Nat} {s : State} {r : List Segment × Option Nat}
    (h : Ends resume s r) (hw : WellFormed s) (hsound : Sound s) :
    ∀ g ∈ r.1, g.node.All Schema ∧ g.node.InFile := by
  induction h with
  | done hd =>
      obtain ⟨hs, rfl, -⟩ := step_eq_done hd
      intro g hg
      exact hsound.segments_flush hs g (List.mem_reverse.1 hg)
  | next hn _ ih =>
      have hm := moves_of_step hn
      exact ih (hw.moves hm) (hsound.moves hw hm)

end Machine

namespace Tree

/-- The segments of a parse follow the schema. -/
theorem schema_segments (t : Text) :
    ∀ n ∈ (parse t).segments.map (·.node), n.All Schema ∧ n.InFile := by
  intro n hn
  obtain ⟨g, hg, rfl⟩ := List.mem_map.1 hn
  exact (ends_parse t).schema (Machine.wellFormed_init 0 t) (Machine.sound_init 0 t) g hg

/-- A statement in a parse is a child of the file. -/
theorem mem_children_root {t : Text} {l : Located} (hl : l ∈ (parse t).root.preorder)
    (hst : l.node.isStatement = true) : l ∈ (parse t).root.children := by
  rw [root, preorder_locate_branch] at hl
  rcases List.mem_cons.1 hl with rfl | hl
  · rw [node_locate] at hst
    cases hst
  · exact mem_locateAll_of_isStatement 0 (schema_segments t) hl hst

theorem schema_of_mem_preorder {t : Text} {l : Located} (hl : l ∈ (parse t).root.preorder) :
    l.node.Schema := by
  have hfile : Schema (.branch .sourceFile none none ((parse t).segments.map (·.node))) :=
    .sourceFile fun n hn => (schema_segments t n hn).2
  refine All.of_mem_preorder 0 _ ?_ l hl
  exact all_branch.2 ⟨hfile, fun n hn => (schema_segments t n hn).1⟩

/-- Every node of every parse has the children, the field and the fault that its kind allows, and
statements are not nested. -/
theorem schema_parse (t : Text) : ∀ l ∈ (parse t).root.preorder,
    l.node.Schema ∧ (l.node.isStatement = true → l ∈ (parse t).root.children) :=
  fun _ hl => ⟨schema_of_mem_preorder hl, mem_children_root hl⟩

/-- A quote in front of a statement, inside a block that is never closed. -/
theorem schema_parse_open_block :
    ∃ l ∈ (parse "FUNCTION \x7bf\x7d \x7b' READ".toList).root.preorder,
      l.kind = .node .ref ∧ l.node.Schema := by
  have href : (parse "FUNCTION \x7bf\x7d \x7b' READ".toList).root.preorder.any
      (·.kind == .node .ref) = true := by decide +kernel
  obtain ⟨l, hl, hk⟩ := List.any_eq_true.1 href
  exact ⟨l, hl, by simpa using hk, (schema_parse _ l hl).1⟩

end Tree

end BibStyle
