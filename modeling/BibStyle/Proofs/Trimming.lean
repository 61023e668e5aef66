import BibStyle.Proofs.Conformance

/-!
# Nodes have no fillers at their ends

Whitespace and comments stay as far out in the tree as they can. A node is opened at a token that is
no filler, since the fillers in front of it go to the node around; and it is closed behind such a
token, since the fillers that follow are set aside until a node takes the next token. So a node is a
token, a marker, or goes from one token that is no filler to another (`Node.Trimmed`).

The invariant is on the innermost open node: if it has a child, its last leaf is no filler. The
nodes around it may end in fillers while something is open inside them, and do so no longer when it
is closed.
-/

namespace BibStyle

namespace Node

/-- The first of the nodes is a token that is no filler. -/
def StartsSolid (ns : List Node) : Prop :=
  ∃ n ∈ ns.head?, ∃ k : TokenKind, n.kind = .token k ∧ k.isFiller = false

/-- The last leaf of the nodes is no filler. -/
def StopsSolid (ns : List Node) : Prop := ∃ t ∈ (leavesAll ns).getLast?, t.kind.isFiller = false

/-- A node is a token that has a text, or a marker, or goes from a token that is no filler to
another. -/
inductive Trimmed : Node → Prop where
  | leaf {k f t} (nonempty : t ≠ []) : Trimmed (.leaf k f t)
  | marker (fault : Fault) : Trimmed (.marker fault)
  | branch {k f e ns} (start : StartsSolid ns) (stop : StopsSolid ns) : Trimmed (.branch k f e ns)

theorem StartsSolid.append {ns : List Node} (h : StartsSolid ns) (ms : List Node) :
    StartsSolid (ns ++ ms) := by
  obtain ⟨n, hn, hsolid⟩ := h
  refine ⟨n, ?_, hsolid⟩
  rw [List.head?_append, hn]
  rfl

theorem StopsSolid.append_marker {ns : List Node} (h : StopsSolid ns) (fault : Fault) :
    StopsSolid (ns ++ [.marker fault]) := by
  simpa [StopsSolid] using h

/-- What is added last, last first, is the end. -/
theorem StopsSolid.reverse_cons {n : Node} (h : StopsSolid [n]) (ns : List Node) :
    StopsSolid (n :: ns).reverse := by
  obtain ⟨t, ht, hsolid⟩ := h
  refine ⟨t, ?_, hsolid⟩
  rw [List.reverse_cons, leavesAll_append, List.getLast?_append, ht]
  rfl

theorem stopsSolid_ofToken {field : Option Field} {t : Token} (h : t.kind.isFiller = false) :
    StopsSolid [.ofToken field t] := ⟨t, by simp, h⟩

/-- A node that is closed ends as its children do. -/
theorem StopsSolid.branch {ns : List Node} (h : StopsSolid ns) (k : NodeKind) (f : Option Field)
    (e : Option Fault) : StopsSolid [.branch k f e ns] := by
  simpa [StopsSolid] using h

theorem IsToken.startsSolid {n : Node} {k : TokenKind} (h : n.IsToken k)
    (hk : k.isFiller = false) (ns : List Node) : StartsSolid (n :: ns) := ⟨n, rfl, k, h.1, hk⟩

end Node

open Node

namespace Machine

/-- An open node starts with a token that is no filler. -/
theorem Frame.Fits.startsSolid {f : Frame} {ns : List Node} (h : f.Fits ns) (hne : ns ≠ []) :
    StartsSolid ns := by
  have hbegins : ∀ {command passed}, Begins command passed ns → StartsSolid ns := by
    intro command passed hb
    obtain ⟨k, hk, htoken, -⟩ := hb.keyword
    obtain ⟨ms, rfl⟩ := List.head?_eq_some_iff.1 hk
    exact htoken.startsSolid rfl ms
  have hopened : ∀ {p : Node → Prop}, Opened p ns → StartsSolid ns := by
    rintro p ⟨l, ms, rfl, hl, -⟩
    exact hl.startsSolid rfl ms
  cases f with
  | statement command items slot =>
      cases slot with
      | none =>
          obtain ⟨passed, -, hb⟩ := h
          exact hbegins hb
      | some slot =>
          obtain ⟨passed, -, hb⟩ := h
          exact hbegins hb
  | list f => exact hopened h.2
  | block f => exact hopened h.2
  | ref =>
      obtain ⟨q, ms, rfl, hq, -⟩ := h
      exact hq.startsSolid rfl ms
  | unexpected found recovery depth =>
      obtain ⟨n, ms, rfl⟩ := List.exists_cons_of_ne_nil hne
      exact (h.2.2 n rfl).startsSolid h.1 ms

/-! ## The open nodes -/

/-- The children of the open nodes are trimmed, and the innermost of them ends in no filler. -/
structure Tidy (levels : List Level) : Prop where
  children : ∀ level ∈ levels, ∀ n ∈ level.children, n.All Trimmed
  innermost : ∀ level ∈ levels.head?, level.children ≠ [] → StopsSolid level.children.reverse

theorem all_trimmed_ofToken {t : Token} (field : Option Field) (h : t.text ≠ []) :
    (Node.ofToken field t).All Trimmed := all_leaf.2 (.leaf h)

theorem all_trimmed_marker (fault : Fault) : (Node.marker fault).All Trimmed :=
  all_branch.2 ⟨.marker fault, by simp⟩

/-- A node that is closed with the children `ns`, last first. -/
theorem all_trimmed_branch {ns : List Node} (k : NodeKind) (f : Option Field) (e : Option Fault)
    (hns : ∀ n ∈ ns, n.All Trimmed) (hstart : StartsSolid ns.reverse)
    (hstop : StopsSolid ns.reverse) : (Node.branch k f e ns.reverse).All Trimmed := by
  refine all_branch.2 ⟨.branch hstart hstop, ?_⟩
  intro n hn
  exact hns n (List.mem_reverse.1 hn)

namespace Tidy

variable {f : Frame} {ns : List Node} {below : List Level} {n : Node}

theorem cons (hns : ∀ n ∈ ns, n.All Trimmed)
    (hbelow : ∀ level ∈ below, ∀ n ∈ level.children, n.All Trimmed)
    (hstop : ns ≠ [] → StopsSolid ns.reverse) : Tidy (⟨f, ns⟩ :: below) where
  children := List.forall_mem_cons.2 ⟨hns, hbelow⟩
  innermost := by simpa using hstop

/-- A node that ends in no filler may be added to any open node. -/
theorem attachTo (hbelow : ∀ level ∈ below, ∀ n ∈ level.children, n.All Trimmed)
    (hn : n.All Trimmed) (hstop : StopsSolid [n]) : Tidy (attachTo n below) := by
  rcases below with - | ⟨⟨g, ms⟩, below⟩
  · exact ⟨by simp [Machine.attachTo], by simp [Machine.attachTo]⟩
  · obtain ⟨hms, hbelow⟩ := List.forall_mem_cons.1 hbelow
    refine cons (List.forall_mem_cons.2 ⟨hn, hms⟩) hbelow ?_
    intro _
    exact hstop.reverse_cons ms

theorem outer (h : Tidy (⟨f, ns⟩ :: below)) :
    ∀ level ∈ below, ∀ n ∈ level.children, n.All Trimmed := (List.forall_mem_cons.1 h.children).2

theorem top (h : Tidy (⟨f, ns⟩ :: below)) : ∀ n ∈ ns, n.All Trimmed :=
  (List.forall_mem_cons.1 h.children).1

theorem stop (h : Tidy (⟨f, ns⟩ :: below)) (hne : ns ≠ []) : StopsSolid ns.reverse :=
  h.innermost _ rfl hne

variable {a : Action} {fillers : List Node} {t : Token}

/-- A node that an action closes is trimmed. -/
theorem trimmed_of_closed (h : Tidy (⟨f, ns⟩ :: below)) (hfits : f.Fits ns.reverse)
    (hne : ns ≠ []) (hfillers : ∀ m ∈ fillers, m.All Trimmed)
    (ht : a.takes = true → t.text ≠ [] ∧ t.kind.isFiller = false)
    (hn : a.closed f ns fillers t = some n) : n.All Trimmed ∧ StopsSolid [n] := by
  have hstart : StartsSolid ns.reverse := hfits.startsSolid (by simp [hne])
  have hstop := h.stop hne
  have hbranch : ∀ (fault : Option Fault) (ms : List Node), (∀ m ∈ ms, m.All Trimmed) →
      StartsSolid ms.reverse → StopsSolid ms.reverse →
        some (Node.branch f.kind f.field fault ms.reverse) = some n →
          n.All Trimmed ∧ StopsSolid [n] := by
    rintro fault ms hms hstart hstop heq
    obtain rfl := Option.some.inj heq
    exact ⟨all_trimmed_branch _ _ _ hms hstart hstop, hstop.branch _ _ _⟩
  cases a with
  | finish field =>
      obtain ⟨htext, hsolid⟩ := ht rfl
      refine hbranch none _ ?_ ?_ ?_ hn
      · exact List.forall_mem_cons.2 ⟨all_trimmed_ofToken field htext,
          List.forall_mem_append.2 ⟨hfillers, h.top⟩⟩
      · rw [List.reverse_cons, List.reverse_append, List.append_assoc]
        exact hstart.append _
      · exact (stopsSolid_ofToken hsolid).reverse_cons _
  | abort fault => exact hbranch (some fault) ns h.top hstart hstop hn
  | stop fault => exact hbranch (some fault) ns h.top hstart hstop hn
  | lack fault =>
      refine hbranch none _ ?_ ?_ ?_ hn
      · exact List.forall_mem_cons.2 ⟨all_trimmed_marker fault, h.top⟩
      · rw [List.reverse_cons]
        exact hstart.append _
      · rw [List.reverse_cons]
        exact hstop.append_marker fault
  | take g field => cases hn
  | fill e g => cases hn
  | descend g child => cases hn
  | abandon fault g => cases hn
  | recover found recovery header => cases hn

/-- An action leaves the open nodes tidy. Those around the innermost may end in fillers, as soon as
a node is opened in them. -/
theorem levels (h : Tidy (⟨f, ns⟩ :: below)) (hfillers : ∀ m ∈ fillers, m.All Trimmed)
    (ht : a.takes = true → t.text ≠ [] ∧ t.kind.isFiller = false)
    (hclosed : ∀ n, a.closed f ns fillers t = some n → n.All Trimmed ∧ StopsSolid [n])
    (hne : a.takes = false → ns ≠ []) : Tidy (a.levels f ns fillers t below) := by
  have hflush : ∀ n ∈ fillers ++ ns, n.All Trimmed := List.forall_mem_append.2 ⟨hfillers, h.top⟩
  have hclose : ∀ n, a.closed f ns fillers t = some n → Tidy (Machine.attachTo n below) := by
    intro n hn
    obtain ⟨hall, hstop⟩ := hclosed n hn
    exact attachTo h.outer hall hstop
  cases a with
  | take g field =>
      obtain ⟨htext, hsolid⟩ := ht rfl
      refine cons (List.forall_mem_cons.2 ⟨all_trimmed_ofToken field htext, hflush⟩) h.outer ?_
      intro _
      exact (stopsSolid_ofToken hsolid).reverse_cons _
  | fill e g =>
      obtain ⟨htext, hsolid⟩ := ht rfl
      refine cons ?_ h.outer ?_
      · exact List.forall_mem_cons.2 ⟨all_trimmed_ofToken none htext,
          List.forall_mem_cons.2 ⟨all_trimmed_marker _, hflush⟩⟩
      · intro _
        exact (stopsSolid_ofToken hsolid).reverse_cons _
  | descend g child =>
      obtain ⟨htext, hsolid⟩ := ht rfl
      refine cons ?_ (List.forall_mem_cons.2 ⟨hflush, h.outer⟩) fun _ => stopsSolid_ofToken hsolid
      exact List.forall_mem_singleton.2 (all_trimmed_ofToken none htext)
  | finish field => exact hclose _ rfl
  | abort fault => exact hclose _ rfl
  | stop fault => exact hclose _ rfl
  | lack fault => exact hclose _ rfl
  | abandon fault g =>
      refine cons (List.forall_mem_cons.2 ⟨all_trimmed_marker fault, h.top⟩) h.outer ?_
      intro _
      rw [List.reverse_cons]
      exact (h.stop (hne rfl)).append_marker fault
  | recover found recovery header =>
      exact cons (by simp) (List.forall_mem_cons.2 ⟨hflush, h.outer⟩) (by simp)

end Tidy

/-! ## Runs -/

/-- What is finished and what is open has no fillers at its ends. -/
structure Trim (s : State) : Prop where
  segments : ∀ g ∈ s.segments, g.node.All Trimmed
  stack : Tidy s.stack
  pending : ∀ t ∈ s.pending, t.text ≠ []

theorem trim_init (pos : Nat) (text : Text) : Trim (.init pos text) where
  segments := by simp [State.init]
  stack := ⟨by simp [State.init], by simp [State.init]⟩
  pending := by simp [State.init]

namespace Trim

variable {s : State} {f : Frame} {ns : List Node} {below : List Level}

theorem all_fillers (h : Trim s) : ∀ m ∈ s.fillers, m.All Trimmed := by
  intro m hm
  obtain ⟨t, ht, rfl⟩ := List.mem_map.1 hm
  exact all_trimmed_ofToken none (h.pending t ht)

theorem segments_flush (h : Trim s) (hs : s.stack = []) :
    ∀ g ∈ s.flush.segments, g.node.All Trimmed := by
  rw [State.segments_flush_of_stack_nil hs]
  intro g hg
  rcases List.mem_append.1 hg with hg | hg
  · obtain ⟨t, ht, rfl⟩ := List.mem_map.1 hg
    exact all_trimmed_ofToken none (h.pending t ht)
  · exact h.segments g hg

theorem act (h : Trim s) (hsound : Sound s) (hw : WellFormed s)
    (hs : s.stack = ⟨f, ns⟩ :: below) (hsolid : Solid (lex s.mode s.rest)) :
    Trim ((s.decision f).run s (lex s.mode s.rest)) := by
  obtain ⟨t, -, htoken⟩ := Sound.exists_token (lex s.mode s.rest)
  have hl : (s.decision f).takes = true → ∃ rest, lex s.mode s.rest = some (t, rest) :=
    fun htakes => htoken (isSome_lex_of_takes htakes)
  have ht : (s.decision f).takes = true → t.text ≠ [] ∧ t.kind.isFiller = false := by
    intro htakes
    obtain ⟨rest, hlex⟩ := hl htakes
    exact ⟨(append_of_lex hlex).2, hsolid _ hlex⟩
  have htidy : Tidy (⟨f, ns⟩ :: below) := hs ▸ h.stack
  have hfresh : ns = [] → ∃ g, s.decision f = .take g none := by
    rintro rfl
    exact hsound.exists_take_of_nil hw hs
  have hclosed : ∀ n, (s.decision f).closed f ns s.fillers t = some n →
      n.All Trimmed ∧ StopsSolid [n] := by
    intro n hn
    refine htidy.trimmed_of_closed (hsound.stacked hs).1 ?_ h.all_fillers ht hn
    intro hnil
    obtain ⟨g, hg⟩ := hfresh hnil
    rw [hg] at hn
    cases hn
  refine ⟨?_, ?_, ?_⟩
  · intro g hg
    rcases Action.mem_segments_run hs hl hg with hg | ⟨-, hn⟩
    · exact h.segments g hg
    · exact (hclosed _ hn).1
  · rw [Action.stack_run hs hl]
    refine htidy.levels h.all_fillers ht hclosed ?_
    rintro htakes hnil
    obtain ⟨g, hg⟩ := hfresh hnil
    rw [hg] at htakes
    cases htakes
  · intro u hu
    rcases (s.decision f).pending_run s (lex s.mode s.rest) with hp | hp
    · simp [hp] at hu
    · exact h.pending u (hp ▸ hu)

theorem settle (h : Trim s) (hsound : Sound s) (hw : WellFormed s) (hset : s.isSettled = true) :
    Trim (s.close none) := by
  obtain ⟨command, items, ns, hs, -⟩ := hw.stack_of_isSettled hset
  have hfits := (hsound.stacked hs).1
  have hne := hsound.ne_nil_of_statement hs
  have htidy : Tidy [⟨.statement command items none, ns⟩] := hs ▸ h.stack
  refine ⟨?_, ?_, by simpa using h.pending⟩
  · intro g hg
    rcases s.mem_segments_close hs hg with hg | ⟨-, hn⟩
    · exact h.segments g hg
    · rw [hn]
      exact all_trimmed_branch _ _ _ htidy.top (hfits.startsSolid (by simp [hne])) (htidy.stop hne)
  · rw [s.stack_close none hs]
    exact ⟨by simp [attachTo], by simp [attachTo]⟩

theorem start (h : Trim s) (hs : s.stack = []) {command : Command} {t : Token} (rest : Text)
    (htext : t.text ≠ []) (hk : t.kind = .keyword) : Trim (s.start command t rest) := by
  refine ⟨?_, ?_, by simp [State.start]⟩
  · rw [State.segments_start]
    exact h.segments_flush hs
  · rw [s.stack_start _ _ _ hs]
    refine Tidy.cons ?_ (by simp) fun _ => stopsSolid_ofToken (by rw [hk]; rfl)
    exact List.forall_mem_singleton.2 (all_trimmed_ofToken none htext)

theorem stray (h : Trim s) (hs : s.stack = []) (t : Token) :
    Trim (s.atRest.recover t ⟨.normal, false, none⟩) := by
  refine ⟨?_, ?_, by simp [State.recover]⟩
  · rw [State.recover, s.segments_enter_atRest]
    exact h.segments_flush hs
  · rw [State.recover, s.stack_enter_atRest _ hs]
    exact Tidy.cons (by simp) (by simp) (by simp)

/-- Every move keeps fillers away from the ends of nodes. -/
theorem moves {s' : State} (h : Trim s) (hsound : Sound s) (hw : WellFormed s)
    (hm : Moves s s') : Trim s' := by
  cases hm with
  | settle settled => exact h.settle hsound hw settled
  | skip open_ lexed filler =>
      exact ⟨h.segments, h.stack, List.forall_mem_cons.2 ⟨(append_of_lex lexed).2, h.pending⟩⟩
  | act open_ stack solid => exact h.act hsound hw stack solid
  | start stack lexed keyword named => exact h.start stack _ (append_of_lex lexed).2 keyword
  | stray stack lexed filler keyword => exact h.stray stack _

end Trim

theorem Ends.trimmed {resume : Nat → Option Nat} {s : State} {r : List Segment × Option Nat}
    (h : Ends resume s r) (hw : WellFormed s) (hsound : Sound s) (htrim : Trim s) :
    ∀ g ∈ r.1, g.node.All Trimmed := by
  induction h with
  | done hd =>
      obtain ⟨hs, rfl, -⟩ := step_eq_done hd
      intro g hg
      exact htrim.segments_flush hs g (List.mem_reverse.1 hg)
  | next hn _ ih =>
      have hm := moves_of_step hn
      exact ih (hw.moves hm) (hsound.moves hw hm) (htrim.moves hsound hw hm)

end Machine

/-- No node of a parse starts or ends with a filler, other than the fillers themselves. -/
theorem Tree.trimmed_segments (t : Text) : ∀ g ∈ (parse t).segments, g.node.All Trimmed :=
  (ends_parse t).trimmed (Machine.wellFormed_init 0 t) (Machine.sound_init 0 t)
    (Machine.trim_init 0 t)

end BibStyle
