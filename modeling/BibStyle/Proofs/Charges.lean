import BibStyle.Proofs.Table
import BibStyle.Proofs.Trimming

/-!
# At most three nodes for each byte

Only tokens have bytes of their own. A node around them has none, nor has a marker, so the tokens
pay for all nodes, at three nodes a byte: the token itself, the node it may open, and one marker.
The lone quote in a block takes up all of that, being a token, in a reference, with a marker in
place of the symbol.

An open node with at least one token has been paid for, and so has the marker that it may still be
given (`Frame.reserve`, `Level.Paid`). A reference is owed the marker for a missing symbol. A
statement is owed one for the brace that does not come or for the group that is not closed; with it
the statement is given up, so it is never owed a second. The marker in an empty group is paid for by
the brace that closes the group.
-/

namespace BibStyle

open Node

/-- There are at most three nodes for each byte. -/
def Node.Thrifty (n : Node) : Prop := n.count ≤ 3 * n.size

namespace Node

@[simp] theorem count_ofToken (field : Option Field) (t : Token) : (ofToken field t).count = 1 := by
  simp [ofToken, count]

@[simp] theorem count_marker (fault : Fault) : (marker fault).count = 1 := by
  simp [marker, count]

@[simp] theorem size_ofToken (field : Option Field) (t : Token) :
    (ofToken field t).size = t.size := by simp [ofToken, Token.size]

theorem countAll_reverse (ns : List Node) : countAll ns.reverse = countAll ns := by
  induction ns with
  | nil => rfl
  | cons n ns ih => simp [countAll_append, ih, Nat.add_comm]

theorem sizeAll_reverse (ns : List Node) : sizeAll ns.reverse = sizeAll ns := by
  induction ns with
  | nil => rfl
  | cons n ns ih => simp [ih, Nat.add_comm]

theorem thrifty_ofToken (field : Option Field) {t : Token} (h : t.text ≠ []) :
    (ofToken field t).Thrifty := by
  have := Text.size_pos h
  rw [Thrifty, count_ofToken, size_ofToken, Token.size]
  omega

theorem countAll_le_of_thrifty {ns : List Node} (h : ∀ n ∈ ns, n.Thrifty) :
    countAll ns ≤ 3 * sizeAll ns := by
  induction ns with
  | nil => simp
  | cons n ns ih =>
      obtain ⟨hn, hns⟩ := List.forall_mem_cons.1 h
      have := ih hns
      rw [Thrifty] at hn
      rw [countAll_cons, sizeAll_cons]
      omega

/-- A node that is closed with the children `ns`, last first. -/
theorem thrifty_branch {ns : List Node} (k : NodeKind) (f : Option Field) (e : Option Fault)
    (h : 1 + countAll ns ≤ 3 * sizeAll ns) : (branch k f e ns.reverse).Thrifty := by
  rwa [Thrifty, count, size_branch, countAll_reverse, sizeAll_reverse]

end Node

namespace Machine

/-! ## The markers that may still come -/

namespace Frame

/-- The markers that the open node may still be given without another token. -/
def reserve (early : Bool) : Frame → Nat
  | .statement _ items none => if early || items.isEmpty then 0 else 1
  | .statement _ _ (some _) | .ref => 1
  | .list _ | .block _ | .unexpected .. => 0

theorem reserve_le_one (early : Bool) (f : Frame) : f.reserve early ≤ 1 := by
  cases f with
  | statement command items slot =>
      cases slot with
      | none => simp only [reserve]; split <;> omega
      | some slot => exact Nat.le_refl _
  | _ => simp [reserve]

/-- Closing something early asks for no marker more. -/
theorem reserve_true_le (early : Bool) (f : Frame) : f.reserve true ≤ f.reserve early := by
  cases f with
  | statement command items slot =>
      cases slot with
      | none => exact Nat.zero_le _
      | some slot => exact Nat.le_refl _
  | _ => exact Nat.le_refl _

end Frame

/-- The markers of the action are those held in reserve by the node it is for. -/
def Action.Within (early : Bool) (f : Frame) : Action → Prop
  | .lack _ | .abandon .. => f.reserve early = 1
  | .descend g _ => g.reserve early ≤ f.reserve early
  | _ => True

theorem Action.reserve_early_le (a : Action) (early : Bool) (f : Frame) :
    f.reserve (a.early early) ≤ f.reserve early := by
  have htrue := f.reserve_true_le early
  cases a with
  | abort fault => exact htrue
  | abandon fault g => exact htrue
  | recover found recovery header =>
      cases header with
      | true => exact htrue
      | false => exact Nat.le_refl _
  | _ => exact Nat.le_refl _

/-- Only a reference lacks its last token. -/
theorem Frame.action_lack {f : Frame} {kind : Option TokenKind} {fault : Fault}
    (h : f.action kind = .lack fault) : f = .ref := by
  rw [action_eq_some] at h
  generalize kind.getD .keyword = k at h
  cases f with
  | ref => rfl
  | statement command items slot =>
      cases slot with
      | none => rcases items with - | ⟨f | ⟨f, cls⟩ | f, items⟩ <;> cases k <;> cases h
      | some slot =>
          obtain ⟨f, cls, filled⟩ := slot
          cases cls <;> cases filled <;> cases k <;> cases h
  | list f => cases k <;> cases h
  | block f => cases k <;> cases h
  | unexpected found recovery depth =>
      simp only [action] at h
      rcases unexpectedAction_cases found recovery depth (some k) with ⟨ha, -⟩ |
        ⟨k, -, -, ⟨-, ha⟩ | ⟨-, ha⟩⟩ <;> rw [ha] at h <;> cases h

/-- No decision puts a marker where none is held in reserve. -/
theorem Frame.within_action {early : Bool} {f : Frame} (kind : Option TokenKind)
    (hopen : ∀ command items, f = .statement command items none → early = false ∧ items ≠ []) :
    (f.action kind).Within early f := by
  cases ha : f.action kind with
  | lack fault =>
      obtain rfl := action_lack ha
      rfl
  | abandon fault g =>
      obtain ⟨command, items, slot, rfl, -⟩ := action_abandon ha
      cases slot with
      | none =>
          obtain ⟨rfl, hitems⟩ := hopen command items rfl
          simp [Action.Within, reserve, hitems]
      | some slot => rfl
  | descend g child =>
      rcases action_descend ha with ⟨command, item, items, rfl, rfl, -⟩ | ⟨field, -, rfl, -⟩
      · obtain ⟨rfl, -⟩ := hopen command (item :: items) rfl
        exact reserve_le_one false _
      · exact Nat.le_refl _
  | _ => trivial

/-! ## What is open -/

/-- The bytes of the children pay for them, for the node and for the marker held in reserve. -/
def Level.Paid (early : Bool) (level : Level) : Prop :=
  1 + countAll level.children + level.frame.reserve early ≤ 3 * sizeAll level.children

/-- The open nodes are paid for; the innermost may have to wait for its first token. -/
structure Funded (early : Bool) (levels : List Level) : Prop where
  innermost : ∀ level ∈ levels.head?, level.children ≠ [] → level.Paid early
  outer : ∀ level ∈ levels.tail, level.Paid early

namespace Level.Paid

variable {early : Bool} {f : Frame} {ns ms : List Node}

/-- The node is paid for, whatever is held in reserve. -/
theorem one_add_countAll_le (h : Paid early ⟨f, ns⟩) : 1 + countAll ns ≤ 3 * sizeAll ns := by
  simp only [Paid] at h
  omega

/-- Thrifty children are added. -/
theorem append (h : Paid early ⟨f, ns⟩) (hms : countAll ms ≤ 3 * sizeAll ms) :
    Paid early ⟨f, ms ++ ns⟩ := by
  simp only [Paid, countAll_append, sizeAll_append] at h ⊢
  omega

/-- The node goes on with another frame that holds no more in reserve. -/
theorem congr {early' : Bool} {g : Frame} (h : Paid early ⟨f, ns⟩)
    (hg : g.reserve early' ≤ f.reserve early) : Paid early' ⟨g, ns⟩ := by
  simp only [Paid] at h ⊢
  omega

theorem run (h : Paid early ⟨f, ns⟩) (a : Action) : Paid (a.early early) ⟨f, ns⟩ :=
  h.congr (a.reserve_early_le early f)

/-- What a token is added to is paid for, and the marker in reserve as well. -/
theorem token {t : Token} (early : Bool) (g : Frame) (field : Option Field) (ht : t.text ≠ [])
    (h : countAll ns ≤ 3 * sizeAll ns) : Paid early ⟨g, .ofToken field t :: ns⟩ := by
  have hpos := Text.size_pos ht
  have hg := g.reserve_le_one early
  simp only [Paid, countAll_cons, sizeAll_cons, count_ofToken, size_ofToken, Token.size]
  omega

end Level.Paid

namespace Funded

variable {early : Bool} {f : Frame} {ns fillers : List Node} {below : List Level} {a : Action}
  {t : Token} {n : Node}

theorem cons {level : Level} (h : level.children ≠ [] → level.Paid early)
    (hbelow : ∀ level ∈ below, level.Paid early) : Funded early (level :: below) :=
  ⟨by simpa using h, hbelow⟩

theorem attachTo (hbelow : ∀ level ∈ below, level.Paid early) (hn : n.Thrifty) :
    Funded early (attachTo n below) := by
  rcases below with - | ⟨⟨g, ms⟩, below⟩
  · exact ⟨by simp [Machine.attachTo], by simp [Machine.attachTo]⟩
  · obtain ⟨hms, hbelow⟩ := List.forall_mem_cons.1 hbelow
    have hone : countAll [n] ≤ 3 * sizeAll [n] := countAll_le_of_thrifty (by simpa using hn)
    exact cons (fun _ => hms.append hone) hbelow

theorem top (h : Funded early (⟨f, ns⟩ :: below)) (hne : ns ≠ []) : Level.Paid early ⟨f, ns⟩ :=
  h.innermost _ rfl hne

/-- The children of the innermost node are paid for, whether the node is or not. -/
theorem countAll_le (h : Funded early (⟨f, ns⟩ :: below)) : countAll ns ≤ 3 * sizeAll ns := by
  rcases ns with - | ⟨n, ns⟩
  · simp
  · have := (h.top (List.cons_ne_nil n ns)).one_add_countAll_le
    omega

/-- A node that an action closes is thrifty. -/
theorem thrifty_of_closed (h : Funded early (⟨f, ns⟩ :: below)) (hwithin : a.Within early f)
    (hfillers : countAll fillers ≤ 3 * sizeAll fillers) (ht : a.takes = true → t.text ≠ [])
    (hfresh : ns = [] → ∃ g field, a = .take g field)
    (hn : a.closed f ns fillers t = some n) : n.Thrifty := by
  have hne : ns ≠ [] := by
    intro hnil
    obtain ⟨g, field, rfl⟩ := hfresh hnil
    cases hn
  have hpaid := h.top hne
  cases a with
  | finish field =>
      obtain rfl := Option.some.inj hn
      have hflush := (hpaid.append hfillers).one_add_countAll_le
      have htoken : Level.Paid early ⟨f, .ofToken field t :: (fillers ++ ns)⟩ :=
        .token early f field (ht rfl) (by omega)
      exact thrifty_branch _ _ _ htoken.one_add_countAll_le
  | abort fault =>
      obtain rfl := Option.some.inj hn
      exact thrifty_branch _ _ _ hpaid.one_add_countAll_le
  | stop fault =>
      obtain rfl := Option.some.inj hn
      exact thrifty_branch _ _ _ hpaid.one_add_countAll_le
  | lack fault =>
      obtain rfl := Option.some.inj hn
      have hone : f.reserve early = 1 := hwithin
      refine thrifty_branch _ _ _ ?_
      simp only [Level.Paid, countAll_cons, sizeAll_cons, count_marker, size_marker] at hpaid ⊢
      omega
  | take g field => cases hn
  | fill e g => cases hn
  | descend g child => cases hn
  | abandon fault g => cases hn
  | recover found recovery header => cases hn

/-- An action leaves all open nodes paid for. -/
theorem levels (h : Funded early (⟨f, ns⟩ :: below)) (hwithin : a.Within early f)
    (hfillers : countAll fillers ≤ 3 * sizeAll fillers) (ht : a.takes = true → t.text ≠ [])
    (hfresh : ns = [] → ∃ g field, a = .take g field)
    (hclosed : ∀ n, a.closed f ns fillers t = some n → n.Thrifty)
    (habandon : ∀ fault g, a = .abandon fault g → g.reserve true = 0) :
    Funded (a.early early) (a.levels f ns fillers t below) := by
  have hbelow : ∀ level ∈ below, level.Paid (a.early early) := fun level hl => (h.outer _ hl).run a
  have hflush : countAll (fillers ++ ns) ≤ 3 * sizeAll (fillers ++ ns) := by
    have := h.countAll_le
    simp only [countAll_append, sizeAll_append]
    omega
  have hne : (∀ g field, a ≠ .take g field) → ns ≠ [] := by
    intro htake hnil
    obtain ⟨g, field, ha⟩ := hfresh hnil
    exact htake g field ha
  cases a with
  | take g field => exact cons (fun _ => .token _ g field (ht rfl) hflush) hbelow
  | fill e g =>
      have hpaid := (h.top (hne (by simp))).append hfillers
      have hmarked : countAll (.marker (.missing e) :: (fillers ++ ns)) ≤
          3 * sizeAll (.marker (.missing e) :: (fillers ++ ns)) := by
        simp only [Level.Paid, countAll_cons, sizeAll_cons, count_marker, size_marker] at hpaid ⊢
        omega
      exact cons (fun _ => .token _ g none (ht rfl) hmarked) hbelow
  | descend g child =>
      have hpaid := (h.top (hne (by simp))).append hfillers
      refine cons (fun _ => .token _ child none (ht rfl) (by simp)) ?_
      exact List.forall_mem_cons.2 ⟨hpaid.congr hwithin, hbelow⟩
  | finish field => exact attachTo hbelow (hclosed _ rfl)
  | abort fault => exact attachTo hbelow (hclosed _ rfl)
  | stop fault => exact attachTo hbelow (hclosed _ rfl)
  | lack fault => exact attachTo hbelow (hclosed _ rfl)
  | abandon fault g =>
      -- the marker is the one held in reserve, and no other is
      have hpaid := h.top (hne (by simp))
      have hone : f.reserve early = 1 := hwithin
      have hzero : g.reserve true = 0 := habandon fault g rfl
      refine cons (fun _ => ?_) hbelow
      simp only [Level.Paid, Action.early, countAll_cons, sizeAll_cons, count_marker,
        size_marker] at hpaid ⊢
      omega
  | recover found recovery header =>
      have hpaid := ((h.top (hne (by simp))).append hfillers).run (.recover found recovery header)
      exact cons (by simp) (List.forall_mem_cons.2 ⟨hpaid, hbelow⟩)

end Funded

/-! ## Runs -/

/-- What is finished is thrifty, and what is open is paid for. -/
structure Solvent (s : State) : Prop where
  segments : ∀ g ∈ s.segments, g.node.Thrifty
  stack : Funded s.early s.stack

theorem solvent_init (pos : Nat) (text : Text) : Solvent (.init pos text) where
  segments := by simp [State.init]
  stack := ⟨by simp [State.init], by simp [State.init]⟩

namespace Solvent

variable {s : State} {f : Frame} {ns : List Node} {below : List Level}

theorem thrifty_fillers (htrim : Trim s) : ∀ n ∈ s.fillers, n.Thrifty := by
  intro n hn
  obtain ⟨t, ht, rfl⟩ := List.mem_map.1 hn
  exact thrifty_ofToken none (htrim.pending t ht)

theorem segments_flush (h : Solvent s) (htrim : Trim s) (hs : s.stack = []) :
    ∀ g ∈ s.flush.segments, g.node.Thrifty := by
  rw [State.segments_flush_of_stack_nil hs]
  intro g hg
  rcases List.mem_append.1 hg with hg | hg
  · obtain ⟨t, ht, rfl⟩ := List.mem_map.1 hg
    exact thrifty_ofToken none (htrim.pending t ht)
  · exact h.segments g hg

theorem act (h : Solvent s) (htrim : Trim s) (hsound : Sound s) (hw : WellFormed s)
    (hset : s.isSettled = false) (hs : s.stack = ⟨f, ns⟩ :: below) :
    Solvent ((s.decision f).run s (lex s.mode s.rest)) := by
  obtain ⟨t, -, htoken⟩ := Sound.exists_token (lex s.mode s.rest)
  have hl : (s.decision f).takes = true → ∃ rest, lex s.mode s.rest = some (t, rest) :=
    fun htakes => htoken (isSome_lex_of_takes htakes)
  have ht : (s.decision f).takes = true → t.text ≠ [] := by
    intro htakes
    obtain ⟨rest, hlex⟩ := hl htakes
    exact (append_of_lex hlex).2
  have hfunded : Funded s.early (⟨f, ns⟩ :: below) := hs ▸ h.stack
  have hfillers := countAll_le_of_thrifty (thrifty_fillers htrim)
  have hwithin : (s.decision f).Within s.early f :=
    f.within_action _ (waits_of_not_settled hset (frames_of_stack_cons hs))
  have hfresh : ns = [] → ∃ g field, s.decision f = .take g field := by
    rintro rfl
    obtain ⟨g, hg⟩ := hsound.exists_take_of_nil hw hs
    exact ⟨g, none, hg⟩
  have hclosed : ∀ n, (s.decision f).closed f ns s.fillers t = some n → n.Thrifty :=
    fun n hn => hfunded.thrifty_of_closed hwithin hfillers ht hfresh hn
  refine ⟨?_, ?_⟩
  · intro g hg
    rcases Action.mem_segments_run hs hl hg with hg | ⟨-, hn⟩
    · exact h.segments g hg
    · exact hclosed _ hn
  · rw [Action.early_run, Action.stack_run hs hl]
    refine hfunded.levels hwithin hfillers ht hfresh hclosed ?_
    intro fault g ha
    obtain ⟨command, items, slot, -, rfl⟩ := Frame.action_abandon ha
    rfl

theorem settle (h : Solvent s) (hsound : Sound s) (hw : WellFormed s)
    (hset : s.isSettled = true) : Solvent (s.close none) := by
  obtain ⟨command, items, ns, hs, -⟩ := hw.stack_of_isSettled hset
  have hfunded : Funded s.early [⟨.statement command items none, ns⟩] := hs ▸ h.stack
  have hpaid := hfunded.top (hsound.ne_nil_of_statement hs)
  refine ⟨?_, ?_⟩
  · intro g hg
    rcases s.mem_segments_close hs hg with hg | ⟨-, hn⟩
    · exact h.segments g hg
    · rw [hn]
      exact thrifty_branch _ _ _ hpaid.one_add_countAll_le
  · rw [s.stack_close none hs]
    exact ⟨by simp [attachTo], by simp [attachTo]⟩

theorem start (h : Solvent s) (htrim : Trim s) (hs : s.stack = []) {command : Command} {t : Token}
    (rest : Text) (htext : t.text ≠ []) : Solvent (s.start command t rest) := by
  refine ⟨?_, ?_⟩
  · rw [State.segments_start]
    exact h.segments_flush htrim hs
  · rw [s.stack_start _ _ _ hs]
    exact Funded.cons (fun _ => .token _ _ _ htext (by simp)) (by simp)

theorem stray (h : Solvent s) (htrim : Trim s) (hs : s.stack = []) (t : Token) :
    Solvent (s.atRest.recover t ⟨.normal, false, none⟩) := by
  refine ⟨?_, ?_⟩
  · rw [State.recover, s.segments_enter_atRest]
    exact h.segments_flush htrim hs
  · rw [State.recover, s.stack_enter_atRest _ hs]
    exact Funded.cons (by simp) (by simp)

/-- Every move is paid for. -/
theorem moves {s' : State} (h : Solvent s) (htrim : Trim s) (hsound : Sound s) (hw : WellFormed s)
    (hm : Moves s s') : Solvent s' := by
  cases hm with
  | settle settled => exact h.settle hsound hw settled
  | skip open_ lexed filler => exact ⟨h.segments, h.stack⟩
  | act open_ stack solid => exact h.act htrim hsound hw open_ stack
  | start stack lexed keyword named => exact h.start htrim stack _ (append_of_lex lexed).2
  | stray stack lexed filler keyword => exact h.stray htrim stack _

end Solvent

theorem Ends.thrifty {resume : Nat → Option Nat} {s : State} {r : List Segment × Option Nat}
    (h : Ends resume s r) (hw : WellFormed s) (hsound : Sound s) (htrim : Trim s)
    (hsolvent : Solvent s) : ∀ g ∈ r.1, g.node.Thrifty := by
  induction h with
  | done hd =>
      obtain ⟨hs, rfl, -⟩ := step_eq_done hd
      intro g hg
      exact hsolvent.segments_flush htrim hs g (List.mem_reverse.1 hg)
  | next hn _ ih =>
      have hm := moves_of_step hn
      exact ih (hw.moves hm) (hsound.moves hw hm) (htrim.moves hsound hw hm)
        (hsolvent.moves htrim hsound hw hm)

end Machine

/-- No segment of a parse has more than three nodes for each of its bytes. -/
theorem Tree.thrifty_segments (t : Text) : ∀ g ∈ (parse t).segments, g.node.Thrifty :=
  (ends_parse t).thrifty (Machine.wellFormed_init 0 t) (Machine.sound_init 0 t)
    (Machine.trim_init 0 t) (Machine.solvent_init 0 t)

/-- Every quote by itself in a block makes three nodes of its one byte. -/
example : ["FUNCTION \x7bf\x7d \x7b'", "FUNCTION \x7bf\x7d \x7b''"].map (fun t =>
    (Tree.parse t.toList).segments.map fun g => (g.node.count, g.size)) =
      [[(12, 15)], [(15, 16)]] := by
  decide +kernel

end BibStyle
