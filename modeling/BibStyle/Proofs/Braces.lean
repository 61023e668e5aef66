import BibStyle.Proofs.Closing
import BibStyle.Proofs.Keywords
import Mathlib.Combinatorics.Enumerative.DyckWord

/-!
# Recovery keeps braces in pairs

A list or block that is not flagged as unterminated starts with an opening brace and ends with the
closing one that matches it, whatever stands in between, and all braces of a complete statement are
in pairs (`Tree.braces_parse`). Stretches of unexpected tokens count the braces open in them, and
inside braces they end only where that count is zero.

`Unclosed d bs` says of the braces read so far that all but `d` of them, which are open, are in
pairs. `Frame.Opens` is what that comes to for each open node, and every decision keeps it
(`Frame.Opens.pairs_action`) as long as nothing has been closed early. Once something has, no list
or block is closed by its brace any more, because what closed it lies ahead.
-/

namespace BibStyle

open Node DyckStep

/-- An opening brace is a step up and a closing one a step down. -/
def TokenKind.brace? : TokenKind → Option DyckStep
  | .lbrace => some U
  | .rbrace => some D
  | _ => none

theorem TokenKind.brace?_of_isFiller {k : TokenKind} (h : k.isFiller = true) : k.brace? = none := by
  cases k <;> first | rfl | cases h

theorem Class.brace?_of_accepts {cls : Class} {k : TokenKind} (h : cls.accepts k = true) :
    k.brace? = none := by
  cases cls <;> cases k <;> first | rfl | cases h

theorem TokenKind.brace?_of_isSymbol {k : TokenKind} (h : k.isSymbol = true) : k.brace? = none := by
  cases k <;> first | rfl | cases h

namespace Node

/-! ## The braces under a node -/

def bracesAll (ns : List Node) : List DyckStep := (leavesAll ns).filterMap (·.kind.brace?)

/-- The braces under the node in order. -/
def braces (n : Node) : List DyckStep := n.leaves.filterMap (·.kind.brace?)

@[simp] theorem bracesAll_nil : bracesAll [] = [] := by simp [bracesAll]

@[simp] theorem bracesAll_append (ns ms : List Node) :
    bracesAll (ns ++ ms) = bracesAll ns ++ bracesAll ms := by simp [bracesAll]

@[simp] theorem bracesAll_cons (n : Node) (ns : List Node) :
    bracesAll (n :: ns) = n.braces ++ bracesAll ns := by simp [bracesAll, braces]

@[simp] theorem braces_branch (k : NodeKind) (f : Option Field) (e : Option Fault)
    (ns : List Node) : (branch k f e ns).braces = bracesAll ns := by simp [bracesAll, braces]

@[simp] theorem braces_ofToken (field : Option Field) (t : Token) :
    (ofToken field t).braces = t.kind.brace?.toList := by
  cases h : t.kind.brace? <;> simp [braces, h]

@[simp] theorem braces_marker (fault : Fault) : (marker fault).braces = [] := by simp [braces]

theorem bracesAll_eq_nil {ns : List Node} (h : ∀ n ∈ ns, n.braces = []) : bracesAll ns = [] := by
  induction ns with
  | nil => simp
  | cons n ns ih =>
      obtain ⟨hn, hns⟩ := List.forall_mem_cons.1 h
      rw [bracesAll_cons, hn, ih hns, List.append_nil]

/-- The first and the last brace of a list or block match, unless it is unterminated. -/
def Paired (n : Node) : Prop :=
  n.kind = .node .identifierList ∨ n.kind = .node .block →
    (∀ c, n.fault ≠ some (.unterminated c)) → ∃ w : DyckWord, n.braces = w.nest.toList

theorem all_paired_ofToken (field : Option Field) (t : Token) :
    (ofToken field t).All Paired := by
  refine all_leaf.2 ?_
  rintro (hk | hk) <;> cases hk

theorem all_paired_marker (fault : Fault) : (marker fault).All Paired := by
  refine all_branch.2 ⟨?_, by simp⟩
  rintro (hk | hk) <;> cases hk

end Node

namespace Machine

/-! ## Braces that are still open -/

/-- All braces are in pairs but for `d` that are open. -/
inductive Unclosed : Nat → List DyckStep → Prop where
  | pairs (w : DyckWord) : Unclosed 0 w.toList
  | brace {d bs} (h : Unclosed d bs) (w : DyckWord) : Unclosed (d + 1) (bs ++ U :: w.toList)

namespace Unclosed

variable {d : Nat} {bs : List DyckStep}

theorem nil : Unclosed 0 [] := .pairs 0

theorem zero_iff : Unclosed 0 bs ↔ ∃ w : DyckWord, w.toList = bs := by
  constructor
  · rintro ⟨w⟩
    exact ⟨w, rfl⟩
  · rintro ⟨w, rfl⟩
    exact .pairs w

theorem append (h : Unclosed d bs) (w : DyckWord) : Unclosed d (bs ++ w.toList) := by
  cases h with
  | pairs v => exact .pairs (v + w)
  | @brace d bs h v =>
      rw [List.append_assoc, List.cons_append]
      exact h.brace (v + w)

theorem opened (h : Unclosed d bs) : Unclosed (d + 1) (bs ++ [U]) := h.brace 0

theorem closed (h : Unclosed (d + 1) bs) : Unclosed d (bs ++ [D]) := by
  cases h with
  | @brace _ bs h w =>
      rw [List.append_assoc]
      exact h.append w.nest

end Unclosed

/-- The braces read so far in an open node with the frame. -/
def Frame.Opens : Frame → List DyckStep → Prop
  | .statement _ _ none, bs => Unclosed 0 bs
  | .statement _ _ (some _), bs => Unclosed 1 bs
  | .list _, bs | .block _, bs => ∃ w : DyckWord, bs = U :: w.toList
  | .ref, bs => Unclosed 0 bs
  | .unexpected _ recovery depth, bs => recovery.braced = true → Unclosed depth bs

/-- What is in pairs may be added to any open node. -/
theorem Frame.Opens.append {f : Frame} {bs : List DyckStep} (h : f.Opens bs) (w : DyckWord) :
    f.Opens (bs ++ w.toList) := by
  cases f with
  | statement command items slot =>
      cases slot with
      | none => exact Unclosed.append h w
      | some slot => exact Unclosed.append h w
  | list f =>
      obtain ⟨v, rfl⟩ := h
      exact ⟨v + w, rfl⟩
  | block f =>
      obtain ⟨v, rfl⟩ := h
      exact ⟨v + w, rfl⟩
  | ref => exact Unclosed.append h w
  | unexpected found recovery depth => exact fun hbraced => (h hbraced).append w

/-! ## Decisions -/

/-- What an action does to the braces `bs` of the node, when it is for a token that is the brace
`b` or none. What is closed early is left out. -/
def Action.Pairs (f : Frame) (bs b : List DyckStep) : Action → Prop
  | .take g _ | .fill _ g => g.Opens (bs ++ b)
  | .descend g child => child.Opens b ∧ g.Opens bs
  | .finish _ => (∃ w : DyckWord, w.toList = bs ++ b) ∧
      (f.kind = .identifierList ∨ f.kind = .block → ∃ w : DyckWord, bs ++ b = w.nest.toList)
  | .stop _ | .lack _ => ∃ w : DyckWord, w.toList = bs
  | .recover .. => f.Opens bs
  | .abort _ | .abandon .. => True

/-- The brace that a token of the kind is, if it is one. -/
def brace (kind : Option TokenKind) : List DyckStep := (kind.bind TokenKind.brace?).toList

section Decisions

variable {bs : List DyckStep} {kind : Option TokenKind}

theorem pairs_itemAction {command : Command} {items : List Item} (h : Unclosed 0 bs)
    (he : (Frame.itemAction command items kind).early false = false) :
    (Frame.itemAction command items kind).Pairs (.statement command items none) bs
      (brace kind) := by
  rcases kind with - | k
  · rcases items with - | ⟨f | ⟨f, cls⟩ | f, items⟩ <;> cases he
  · by_cases hl : k = .lbrace
    · subst hl
      rcases items with - | ⟨f | ⟨f, cls⟩ | f, items⟩
      · cases he
      · exact ⟨⟨0, rfl⟩, h⟩
      · exact h.opened
      · exact ⟨⟨0, rfl⟩, h⟩
    · by_cases hkey : k = .keyword
      · subst hkey
        rcases items with - | ⟨f | ⟨f, cls⟩ | f, items⟩ <;> cases he
      · rw [Frame.itemAction_of_ne command items hl hkey] at he
        cases he

theorem pairs_slotAction {command : Command} {items : List Item} {slot : Slot}
    (h : Unclosed 1 bs) :
    (Frame.slotAction command items slot kind).Pairs (.statement command items (some slot)) bs
      (brace kind) := by
  rcases kind with - | k
  · trivial
  · by_cases hr : k = .rbrace
    · subst hr
      simp only [Frame.slotAction]
      split
      · exact h.closed
      · exact h.closed
    · by_cases hkey : k = .keyword
      · subst hkey
        trivial
      · rw [Frame.slotAction_of_ne command items slot hr hkey]
        split
        · rename_i ha
          have hnone := Class.brace?_of_accepts (Bool.and_eq_true_iff.1 ha).2
          have hbrace : brace (some k) = [] := by rw [brace, Option.bind_some, hnone]; rfl
          have hopens : Unclosed 1 (bs ++ []) := by rwa [List.append_nil]
          rw [hbrace]
          exact hopens
        · exact h

theorem pairs_listAction {f : Field} (h : (Frame.list f).Opens bs) :
    (Frame.listAction f kind).Pairs (.list f) bs (brace kind) := by
  rcases kind with - | k
  · trivial
  · obtain ⟨w, rfl⟩ := h
    cases k with
    | rbrace => exact ⟨⟨w.nest, rfl⟩, fun _ => ⟨w, rfl⟩⟩
    | identifier => exact ⟨w, List.append_nil _⟩
    | keyword => trivial
    | _ => exact ⟨w, rfl⟩

theorem pairs_blockAction {f : Field} (h : (Frame.block f).Opens bs) :
    (Frame.blockAction f kind).Pairs (.block f) bs (brace kind) := by
  rcases kind with - | k
  · trivial
  · obtain ⟨w, rfl⟩ := h
    cases k with
    | rbrace => exact ⟨⟨w.nest, rfl⟩, fun _ => ⟨w, rfl⟩⟩
    | lbrace => exact ⟨⟨0, rfl⟩, w, rfl⟩
    | quote => exact ⟨.nil, w, rfl⟩
    | keyword => trivial
    | _ => exact ⟨w, by simp [brace, TokenKind.brace?]⟩

theorem pairs_refAction (h : Unclosed 0 bs) :
    (Frame.refAction kind).Pairs .ref bs (brace kind) := by
  obtain ⟨w, rfl⟩ := Unclosed.zero_iff.1 h
  rcases kind with - | k
  · exact ⟨w, rfl⟩
  · by_cases hs : k.isSymbol = true
    · simp only [Frame.refAction, if_pos hs]
      refine ⟨⟨w, by simp [brace, TokenKind.brace?_of_isSymbol hs]⟩, ?_⟩
      rintro (hf | hf) <;> cases hf
    · simp only [Frame.refAction, if_neg hs]
      exact ⟨w, rfl⟩

/-- A stretch of unexpected tokens ends, inside braces, where none of its own is open, and takes a
closing brace only for an opening one. -/
theorem pairs_unexpectedAction {found : TokenKind} {recovery : Recovery} {depth : Nat}
    (h : (Frame.unexpected found recovery depth).Opens bs) :
    (Frame.unexpectedAction found recovery depth kind).Pairs (.unexpected found recovery depth) bs
      (brace kind) := by
  rcases Frame.unexpectedAction_cases found recovery depth kind with ⟨ha, -⟩ |
    ⟨k, rfl, -, ⟨hs, ha⟩ | ⟨hs, ha⟩⟩ <;> rw [ha]
  · trivial
  · simp only [Frame.stopsAt, Bool.and_eq_true, beq_iff_eq] at hs
    obtain ⟨⟨hbraced, rfl⟩, -⟩ := hs
    exact Unclosed.zero_iff.1 (h hbraced)
  · intro hbraced
    have hopen := h hbraced
    cases k with
    | lbrace => exact hopen.opened
    | rbrace =>
        cases depth with
        | zero => simp [Frame.stopsAt, hbraced] at hs
        | succ depth => exact hopen.closed
    | _ => simpa [brace, TokenKind.brace?, Frame.nextDepth] using hopen

/-- Whatever comes next, braces stay in pairs, unless something is closed early. -/
theorem Frame.Opens.pairs_action {f : Frame} (h : f.Opens bs)
    (he : (f.action kind).early false = false) : (f.action kind).Pairs f bs (brace kind) := by
  cases f with
  | statement command items slot =>
      cases slot with
      | none => exact pairs_itemAction h he
      | some slot => exact pairs_slotAction h
  | list f => exact pairs_listAction h
  | block f => exact pairs_blockAction h
  | ref => exact pairs_refAction h
  | unexpected found recovery depth => exact pairs_unexpectedAction h

end Decisions

theorem Action.early_eq_false_iff {a : Action} {early : Bool} :
    a.early early = false ↔ early = false ∧ a.early false = false := by
  cases a <;> simp [Action.early, and_comm]

/-- No statement is closed by a decision. -/
theorem Frame.isStatement_of_closed {f : Frame} {kind : Option TokenKind} {ns fillers : List Node}
    {t : Token} {n : Node} (h : (f.action kind).closed f ns fillers t = some n) :
    n.isStatement = false := by
  have hkind : n.kind = .node f.kind ∧ (f.action kind).frames [f] = [] := by
    cases ha : f.action kind <;> rw [ha] at h <;> cases h <;> exact ⟨rfl, rfl⟩
  rw [isStatement, hkind.1]
  cases f with
  | statement command items slot =>
      exact absurd hkind.2 (frames_action_statement command items slot kind [])
  | _ => rfl

/-- A list or block that is closed without its brace is flagged. -/
def Action.Flags (f : Frame) : Action → Prop
  | .abort fault | .stop fault => f.kind = .identifierList ∨ f.kind = .block →
      ∃ c, fault = .unterminated c
  | .lack _ => ¬(f.kind = .identifierList ∨ f.kind = .block)
  | _ => True

theorem Frame.flags_action (f : Frame) (kind : Option TokenKind) : (f.action kind).Flags f := by
  rw [action_eq_some]
  generalize kind.getD .keyword = k
  cases f with
  | statement command items slot =>
      cases slot with
      | none => rcases items with - | ⟨f | ⟨f, cls⟩ | f, items⟩ <;> cases k <;> trivial
      | some slot =>
          obtain ⟨f, cls, filled⟩ := slot
          cases cls <;> cases filled <;> cases k <;> trivial
  | list f => cases k <;> first | trivial | exact fun _ => ⟨_, rfl⟩
  | block f => cases k <;> first | trivial | exact fun _ => ⟨_, rfl⟩
  | ref =>
      have href : ¬(Frame.ref.kind = .identifierList ∨ Frame.ref.kind = .block) := by
        rintro (h | h) <;> cases h
      cases k <;> first | exact href | trivial
  | unexpected found recovery depth =>
      have hstretch : ¬((Frame.unexpected found recovery depth).kind = .identifierList ∨
          (Frame.unexpected found recovery depth).kind = .block) := by
        rintro (h | h) <;> cases h
      simp only [action]
      rcases unexpectedAction_cases found recovery depth (some k) with ⟨ha, -⟩ |
        ⟨k, -, -, ⟨-, ha⟩ | ⟨-, ha⟩⟩ <;> rw [ha]
      · exact fun h => absurd h hstretch
      · exact fun h => absurd h hstretch
      · trivial

/-! ## The open nodes -/

/-- The braces under the children are those that an open node of the kind may have. -/
def Level.Opens (l : Level) : Prop := l.frame.Opens (bracesAll l.children.reverse)

section Levels

variable {a : Action} {f : Frame} {ns fillers : List Node} {t : Token} {below : List Level}

/-- A node whose braces are in pairs may be added to any open node. -/
theorem opens_attachTo {n : Node} (hn : ∃ w : DyckWord, w.toList = n.braces)
    (hbelow : ∀ level ∈ below, level.Opens) : ∀ level ∈ attachTo n below, level.Opens := by
  rcases below with - | ⟨⟨g, ms⟩, below⟩
  · simp [attachTo]
  · obtain ⟨hg, hbelow⟩ := List.forall_mem_cons.1 hbelow
    obtain ⟨w, hw⟩ := hn
    refine List.forall_mem_cons.2 ⟨?_, hbelow⟩
    have happend := Frame.Opens.append hg w
    simpa [Level.Opens, hw] using happend

/-- An action that keeps braces in pairs leaves open nodes that do so. -/
theorem Action.Pairs.levels (h : a.Pairs f (bracesAll ns.reverse) t.kind.brace?.toList)
    (he : a.early false = false) (hfillers : bracesAll fillers.reverse = [])
    (hbelow : ∀ level ∈ below, level.Opens) :
    ∀ level ∈ a.levels f ns fillers t below, level.Opens := by
  cases a with
  | take g field =>
      have hg : g.Opens (bracesAll ns.reverse ++ t.kind.brace?.toList) := h
      refine List.forall_mem_cons.2 ⟨?_, hbelow⟩
      simpa [Level.Opens, hfillers] using hg
  | fill e g =>
      have hg : g.Opens (bracesAll ns.reverse ++ t.kind.brace?.toList) := h
      refine List.forall_mem_cons.2 ⟨?_, hbelow⟩
      simpa [Level.Opens, hfillers] using hg
  | descend g child =>
      obtain ⟨hchild, hg⟩ := h
      refine List.forall_mem_cons.2 ⟨by simpa [Level.Opens] using hchild, ?_⟩
      refine List.forall_mem_cons.2 ⟨?_, hbelow⟩
      simpa [Level.Opens, hfillers] using hg
  | finish field =>
      refine opens_attachTo ?_ hbelow
      simpa [hfillers] using h.1
  | stop fault =>
      obtain ⟨w, hw⟩ := h
      exact opens_attachTo ⟨w, by simpa using hw⟩ hbelow
  | lack fault =>
      obtain ⟨w, hw⟩ := h
      exact opens_attachTo ⟨w, by simpa using hw⟩ hbelow
  | recover found recovery header =>
      have hf : f.Opens (bracesAll ns.reverse) := h
      refine List.forall_mem_cons.2 ⟨fun _ => .nil, ?_⟩
      refine List.forall_mem_cons.2 ⟨?_, hbelow⟩
      simpa [Level.Opens, hfillers] using hf
  | abort fault => cases he
  | abandon fault g => cases he

/-- A node that an action closes has its own braces in a pair, if a brace closes it. -/
theorem Action.paired_of_closed {n : Node} (hflags : a.Flags f) (hns : ∀ m ∈ ns, m.All Paired)
    (hms : ∀ m ∈ fillers, m.All Paired) (hfillers : bracesAll fillers.reverse = [])
    (hfinish : ∀ field, a = .finish field → f.kind = .identifierList ∨ f.kind = .block →
      ∃ w : DyckWord, bracesAll ns.reverse ++ t.kind.brace?.toList = w.nest.toList)
    (hn : a.closed f ns fillers t = some n) : n.All Paired := by
  have hbranch : ∀ (fault : Option Fault) (ms : List Node), (∀ m ∈ ms, m.All Paired) →
      (f.kind = .identifierList ∨ f.kind = .block → (∀ c, fault ≠ some (.unterminated c)) →
        ∃ w : DyckWord, bracesAll ms.reverse = w.nest.toList) →
      some (Node.branch f.kind f.field fault ms.reverse) = some n → n.All Paired := by
    rintro fault ms hms hpair heq
    obtain rfl := Option.some.inj heq
    refine all_branch.2 ⟨?_, fun m hm => hms m (List.mem_reverse.1 hm)⟩
    intro hk hfault
    rw [braces_branch]
    exact hpair (hk.imp Kind.node.inj Kind.node.inj) hfault
  cases a with
  | finish field =>
      refine hbranch none _ ?_ ?_ hn
      · exact List.forall_mem_cons.2 ⟨all_paired_ofToken field t,
          List.forall_mem_append.2 ⟨hms, hns⟩⟩
      · intro hk _
        simpa [hfillers] using hfinish field rfl hk
  | abort fault =>
      refine hbranch (some fault) ns hns ?_ hn
      intro hk hfault
      obtain ⟨c, rfl⟩ := hflags hk
      exact absurd rfl (hfault c)
  | stop fault =>
      refine hbranch (some fault) ns hns ?_ hn
      intro hk hfault
      obtain ⟨c, rfl⟩ := hflags hk
      exact absurd rfl (hfault c)
  | lack fault =>
      refine hbranch none _ (List.forall_mem_cons.2 ⟨all_paired_marker fault, hns⟩) ?_ hn
      intro hk
      exact absurd hk hflags
  | take g field => cases hn
  | fill e g => cases hn
  | descend g child => cases hn
  | abandon fault g => cases hn
  | recover found recovery header => cases hn

end Levels

/-! ## Runs -/

/-- What is finished has its braces in pairs, and what is open can still have. -/
structure InPairs (s : State) : Prop where
  segments : ∀ g ∈ s.segments, g.node.All Paired ∧
    (g.isCompleteStatement = true → ∃ w : DyckWord, w.toList = g.node.braces)
  children : ∀ level ∈ s.stack, ∀ n ∈ level.children, n.All Paired
  opens : s.early = false → ∀ level ∈ s.stack, level.Opens

theorem inPairs_init (pos : Nat) (text : Text) : InPairs (.init pos text) where
  segments := by simp [State.init]
  children := by simp [State.init]
  opens := by simp [State.init]

/-- No list or block is closed by its brace once something has been closed early. -/
theorem Tracked.early_of_finish {s : State} {f : Frame} {ns : List Node} {below : List Level}
    {field : Option Field} (h : Tracked s) (hs : s.stack = ⟨f, ns⟩ :: below)
    (hk : f.kind = .identifierList ∨ f.kind = .block) (ha : s.decision f = .finish field) :
    s.early = false := by
  cases he : s.early with
  | false => rfl
  | true =>
      cases h.halted he (by simp [hs]) with
      | stretch frames =>
          rw [frames_of_stack_cons hs] at frames
          obtain ⟨rfl, -⟩ := List.cons.inj frames
          rcases hk with hk | hk <;> cases hk
      | ahead halts =>
          -- in front of a keyword a decision takes no token
          rw [halts.decision f] at ha
          have htakes := f.takes_action_keyword
          rw [ha] at htakes
          cases htakes
      | group halts stack =>
          rw [hs] at stack
          cases stack
          rcases hk with hk | hk <;> cases hk

namespace InPairs

variable {s : State} {f : Frame} {ns : List Node} {below : List Level}

theorem all_fillers (s : State) : ∀ m ∈ s.fillers, m.All Paired := by
  intro m hm
  obtain ⟨t, -, rfl⟩ := List.mem_map.1 hm
  exact all_paired_ofToken none t

theorem braces_fillers (hsound : Sound s) : bracesAll s.fillers.reverse = [] := by
  refine bracesAll_eq_nil fun m hm => ?_
  obtain ⟨t, ht, rfl⟩ := List.mem_map.1 (List.mem_reverse.1 hm)
  rw [braces_ofToken, TokenKind.brace?_of_isFiller (hsound.pending t ht)]
  rfl

theorem segments_flush (h : InPairs s) (hs : s.stack = []) :
    ∀ g ∈ s.flush.segments, g.node.All Paired ∧
      (g.isCompleteStatement = true → ∃ w : DyckWord, w.toList = g.node.braces) := by
  rw [State.segments_flush_of_stack_nil hs]
  intro g hg
  rcases List.mem_append.1 hg with hg | hg
  · obtain ⟨t, -, rfl⟩ := List.mem_map.1 hg
    exact ⟨all_paired_ofToken none t, nofun⟩
  · exact h.segments g hg

/-- The kind of the next token says which brace it is. -/
theorem exists_brace (look : Lookahead) : ∃ t : Token,
    brace (look.map (·.1.kind)) = t.kind.brace?.toList ∧
      (look.isSome = true → ∃ rest, look = some (t, rest)) := by
  rcases look with - | ⟨t, rest⟩
  · exact ⟨⟨.identifier, []⟩, rfl, by simp⟩
  · exact ⟨t, rfl, fun _ => ⟨rest, rfl⟩⟩

/-- What the innermost open node decides keeps braces in pairs. -/
theorem act (h : InPairs s) (ht : Tracked s) (hs : s.stack = ⟨f, ns⟩ :: below) :
    InPairs ((s.decision f).run s (lex s.mode s.rest)) := by
  obtain ⟨t, hbrace, htoken⟩ := exists_brace (lex s.mode s.rest)
  have hl : (s.decision f).takes = true → ∃ rest, lex s.mode s.rest = some (t, rest) :=
    fun htakes => htoken (isSome_lex_of_takes htakes)
  have hfillers := braces_fillers ht.sound
  have hstack := Action.stack_run hs hl
  have hchildren := h.children
  have hopens := h.opens
  rw [hs] at hchildren hopens
  obtain ⟨hns, hbelow⟩ := List.forall_mem_cons.1 hchildren
  have hpairs : s.early = false → (s.decision f).early false = false →
      (s.decision f).Pairs f (bracesAll ns.reverse) t.kind.brace?.toList := by
    intro hearly he
    rw [← hbrace]
    exact Frame.Opens.pairs_action (List.forall_mem_cons.1 (hopens hearly)).1 he
  have hclosed : ∀ n, (s.decision f).closed f ns s.fillers t = some n → n.All Paired := by
    intro n hn
    refine Action.paired_of_closed (f.flags_action _) hns (all_fillers s) hfillers ?_ hn
    intro field ha hk
    have hfinish := hpairs (ht.early_of_finish hs hk ha) (congrArg (Action.early · false) ha)
    rw [State.decision, ha] at hfinish
    exact hfinish.2 hk
  refine ⟨?_, ?_, ?_⟩
  · intro g hg
    rcases Action.mem_segments_run hs hl hg with hg | ⟨rfl, hn⟩
    · exact h.segments g hg
    · refine ⟨hclosed _ hn, fun hcomplete => ?_⟩
      have hst : g.isStatement = true := (Bool.and_eq_true_iff.1 hcomplete).2
      rw [Segment.isStatement, Frame.isStatement_of_closed hn] at hst
      cases hst
  · rw [hstack]
    exact Action.forall_children_levels hns (all_fillers s) hbelow
      (fun field => all_paired_ofToken field t) all_paired_marker hclosed
  · rw [hstack, Action.early_run]
    intro he
    obtain ⟨hearly, he⟩ := Action.early_eq_false_iff.1 he
    exact (hpairs hearly he).levels he hfillers (List.forall_mem_cons.1 (hopens hearly)).2

/-- A settled statement that nothing has closed early has no brace left open. -/
theorem settle (h : InPairs s) (hw : WellFormed s) (hset : s.isSettled = true) :
    InPairs (s.close none) := by
  obtain ⟨command, items, ns, hs, -⟩ := hw.stack_of_isSettled hset
  have hlevel : (⟨.statement command items none, ns⟩ : Level) ∈ s.stack := by simp [hs]
  have hstack : (s.close none).stack = [] := s.stack_close none hs
  refine ⟨?_, by simp [hstack], by simp [hstack]⟩
  rw [s.segments_close_singleton none hs]
  refine List.forall_mem_cons.2 ⟨⟨?_, ?_⟩, h.segments⟩
  · refine all_branch.2 ⟨?_, fun n hn => ?_⟩
    · rintro (hk | hk) <;> cases hk
    · exact h.children _ hlevel n (List.mem_reverse.1 hn)
  · intro hcomplete
    have hearly : s.early = false := by
      simpa using (Bool.and_eq_true_iff.1 hcomplete).1
    have hopens : Unclosed 0 (bracesAll ns.reverse) := h.opens hearly _ hlevel
    rw [braces_branch]
    exact Unclosed.zero_iff.1 hopens

theorem start (h : InPairs s) (hs : s.stack = []) (command : Command) {t : Token} (rest : Text)
    (hk : t.kind = .keyword) : InPairs (s.start command t rest) := by
  have hstack := s.stack_start command t rest hs
  refine ⟨?_, ?_, fun _ => ?_⟩
  · rw [State.segments_start]
    exact h.segments_flush hs
  · rw [hstack]
    exact List.forall_mem_singleton.2 (List.forall_mem_singleton.2 (all_paired_ofToken none t))
  · rw [hstack]
    refine List.forall_mem_singleton.2 ?_
    have hnil : Unclosed 0 (bracesAll [.ofToken none t]) := by
      rw [bracesAll_cons, braces_ofToken, hk]
      exact .nil
    exact hnil

theorem stray (h : InPairs s) (hs : s.stack = []) (t : Token) :
    InPairs (s.atRest.recover t ⟨.normal, false, none⟩) := by
  have hstack := s.stack_enter_atRest (.unexpected t.kind ⟨.normal, false, none⟩ 0) hs
  refine ⟨?_, ?_, fun _ => ?_⟩
  · rw [State.recover, s.segments_enter_atRest]
    exact h.segments_flush hs
  · rw [State.recover, hstack]
    simp
  · rw [State.recover, hstack]
    refine List.forall_mem_singleton.2 fun hbraced => ?_
    cases hbraced

/-- Every move keeps braces in pairs. -/
theorem moves {s' : State} (h : InPairs s) (ht : Tracked s) (hm : Moves s s') : InPairs s' := by
  cases hm with
  | settle settled => exact h.settle ht.wellFormed settled
  | skip open_ lexed filler => exact ⟨h.segments, h.children, h.opens⟩
  | act open_ stack solid => exact h.act ht stack
  | start stack lexed keyword named => exact h.start stack _ _ keyword
  | stray stack lexed filler keyword => exact h.stray stack _

end InPairs

/-- The segments of a run have their braces in pairs. -/
theorem Ends.paired {resume : Nat → Option Nat} {s : State} {r : List Segment × Option Nat}
    (h : Ends resume s r) (ht : Tracked s) (hp : InPairs s) :
    ∀ g ∈ r.1, g.node.All Paired ∧
      (g.isCompleteStatement = true → ∃ w : DyckWord, w.toList = g.node.braces) := by
  induction h with
  | done hd =>
      obtain ⟨hs, rfl, -⟩ := step_eq_done hd
      intro g hg
      exact hp.segments_flush hs g (List.mem_reverse.1 hg)
  | next hn _ ih =>
      have hm := moves_of_step hn
      exact ih (ht.moves hm) (hp.moves ht hm)

end Machine

/-- The braces around a list or block, unless it is unterminated. -/
theorem Node.Schema.exists_braced {n : Node} (h : n.Schema)
    (hk : n.kind = .node .identifierList ∨ n.kind = .node .block)
    (hfault : ∀ c, n.fault ≠ some (.unterminated c)) :
    ∃ l ns r, n.children = l :: (ns ++ [r]) ∧ l.kind = .token .lbrace ∧
      r.kind = .token .rbrace := by
  have hbraced : ∀ {p : Node → Prop} {c : Construct} {e : Option Fault} {ms : List Node},
      Braced p c e ms → (∀ c, e ≠ some (.unterminated c)) →
        ∃ l ns r, ms = l :: (ns ++ [r]) ∧ l.kind = .token .lbrace ∧ r.kind = .token .rbrace := by
    intro p c e ms hms he
    cases hms with
    | closed lbrace inside rbrace => exact ⟨_, _, _, rfl, lbrace.1, rbrace.1⟩
    | unterminated => exact absurd rfl (he c)
  cases h with
  | identifierList field children => exact hbraced children hfault
  | block field children => exact hbraced children hfault
  | _ => rcases hk with hk | hk <;> cases hk

namespace Tree

theorem paired_segments (t : Text) : ∀ g ∈ (parse t).segments, g.node.All Paired ∧
    (g.isCompleteStatement = true → ∃ w : DyckWord, w.toList = g.node.braces) :=
  (ends_parse t).paired (Machine.Tracked.init 0 t) (Machine.inPairs_init 0 t)

theorem paired_of_mem_preorder {t : Text} {l : Located} (hl : l ∈ (parse t).root.preorder) :
    l.node.Paired := by
  refine All.of_mem_preorder 0 _ (all_branch.2 ⟨?_, ?_⟩) l hl
  · rintro (hk | hk) <;> cases hk
  · rintro n hn
    obtain ⟨g, hg, rfl⟩ := List.mem_map.1 hn
    exact (paired_segments t g hg).1

/-- In every parse a list or block that is not unterminated has a brace as its first and as its last
child, and these match each other in the sequence of all braces under it. All braces of a complete
statement are in pairs. -/
theorem braces_parse (t : Text) :
    (∀ l ∈ (parse t).root.preorder, l.kind = .node .identifierList ∨ l.kind = .node .block →
      (∀ c, l.fault ≠ some (.unterminated c)) →
        (∃ first ∈ l.children.head?, first.kind = .token .lbrace) ∧
        (∃ last ∈ l.children.getLast?, last.kind = .token .rbrace) ∧
        ∃ w : DyckWord, l.node.braces = w.nest.toList) ∧
    ∀ g ∈ (parse t).segments, g.isCompleteStatement = true →
      ∃ w : DyckWord, g.node.braces = w.toList := by
  refine ⟨?_, ?_⟩
  · intro l hl hk hfault
    obtain ⟨n, ns, m, hchildren, hn, hm⟩ :=
      (schema_of_mem_preorder hl).exists_braced hk hfault
    rw [← map_node_children 0 _ l hl] at hchildren
    obtain ⟨first, rest, hcons, rfl, hrest⟩ := List.map_eq_cons_iff.1 hchildren
    obtain ⟨inside, lasts, rfl, -, hlasts⟩ := List.map_eq_append_iff.1 hrest
    obtain ⟨last, rfl, rfl⟩ := List.map_eq_singleton_iff.1 hlasts
    refine ⟨⟨first, by simp [hcons], hn⟩, ⟨last, ?_, hm⟩, paired_of_mem_preorder hl hk hfault⟩
    rw [hcons, ← List.cons_append, List.getLast?_concat]
    rfl
  · intro g hg hcomplete
    obtain ⟨w, hw⟩ := (paired_segments t g hg).2 hcomplete
    exact ⟨w, hw.symm⟩

/-- A list with braces in a stretch of unexpected tokens, in a complete statement. -/
theorem braces_parse_stray_braces :
    (∃ l ∈ (parse "ENTRY \x7ba # \x7bb\x7d c\x7d \x7b\x7d \x7b\x7d".toList).root.preorder,
      l.node.braces = [U, U, D, D] ∧ ∃ w : DyckWord, l.node.braces = w.nest.toList) ∧
    ∃ g ∈ (parse "ENTRY \x7ba # \x7bb\x7d c\x7d \x7b\x7d \x7b\x7d".toList).segments,
      g.node.braces = [U, U, D, D, U, D, U, D] ∧ ∃ w : DyckWord, g.node.braces = w.toList := by
  have hlist :
      ∃ l ∈ (parse "ENTRY \x7ba # \x7bb\x7d c\x7d \x7b\x7d \x7b\x7d".toList).root.preorder,
        l.kind = .node .identifierList ∧ l.fault = none ∧ l.node.braces = [U, U, D, D] := by
    decide +kernel
  have hstatement :
      ∃ g ∈ (parse "ENTRY \x7ba # \x7bb\x7d c\x7d \x7b\x7d \x7b\x7d".toList).segments,
        g.isCompleteStatement = true ∧ g.node.braces = [U, U, D, D, U, D, U, D] := by
    decide +kernel
  obtain ⟨l, hl, hk, hfault, hbraces⟩ := hlist
  obtain ⟨g, hg, hcomplete, hall⟩ := hstatement
  obtain ⟨-, -, hpaired⟩ := (braces_parse _).1 l hl (.inl hk) (by simp [hfault])
  exact ⟨⟨l, hl, hbraces, hpaired⟩, g, hg, hall, (braces_parse _).2 g hg hcomplete⟩

end Tree

end BibStyle
