import BibStyle.Proofs.Action
import BibStyle.Proofs.Schema

/-!
# Decisions keep to the schema

An open node has some of its children. `Frame.Fits` says which they may be, so that the node can
still come to follow the schema. `Action.Keeps` says for each action what that asks of the children
it adds, and `Frame.Fits.keeps_action` that every decision meets it: one lemma for each frame, with
a case for each kind of token that makes a difference there.
-/

namespace BibStyle

open Node

namespace Machine

/-! ## The children of an open node -/

/-- The children of a node in braces that is still open. -/
def Opened (p : Node → Prop) (ns : List Node) : Prop :=
  ∃ l ms, ns = l :: ms ∧ l.IsToken .lbrace ∧ ∀ m ∈ ms, p m

namespace Opened

variable {p : Node → Prop} {ns : List Node} {n : Node}

theorem append (h : Opened p ns) (hn : p n) : Opened p (ns ++ [n]) := by
  obtain ⟨l, ms, rfl, hl, hms⟩ := h
  exact ⟨l, ms ++ [n], rfl, hl, List.forall_mem_append.2 ⟨hms, List.forall_mem_singleton.2 hn⟩⟩

theorem closed (h : Opened p ns) (c : Construct) (hn : n.IsToken .rbrace) :
    Braced p c none (ns ++ [n]) := by
  obtain ⟨l, ms, rfl, hl, hms⟩ := h
  exact .closed hl hms hn

theorem unterminated (h : Opened p ns) (c : Construct) :
    Braced p c (some (.unterminated c)) ns := by
  obtain ⟨l, ms, rfl, hl, hms⟩ := h
  exact .unterminated hl hms

end Opened

/-- The children so far of an open node with the frame. -/
def Frame.Fits : Frame → List Node → Prop
  | .statement command items none, ns => ∃ passed, passed ++ items = command.items ∧
      Begins command (passed.map Item.field) ns
  | .statement command items (some slot), ns => ∃ passed,
      passed ++ .group slot.field slot.cls :: items = command.items ∧
        Begins command (passed.map Item.field ++ if slot.filled then [slot.field] else []) ns
  | .list f, ns => f.holds (.node .identifierList) = true ∧ Opened InList ns
  | .block f, ns => f.holds (.node .block) = true ∧ Opened InBlock ns
  | .ref, ns => ∃ q ms, ns = q :: ms ∧ q.IsToken .quote ∧ ∀ m ∈ ms, m.IsFiller
  | .unexpected found _ _, ns => found.isFiller = false ∧ (∀ n ∈ ns, n.InStretch) ∧
      ∀ n ∈ ns.head?, n.IsToken found

/-- A node that the machine closes with the frame, whatever is below it. -/
def Frame.Makes (f : Frame) (n : Node) : Prop := n.kind = .node f.kind ∧ n.field = f.field

theorem inStretch_of_isFiller {n : Node} (h : n.IsFiller) : n.InStretch := by
  obtain ⟨hk, hf⟩ := h
  cases n with
  | leaf k f t =>
      refine ⟨k, ⟨rfl, hf⟩, ?_⟩
      rintro rfl
      cases hk
  | branch k f e ns => cases hk

/-- Fillers go into any node, except in front of the tokens that are unexpected. -/
theorem Frame.Fits.append_filler {f : Frame} {ns : List Node} {n : Node} (h : f.Fits ns)
    (hne : ns ≠ []) (hn : n.IsFiller) : f.Fits (ns ++ [n]) := by
  have hstatement : n.InStatement := .filler hn
  cases f with
  | statement command items slot =>
      cases slot with
      | none =>
          obtain ⟨passed, hitems, hbegins⟩ := h
          exact ⟨passed, hitems, hbegins.append hstatement hn.2⟩
      | some slot =>
          obtain ⟨passed, hitems, hbegins⟩ := h
          exact ⟨passed, hitems, hbegins.append hstatement hn.2⟩
  | list f => exact ⟨h.1, h.2.append (.filler hn)⟩
  | block f => exact ⟨h.1, h.2.append (.filler hn)⟩
  | ref =>
      obtain ⟨q, ms, rfl, hq, hms⟩ := h
      exact ⟨q, ms ++ [n], rfl, hq, List.forall_mem_append.2 ⟨hms, List.forall_mem_singleton.2 hn⟩⟩
  | unexpected found recovery depth =>
      refine ⟨h.1, List.forall_mem_append.2 ⟨h.2.1, ?_⟩, ?_⟩
      · exact List.forall_mem_singleton.2 (inStretch_of_isFiller hn)
      · obtain ⟨m, ms, rfl⟩ := List.exists_cons_of_ne_nil hne
        exact h.2.2

/-! ## Decisions keep to the schema -/

/-- What an action must leave so that a node with the frame, and the children `ns` so far, follows
the schema in the end. The token is the one the action takes, if it takes one. -/
def Action.Keeps (f : Frame) (ns : List Node) (t : Token) : Action → Prop
  | .take g field => (Node.ofToken field t).Schema ∧ g.Fits (ns ++ [.ofToken field t]) ∧
      g.kind = f.kind ∧ g.field = f.field
  | .fill e g => g.Fits (ns ++ [.marker (.missing e)] ++ [.ofToken none t]) ∧
      g.kind = f.kind ∧ g.field = f.field
  | .descend g child => child.Fits [.ofToken none t] ∧ (∀ n, child.Makes n → g.Fits (ns ++ [n])) ∧
      g.kind = f.kind ∧ g.field = f.field
  | .finish field => (Node.ofToken field t).Schema ∧
      Schema (.branch f.kind f.field none (ns ++ [.ofToken field t]))
  | .abort fault | .stop fault => Schema (.branch f.kind f.field (some fault) ns)
  | .lack fault => Schema (.marker fault) ∧
      Schema (.branch f.kind f.field none (ns ++ [.marker fault]))
  | .abandon fault g => Schema (.marker fault) ∧ g.Fits (ns ++ [.marker fault]) ∧
      g.kind = f.kind ∧ g.field = f.field
  | .recover .. => ∀ n, n.IsError → f.Fits (ns ++ [n])

section Decisions

variable {ns : List Node} {t : Token} {kind : Option TokenKind}

theorem schema_ofToken_none (t : Token) : (Node.ofToken none t).Schema := .leaf (by simp)

theorem inStatement_marker (fault : Fault) : (Node.marker fault).InStatement :=
  .error ⟨rfl, rfl⟩

theorem keeps_itemAction {command : Command} {item : Item} {items : List Item}
    (h : (Frame.statement command (item :: items) none).Fits ns) (hk : ∀ k ∈ kind, t.kind = k) :
    (Frame.itemAction command (item :: items) kind).Keeps
      (.statement command (item :: items) none) ns t := by
  obtain ⟨passed, hitems, hbegins⟩ := h
  have hmem : item ∈ command.items := by simp [← hitems]
  have hnext : ∀ n : Node, item.fills n.kind = true → n.field = some item.field →
      (Frame.statement command items none).Fits (ns ++ [n]) := by
    intro n hfills hfield
    refine ⟨passed ++ [item], by simpa using hitems, ?_⟩
    rw [List.map_append]
    exact hbegins.append_field ⟨hfield, Item.holds_of_fills hmem hfills⟩
  have hmarker : ∀ fault, (Frame.statement command (item :: items) none).Fits
      (ns ++ [.marker fault]) :=
    fun fault => ⟨passed, hitems, hbegins.append (inStatement_marker fault) rfl⟩
  have herror : ∀ n : Node, n.IsError → (Frame.statement command (item :: items) none).Fits
      (ns ++ [n]) :=
    fun n hn => ⟨passed, hitems, hbegins.append (.error hn) hn.2⟩
  rcases kind with - | k
  · cases item <;> exact ⟨.missing _, hmarker _, rfl, rfl⟩
  · by_cases hl : k = .lbrace
    · subst hl
      have hlbrace : (Node.ofToken none t).IsToken .lbrace := ⟨congrArg Kind.token (hk _ rfl), rfl⟩
      cases item with
      | list f =>
          refine ⟨⟨Item.holds_of_fills hmem rfl, _, [], rfl, hlbrace, by simp⟩, ?_, rfl, rfl⟩
          rintro n ⟨hkind, hfield⟩
          exact hnext n (by rw [hkind]; rfl) hfield
      | block f =>
          refine ⟨⟨Item.holds_of_fills hmem rfl, _, [], rfl, hlbrace, by simp⟩, ?_, rfl, rfl⟩
          rintro n ⟨hkind, hfield⟩
          exact hnext n (by rw [hkind]; rfl) hfield
      | group f cls =>
          refine ⟨schema_ofToken_none t, ⟨passed, hitems, ?_⟩, rfl, rfl⟩
          simpa using hbegins.append (.lbrace hlbrace) rfl
    · by_cases hkey : k = .keyword
      · subst hkey
        cases item <;> exact ⟨.missing _, hmarker _, rfl, rfl⟩
      · rw [Frame.itemAction_of_ne command (item :: items) hl hkey]
        exact herror

theorem keeps_slotAction {command : Command} {items : List Item} {slot : Slot}
    (h : (Frame.statement command items (some slot)).Fits ns) (hk : ∀ k ∈ kind, t.kind = k) :
    (Frame.slotAction command items slot kind).Keeps
      (.statement command items (some slot)) ns t := by
  obtain ⟨f, cls, filled⟩ := slot
  obtain ⟨passed, hitems, hbegins⟩ := h
  simp only at hitems hbegins
  have hmem : Item.group f cls ∈ command.items := by simp [← hitems]
  have hitems' : (passed ++ [Item.group f cls]) ++ items = command.items := by simpa using hitems
  have hfields : (passed.map Item.field ++ if filled then [f] else []).Sublist
      ((passed ++ [Item.group f cls]).map Item.field) := by
    rw [List.map_append]
    refine List.Sublist.append_left ?_ _
    cases filled <;> simp [Item.field]
  -- with a marker in the group, it does not matter that its field is empty
  have hleave : ∀ fault, (Frame.statement command items none).Fits (ns ++ [.marker fault]) := by
    intro fault
    refine ⟨passed ++ [.group f cls], hitems', ?_⟩
    refine (hbegins.append (inStatement_marker fault) rfl).of_flawed hfields ?_
    simp [flawedAll_eq_any]
  rcases kind with - | k
  · exact ⟨.openGroup, hleave _, rfl, rfl⟩
  · by_cases hr : k = .rbrace
    · subst hr
      have hrbrace : (Node.ofToken none t).InStatement :=
        .rbrace ⟨congrArg Kind.token (hk _ rfl), rfl⟩
      cases filled with
      | true =>
          refine ⟨schema_ofToken_none t, ⟨passed ++ [.group f cls], hitems', ?_⟩, rfl, rfl⟩
          simpa [Item.field] using hbegins.append hrbrace rfl
      | false =>
          obtain ⟨passed', hpassed', hbegins'⟩ := hleave (.missing cls.expected)
          exact ⟨⟨passed', hpassed', hbegins'.append hrbrace rfl⟩, rfl, rfl⟩
    · by_cases hkey : k = .keyword
      · subst hkey
        exact ⟨.openGroup, hleave _, rfl, rfl⟩
      · rw [Frame.slotAction_of_ne command items ⟨f, cls, filled⟩ hr hkey]
        split
        · rename_i ha
          obtain ⟨hfilled, haccepts⟩ := Bool.and_eq_true_iff.1 ha
          obtain rfl : filled = false := by simpa using hfilled
          have hholds : f.holds (.token t.kind) = true :=
            Item.holds_of_fills hmem (hk k rfl ▸ haccepts)
          refine ⟨.leaf (by simpa using hholds), ⟨passed, hitems, ?_⟩, rfl, rfl⟩
          simpa using hbegins.append_field (n := .ofToken (some f) t) ⟨rfl, hholds⟩
        · intro n hn
          exact ⟨passed, hitems, hbegins.append (.error hn) hn.2⟩

theorem keeps_listAction {f : Field} (h : (Frame.list f).Fits ns) (hk : ∀ k ∈ kind, t.kind = k) :
    (Frame.listAction f kind).Keeps (.list f) ns t := by
  obtain ⟨hfield, hopened⟩ := h
  have habort : Schema (.branch .identifierList (some f) (some (.unterminated .identifierList))
      ns) := .identifierList hfield (hopened.unterminated _)
  rcases kind with - | k
  · exact habort
  · have htoken : (Node.ofToken none t).IsToken k := ⟨congrArg Kind.token (hk k rfl), rfl⟩
    cases k with
    | rbrace => exact ⟨schema_ofToken_none t, .identifierList hfield (hopened.closed _ htoken)⟩
    | identifier =>
        exact ⟨schema_ofToken_none t, ⟨hfield, hopened.append (.identifier htoken)⟩, rfl, rfl⟩
    | keyword => exact habort
    | _ => exact fun n hn => ⟨hfield, hopened.append (.error hn)⟩

theorem keeps_blockAction {f : Field} (h : (Frame.block f).Fits ns) (hk : ∀ k ∈ kind, t.kind = k)
    (hp : kind ≠ some .pattern) (hf : ∀ k ∈ kind, k.isFiller = false) :
    (Frame.blockAction f kind).Keeps (.block f) ns t := by
  obtain ⟨hfield, hopened⟩ := h
  have habort : Schema (.branch .block (some f) (some (.unterminated .block)) ns) :=
    .block hfield (hopened.unterminated _)
  have hinner : ∀ n : Node, n.field = some .term → Field.term.holds n.kind = true →
      (Frame.block f).Fits (ns ++ [n]) :=
    fun n hterm hholds => ⟨hfield, hopened.append (.term ⟨hterm, hholds⟩)⟩
  rcases kind with - | k
  · exact habort
  · have htoken : (Node.ofToken none t).IsToken k := ⟨congrArg Kind.token (hk k rfl), rfl⟩
    have hterm : k.isTerm = true → (Frame.blockAction f (some k)).Keeps (.block f) ns t := by
      intro hterm
      have haction : Frame.blockAction f (some k) = .take (.block f) (some .term) := by
        cases k <;> first | rfl | cases hterm
      have hholds : Field.term.holds (.token t.kind) = true := by
        rw [hk k rfl]
        exact hterm
      rw [haction]
      exact ⟨.leaf (by simpa using hholds), hinner _ rfl hholds, rfl, rfl⟩
    cases k with
    | rbrace => exact ⟨schema_ofToken_none t, .block hfield (hopened.closed _ htoken)⟩
    | lbrace =>
        refine ⟨⟨rfl, _, [], rfl, htoken, by simp⟩, ?_, rfl, rfl⟩
        rintro n ⟨hkind, hfield⟩
        exact hinner n hfield (by rw [hkind]; rfl)
    | quote =>
        refine ⟨⟨_, [], rfl, htoken, by simp⟩, ?_, rfl, rfl⟩
        rintro n ⟨hkind, hfield⟩
        exact hinner n hfield (by rw [hkind]; rfl)
    | keyword => exact habort
    | pattern => exact absurd rfl hp
    | identifier => exact hterm rfl
    | builtin => exact hterm rfl
    | integer => exact hterm rfl
    | string => exact hterm rfl
    | operator => exact hterm rfl
    | _ => exact absurd (hf _ rfl) (by decide)

theorem keeps_refAction (h : Frame.ref.Fits ns) (hk : ∀ k ∈ kind, t.kind = k) :
    (Frame.refAction kind).Keeps .ref ns t := by
  obtain ⟨q, ms, rfl, hq, hms⟩ := h
  have hlack : (Action.lack (.missing .symbol)).Keeps .ref (q :: ms) t :=
    ⟨.missing _, .ref hq hms (.inr rfl)⟩
  rcases kind with - | k
  · exact hlack
  · by_cases hs : k.isSymbol = true
    · have hholds : Field.symbol.holds (.token t.kind) = true := by
        rw [hk k rfl]
        exact hs
      simp only [Frame.refAction, if_pos hs]
      exact ⟨.leaf (by simpa using hholds), .ref hq hms (.inl ⟨rfl, hholds⟩)⟩
    · simp only [Frame.refAction, if_neg hs]
      exact hlack

theorem keeps_unexpectedAction {found : TokenKind} {recovery : Recovery} {depth : Nat}
    (h : (Frame.unexpected found recovery depth).Fits ns) (hk : ∀ k ∈ kind, t.kind = k)
    (hfresh : ns = [] → t.kind = found ∧
      (Frame.unexpectedAction found recovery depth kind).takes = true) :
    (Frame.unexpectedAction found recovery depth kind).Keeps
      (.unexpected found recovery depth) ns t := by
  obtain ⟨hsolid, htokens, hfirst⟩ := h
  have hclose : (Frame.unexpectedAction found recovery depth kind).takes = false →
      Schema (.branch .error none (some (.unexpected (.token found))) ns) := by
    intro ht
    rcases ns with - | ⟨n, ns⟩
    · rw [(hfresh rfl).2] at ht
      cases ht
    · exact .unexpected (hfirst n rfl) hsolid htokens
  rcases Frame.unexpectedAction_cases found recovery depth kind with ⟨ha, -⟩ |
    ⟨k, rfl, hkey, ⟨-, ha⟩ | ⟨-, ha⟩⟩ <;> rw [ha] at hclose hfresh ⊢
  · exact hclose rfl
  · exact hclose rfl
  · have htoken : (Node.ofToken none t).IsToken k := ⟨congrArg Kind.token (hk k rfl), rfl⟩
    refine ⟨schema_ofToken_none t, ⟨hsolid, List.forall_mem_append.2 ⟨htokens, ?_⟩, ?_⟩, rfl, rfl⟩
    · exact List.forall_mem_singleton.2 ⟨k, htoken, hkey⟩
    · rcases ns with - | ⟨n, ns⟩
      · simp only [List.nil_append, List.head?_cons, Option.mem_def, Option.some.injEq,
          forall_eq']
        rw [← (hfresh rfl).1, hk k rfl]
        exact htoken
      · exact hfirst

/-- Whatever comes next, an open node can still be closed in accord with the schema. -/
theorem Frame.Fits.keeps_action {f : Frame} (h : f.Fits ns) (hk : ∀ k ∈ kind, t.kind = k)
    (hopen : ∀ command items, f = .statement command items none → items ≠ [])
    (hp : f.mode = .normal → kind ≠ some .pattern) (hf : ∀ k ∈ kind, k.isFiller = false)
    (hfresh : ∀ found recovery depth, f = .unexpected found recovery depth → ns = [] →
      t.kind = found ∧ (f.action kind).takes = true) : (f.action kind).Keeps f ns t := by
  cases f with
  | statement command items slot =>
      cases slot with
      | none =>
          cases items with
          | nil => exact absurd rfl (hopen command [] rfl)
          | cons item items => exact keeps_itemAction h hk
      | some slot => exact keeps_slotAction h hk
  | list f => exact keeps_listAction h hk
  | block f => exact keeps_blockAction h hk (hp rfl) hf
  | ref => exact keeps_refAction h hk
  | unexpected found recovery depth =>
      exact keeps_unexpectedAction h hk (hfresh found recovery depth rfl)

end Decisions

end Machine

end BibStyle
