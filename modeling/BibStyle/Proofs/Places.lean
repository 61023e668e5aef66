import BibStyle.Located
import BibStyle.Proofs.Text

/-!
# Where the nodes of a tree stand

A node placed at byte `pos` covers as many bytes as it holds, its leaves stand one after the other,
and its faults are listed without looking into parts that have none. Each of these is a function of
the node and the place, defined here without the placed tree, and each moves with the place.
-/

namespace BibStyle

namespace Node

mutual

/-- The bytes a placed node covers. -/
theorem span_locate (pos : Nat) : (n : Node) → (n.locate pos).span = ⟨pos, pos + n.size⟩
  | .leaf k f t => by simp [locate]
  | .branch k f e cs => by simp [locate, stop_locateAll pos cs]

theorem stop_locateAll (pos : Nat) : (ns : List Node) →
    ((locateAll pos ns).getLast?.map (·.span.stop)).getD pos = pos + sizeAll ns
  | [] => by simp [locateAll, sizeAll]
  | n :: ns => by
      have hn := span_locate pos n
      have hns := stop_locateAll (pos + n.size) ns
      simp only [locateAll, hn, sizeAll]
      rw [List.getLast?_cons]
      cases hl : (locateAll (pos + n.size) ns).getLast? with
      | none =>
          rw [hl] at hns
          simp only [Option.map_none, Option.getD_none, Option.getD_some, Option.map_some,
            hn] at hns ⊢
          omega
      | some l =>
          rw [hl] at hns
          simp only [Option.map_some, Option.getD_some] at hns ⊢
          omega

end

@[simp] theorem sizeAll_nil : sizeAll [] = 0 := by simp [sizeAll]

@[simp] theorem sizeAll_cons (n : Node) (ns : List Node) :
    sizeAll (n :: ns) = n.size + sizeAll ns := by
  simp [sizeAll]

@[simp] theorem sizeAll_append (ns ms : List Node) :
    sizeAll (ns ++ ms) = sizeAll ns + sizeAll ms := by
  induction ns with
  | nil => simp
  | cons n ns ih => simp [ih, Nat.add_assoc]

theorem locateAll_cons (pos : Nat) (n : Node) (ns : List Node) :
    locateAll pos (n :: ns) = n.locate pos :: locateAll (pos + n.size) ns := by
  simp [locateAll, span_locate]

/-! ## Leaves -/

/-- A placed node and the token it is, if it is one. -/
def placed (l : Located) : Span × Kind × Text := (l.span, l.kind, l.text)

/-- A token at its place, as a node shows it. -/
def placedToken (p : Span × Token) : Span × Kind × Text := (p.1, .token p.2.kind, p.2.text)

theorem place_append (pos : Nat) (ts us : List Token) :
    Token.place pos (ts ++ us) =
      Token.place pos ts ++ Token.place (pos + Text.size (ts.flatMap Token.text)) us := by
  induction ts generalizing pos with
  | nil => simp
  | cons t ts ih => simp [ih, Token.size, Nat.add_assoc]

theorem preorder_locate_leaf (pos : Nat) (k : TokenKind) (f : Option Field) (t : Text) :
    ((leaf k f t).locate pos).preorder = [(leaf k f t).locate pos] := by
  simp [locate, Located.preorder, Located.preorderOnto, Located.preorderAll]

theorem preorder_locate_branch (pos : Nat) (k : NodeKind) (f : Option Field) (e : Option Fault)
    (cs : List Node) :
    ((branch k f e cs).locate pos).preorder =
      (branch k f e cs).locate pos :: Located.preorderAll (locateAll pos cs) [] := by
  simp [locate, Located.preorder, Located.preorderOnto]

theorem preorderAll_locateAll_cons (pos : Nat) (n : Node) (ns : List Node) :
    Located.preorderAll (locateAll pos (n :: ns)) [] =
      (n.locate pos).preorder ++ Located.preorderAll (locateAll (pos + n.size) ns) [] := by
  rw [locateAll_cons, Located.preorderAll, Located.preorderOnto_eq]

mutual

/-- The tokens below a placed node are its leaves, placed one after the other. -/
theorem tokens_locate (pos : Nat) : (n : Node) →
    ((n.locate pos).preorder.filter (·.isToken)).map placed =
      (Token.place pos n.leaves).map placedToken
  | .leaf k f t => by
      rw [preorder_locate_leaf]
      simp [locate, Located.isToken, Located.kind, Located.text, kind, Kind.isToken, placed,
        placedToken, text, Token.size]
  | .branch k f e cs => by
      rw [preorder_locate_branch, leaves_branch, ← tokens_locateAll pos cs]
      simp [locate, Located.isToken, Located.kind, kind, Kind.isToken]

theorem tokens_locateAll (pos : Nat) : (ns : List Node) →
    ((Located.preorderAll (locateAll pos ns) []).filter (·.isToken)).map placed =
      (Token.place pos (leavesAll ns)).map placedToken
  | [] => by simp [locateAll, Located.preorderAll]
  | n :: ns => by
      rw [preorderAll_locateAll_cons, leavesAll_cons, place_append, List.filter_append,
        List.map_append, List.map_append, tokens_locate pos n, tokens_locateAll (pos + n.size) ns,
        ← size_text n, text]

end

/-! ## Faults -/

mutual

/-- A fault is in the node or below it. -/
def flawed : Node → Bool
  | .leaf k _ _ => (Fault.ofToken? k).isSome
  | .branch _ _ e cs => e.isSome || flawedAll cs

def flawedAll : List Node → Bool
  | [] => false
  | n :: ns => flawed n || flawedAll ns

end

mutual

/-- The faults in the node placed at byte `pos` and below it, in preorder. -/
def faultsAt (pos : Nat) : Node → List Diagnostic
  | .leaf k _ t => ((Fault.ofToken? k).map (⟨⟨pos, pos + t.size⟩, ·⟩)).toList
  | .branch _ _ e cs => (e.map (⟨⟨pos, pos + sizeAll cs⟩, ·⟩)).toList ++ faultsAllAt pos cs

def faultsAllAt (pos : Nat) : List Node → List Diagnostic
  | [] => []
  | n :: ns => faultsAt pos n ++ faultsAllAt (pos + n.size) ns

end

@[simp] theorem flawed_ofToken (field : Option Field) (t : Token) :
    (ofToken field t).flawed = (Fault.ofToken? t.kind).isSome := by simp [ofToken, flawed]

@[simp] theorem flawed_marker (fault : Fault) : (marker fault).flawed = true := by
  simp [marker, flawed]

theorem flawedAll_eq_any (ns : List Node) : flawedAll ns = ns.any flawed := by
  induction ns with
  | nil => simp [flawedAll]
  | cons n ns ih => simp [flawedAll, ih]

mutual

theorem faultsAt_eq_nil_iff (pos : Nat) : (n : Node) → (n.faultsAt pos = [] ↔ n.flawed = false)
  | .leaf k f t => by
      cases h : Fault.ofToken? k <;> simp [faultsAt, flawed, h]
  | .branch k f e cs => by
      have h := faultsAllAt_eq_nil_iff pos cs
      cases e <;> simp [faultsAt, flawed, h]

theorem faultsAllAt_eq_nil_iff (pos : Nat) : (ns : List Node) →
    (faultsAllAt pos ns = [] ↔ flawedAll ns = false)
  | [] => by simp [faultsAllAt, flawedAll]
  | n :: ns => by
      simp [faultsAllAt, flawedAll, faultsAt_eq_nil_iff pos n,
        faultsAllAt_eq_nil_iff (pos + n.size) ns]

end

mutual

theorem flawed_locate (pos : Nat) : (n : Node) → (n.locate pos).flawed = n.flawed
  | .leaf k f t => by simp [locate, flawed]
  | .branch k f e cs => by simp [locate, flawed, any_flawed_locateAll pos cs]

theorem any_flawed_locateAll (pos : Nat) : (ns : List Node) →
    (locateAll pos ns).any (·.flawed) = flawedAll ns
  | [] => by simp [locateAll, flawedAll]
  | n :: ns => by
      rw [locateAll_cons, List.any_cons, flawed_locate pos n,
        any_flawed_locateAll (pos + n.size) ns, flawedAll]

end

mutual

/-- Passing over nodes that are not flawed loses no fault. -/
theorem faultsOnto_locate (pos : Nat) : (n : Node) → (acc : List Diagnostic) →
    (n.locate pos).faultsOnto acc = n.faultsAt pos ++ acc
  | .leaf k f t, acc => by
      cases h : Fault.ofToken? k <;>
        simp [locate, Located.faultsOnto, Located.faultsAll, Located.diagnostic?, Located.fault,
          fault, faultsAt, h]
  | .branch k f e cs, acc => by
      have hspan := span_locate pos (.branch k f e cs)
      have hflawed := flawed_locate pos (.branch k f e cs)
      have hcs := faultsAll_locateAll pos cs acc
      cases hf : (branch k f e cs).flawed with
      | false =>
          rw [(faultsAt_eq_nil_iff pos _).2 hf, List.nil_append]
          rw [hf] at hflawed
          simp only [locate] at hflawed ⊢
          simp [Located.faultsOnto, hflawed]
      | true =>
          rw [hf] at hflawed
          simp only [locate, size_branch] at hflawed hspan ⊢
          simp only [Located.faultsOnto, hflawed, if_true, Located.diagnostic?, Located.fault,
            fault, hspan, hcs, faultsAt, List.append_assoc]

theorem faultsAll_locateAll (pos : Nat) : (ns : List Node) → (acc : List Diagnostic) →
    Located.faultsAll (locateAll pos ns) acc = faultsAllAt pos ns ++ acc
  | [], acc => by simp [locateAll, Located.faultsAll, faultsAllAt]
  | n :: ns, acc => by
      rw [locateAll_cons, Located.faultsAll, faultsAll_locateAll (pos + n.size) ns acc,
        faultsOnto_locate pos n, faultsAllAt, List.append_assoc]

end

theorem faultsAllAt_append (pos : Nat) (ns ms : List Node) :
    faultsAllAt pos (ns ++ ms) = faultsAllAt pos ns ++ faultsAllAt (pos + sizeAll ns) ms := by
  induction ns generalizing pos with
  | nil => simp [faultsAllAt]
  | cons n ns ih => simp [faultsAllAt, ih, Nat.add_assoc]

end Node

def Span.shift (d : Nat) (s : Span) : Span := ⟨d + s.start, d + s.stop⟩

/-- The same fault `d` bytes further on. -/
def Diagnostic.shift (d : Nat) (e : Diagnostic) : Diagnostic := ⟨e.span.shift d, e.fault⟩

namespace Node

mutual

/-- The faults of a node move with it. -/
theorem faultsAt_add (d pos : Nat) : (n : Node) →
    n.faultsAt (d + pos) = (n.faultsAt pos).map (Diagnostic.shift d)
  | .leaf k f t => by
      cases h : Fault.ofToken? k <;>
        simp [faultsAt, h, Diagnostic.shift, Span.shift, Nat.add_assoc]
  | .branch k f e cs => by
      cases e <;>
        simp [faultsAt, faultsAllAt_add d pos cs, Diagnostic.shift, Span.shift, Nat.add_assoc]

theorem faultsAllAt_add (d pos : Nat) : (ns : List Node) →
    faultsAllAt (d + pos) ns = (faultsAllAt pos ns).map (Diagnostic.shift d)
  | [] => by simp [faultsAllAt]
  | n :: ns => by
      have hns := faultsAllAt_add d (pos + n.size) ns
      simp [faultsAllAt, faultsAt_add d pos n, ← hns, Nat.add_assoc]

end

end Node

namespace Tree

theorem faults_eq (t : Tree) : t.faults = Node.faultsAllAt 0 (t.segments.map (·.node)) := by
  rw [faults, root, Located.faults, Node.faultsOnto_locate]
  simp [Node.faultsAt]

/-- A tree has no fault if none of its segments is flawed. -/
theorem faults_eq_nil_iff (t : Tree) :
    t.faults = [] ↔ ∀ s ∈ t.segments, s.node.flawed = false := by
  rw [faults_eq, Node.faultsAllAt_eq_nil_iff, Node.flawedAll_eq_any]
  simp

theorem tokens_eq (t : Tree) : t.tokens.map Node.placed =
    (Token.place 0 (Node.leavesAll (t.segments.map (·.node)))).map Node.placedToken := by
  rw [tokens, root, Node.tokens_locate, Node.leaves_branch]

end Tree

end BibStyle
