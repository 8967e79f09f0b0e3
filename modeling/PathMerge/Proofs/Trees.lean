/-
  PathMerge.Proofs.Trees — handles are expressions.

  A handle unfolds into a finite tree: the node behind it, with each operand unfolded in turn, under a negation
  if the handle is negated. Operands have smaller indices than the nodes that use them, so the unfolding
  ends. No node is stored twice, so handles with the same tree are the same handle: by induction along the
  tree, the operands of two nodes with the same tree are the same handles, and then the nodes are the same
  node. Later requests add nodes and change none, so trees never change.
-/

import PathMerge.Proofs.Requests

namespace PathMerge

inductive Tree where
  | truth
  | literal (l : Literal)
  | symbol (y : SymbolId)
  | app (f : SymbolId) (args : List Tree)
  | summary (branches : List (Tree × Tree))
  | eq (a b : Tree)
  | junction (c : Connective) (operands : List Tree)
  | not (t : Tree)

namespace Tree

def ofNode (tree : Handle → Tree) : Node → Tree
  | .truth => truth
  | .literal l => literal l
  | .symbol y => symbol y
  | .app f args => app f (args.map tree)
  | .summary branches => summary (branches.map fun b => (tree b.1, tree b.2))
  | .eq a b => eq (tree a) (tree b)
  | .junction c operands => junction c (operands.map tree)

def signed (h : Handle) (t : Tree) : Tree := if h.negated then not t else t

theorem ofNode_congr {f g : Handle → Tree} {n : Node} (same : ∀ c ∈ n.children, f c = g c) :
    ofNode f n = ofNode g n := by
  cases n with
  | truth | literal _ | symbol _ => rfl
  | app y args => exact congrArg (app y) (List.map_congr_left same)
  | summary bs =>
    refine congrArg summary (List.map_congr_left fun b hb => ?_)
    obtain ⟨guard, value⟩ := Node.mem_children_summary hb
    rw [same b.1 guard, same b.2 value]
  | eq a b => exact congrArg₂ eq (same a (by simp [Node.children])) (same b (by simp [Node.children]))
  | junction c operands => exact congrArg (junction c) (List.map_congr_left same)

theorem ofNode_ne_not (f : Handle → Tree) (n : Node) (t : Tree) : ofNode f n ≠ not t := by
  cases n <;> exact Tree.noConfusion

/-- The sign and the node can be told from a tree. -/
theorem signed_inj {f g : Handle → Tree} {n m : Node} {h k : Handle}
    (same : signed h (ofNode f n) = signed k (ofNode g m)) :
    h.negated = k.negated ∧ ofNode f n = ofNode g m := by
  unfold signed at same
  cases left : h.negated <;> cases right : k.negated <;> rw [left, right] at same
  · exact ⟨rfl, same⟩
  · exact absurd same (ofNode_ne_not f n _)
  · exact absurd same.symm (ofNode_ne_not g m _)
  · exact ⟨rfl, Tree.not.inj same⟩

theorem map_inj {α β : Type} {f : α → β} {l l' : List α} (inj : ∀ a ∈ l, ∀ b ∈ l', f a = f b → a = b)
    (same : l.map f = l'.map f) : l = l' := by
  induction l generalizing l' with
  | nil => exact (List.map_eq_nil_iff.mp same.symm).symm
  | cons a l ih =>
    cases l' with
    | nil => cases same
    | cons b l' =>
      obtain ⟨first, rest⟩ := List.cons.inj same
      rw [inj a List.mem_cons_self b List.mem_cons_self first,
        ih (fun c hc d hd => inj c (List.mem_cons_of_mem _ hc) d (List.mem_cons_of_mem _ hd)) rest]

/-- If operands can be told from their trees, so can nodes. -/
theorem ofNode_inj {f : Handle → Tree} {n m : Node} (inj : ∀ c ∈ n.children, ∀ d ∈ m.children, f c = f d → c = d)
    (same : ofNode f n = ofNode f m) : n = m := by
  cases n with
  | truth =>
    cases m with
    | truth => rfl
    | _ => cases same
  | literal l =>
    cases m with
    | literal l' => rw [Tree.literal.inj same]
    | _ => cases same
  | symbol y =>
    cases m with
    | symbol y' => rw [Tree.symbol.inj same]
    | _ => cases same
  | app y args =>
    cases m with
    | app y' args' =>
      obtain ⟨rfl, mapped⟩ := Tree.app.inj same
      have operands : args = args' := map_inj inj mapped
      rw [operands]
    | _ => cases same
  | summary bs =>
    cases m with
    | summary bs' =>
      refine congrArg Node.summary (map_inj (fun b hb d hd pairs => ?_) (Tree.summary.inj same))
      obtain ⟨guard, value⟩ := Node.mem_children_summary hb
      obtain ⟨guard', value'⟩ := Node.mem_children_summary hd
      obtain ⟨first, second⟩ := Prod.mk.inj pairs
      exact Prod.ext (inj b.1 guard d.1 guard' first) (inj b.2 value d.2 value' second)
    | _ => cases same
  | eq a b =>
    cases m with
    | eq a' b' =>
      obtain ⟨left, right⟩ := Tree.eq.inj same
      rw [inj a (by simp [Node.children]) a' (by simp [Node.children]) left,
        inj b (by simp [Node.children]) b' (by simp [Node.children]) right]
    | _ => cases same
  | junction c items =>
    cases m with
    | junction c' items' =>
      obtain ⟨rfl, mapped⟩ := Tree.junction.inj same
      have operands : items = items' := map_inj inj mapped
      rw [operands]
    | _ => cases same

def reading : Reading Tree where
  node := ofNode
  negated := not
  missing := truth
  local_ := ofNode_congr

end Tree

namespace Pool

variable {p : Pool}

def tree (p : Pool) (h : Handle) : Tree := p.read Tree.reading h

theorem tree_eq (hp : p.Sound) {h : Handle} {n : Node} (hn : p.node? h = some n) :
    p.tree h = Tree.signed h (Tree.ofNode p.tree n) :=
  read_eq hp hn

theorem tree_injective (hp : p.Sound) {h : Handle} (hh : p.Has h) :
    ∀ k, p.Has k → p.tree h = p.tree k → h = k := by
  refine induction hp (P := fun h => ∀ k, p.Has k → p.tree h = p.tree k → h = k) (fun h n hn ih k hk same => ?_) hh
  obtain ⟨m, hm⟩ := has_iff.mp hk
  rw [tree_eq hp hn, tree_eq hp hm] at same
  obtain ⟨sign, same⟩ := Tree.signed_inj same
  have nodes : n = m := Tree.ofNode_inj (fun c hc d hd => ih c hc d (hp.has_child hm hd)) same
  exact hp.eq_of_node hn (nodes ▸ hm) sign

end Pool

/-- The expression that a handle of the context stands for. -/
def Context.tree (ctx : Context) (h : Handle) : Tree := ctx.pool.tree h

variable {ctx : Context}

/-- In every context a client can have, operands have smaller indices than their nodes, every handle unfolds into a
tree, different handles into different trees, and no request changes the tree of a handle. -/
theorem handles_are_trees (reached : ctx.Reached) :
    (∀ h n, ctx.node h = .ok n → (∀ c ∈ n.children, ctx.Has c ∧ c.index < h.index) ∧
      ctx.tree h = Tree.signed h (Tree.ofNode ctx.tree n)) ∧
    (∀ h k, ctx.Has h → ctx.Has k → (h = k ↔ ctx.tree h = ctx.tree k)) ∧
    (∀ requests, ctx.Allows requests → ∀ h, ctx.Has h →
      (ctx.after requests).Has h ∧ (ctx.after requests).tree h = ctx.tree h) := by
  have hc := reached.reliable
  have hp := hc.sound.pool
  refine ⟨fun h n node => ?_, fun h k hh hk => ⟨congrArg _, Pool.tree_injective hp hh k hk⟩,
    fun requests valid h hh => ?_⟩
  · have hn : ctx.pool.node? h = some n := InternTable.value_eq_ok.mp node
    exact ⟨fun c hc => ⟨hp.has_child hn hc, (hp.below hn c hc).2⟩, Pool.tree_eq hp hn⟩
  · obtain ⟨later, _⟩ := Context.after_later hc valid
    exact ⟨later.extends.has hh, Pool.read_extends hp later.extends.pool hh⟩

/-- `x + 0` is not `x`, and simplifying it does not make it so. -/
theorem handles_are_trees_sum :
    let ctx := Context.oneSlot.after readAfterWrite
    let later := ctx.after [.simplify ⟨7, false⟩]
    ctx.Reached ∧ ctx.tree ⟨7, false⟩ ≠ ctx.tree ⟨5, false⟩ ∧ later.tree ⟨7, false⟩ = ctx.tree ⟨7, false⟩ := by
  intro ctx later
  have reached : ctx.Reached := .intro readAfterWrite Context.create_oneSlot Context.oneSlot_allows
  have sum : ctx.Has ⟨7, false⟩ := by decide +kernel
  have x : ctx.Has ⟨5, false⟩ := by decide +kernel
  obtain ⟨_, distinct, lasting⟩ := handles_are_trees reached
  refine ⟨reached, fun same => ?_, (lasting [.simplify ⟨7, false⟩] ⟨sum, trivial⟩ _ sum).2⟩
  have equal := (distinct _ _ sum x).mpr same
  exact absurd equal (by decide)

end PathMerge
