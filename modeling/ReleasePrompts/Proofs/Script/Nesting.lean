import Mathlib.Data.List.Basic
import ReleasePrompts.Script.Node

/-!
# Nested ranges

In the trees of a parser the range of a node holds those of its children, which stand in order and
apart (`Nested`). Then a node holds the ranges of all nodes below it (`Nested.covers`), and of two
nodes in pre-order the second lies within the first or behind it (`Nested.pairwise_preorder`).
-/

namespace ReleasePrompts.Script

namespace Node

theorem covers_iff {node : Node} {start stop : Nat} :
    node.covers start stop = true ↔ node.start ≤ start ∧ stop ≤ node.stop := by
  simp [covers]

theorem covers_self (node : Node) : node.covers node.start node.stop = true :=
  covers_iff.mpr ⟨Nat.le_refl _, Nat.le_refl _⟩

theorem covers_trans {first second : Node} {start stop : Nat}
    (hfirst : first.covers second.start second.stop = true)
    (hsecond : second.covers start stop = true) : first.covers start stop = true := by
  rw [covers_iff] at *
  omega

theorem preorder_eq (node : Node) :
    node.preorder = node :: node.children.flatMap preorder := by
  cases node with
  | mk kind start stop children => rw [preorder, preorderAll_eq_flatMap]; rfl

theorem preorder_subset {node child : Node} (h : child ∈ node.children) :
    child.preorder ⊆ node.preorder := by
  intro below hbelow
  rw [preorder_eq node]
  exact List.mem_cons_of_mem _ (List.mem_flatMap_of_mem h hbelow)

/-- What holds of a node if it holds of its children holds of every node. -/
theorem inductionOnChildren {motive : Node → Prop}
    (step : ∀ node, (∀ child ∈ node.children, motive child) → motive node) :
    ∀ node, motive node
  | .mk kind start stop children =>
    step _ fun child (_ : child ∈ children) => inductionOnChildren step child
termination_by node => sizeOf node

end Node

/-- Whether the range of each node of a tree holds those of its children, which stand in order and
apart. -/
structure Nested (tree : Node) : Prop where
  within : ∀ node ∈ tree.preorder, ∀ child ∈ node.children,
    node.covers child.start child.stop = true
  apart : ∀ node ∈ tree.preorder,
    node.children.Pairwise fun first second => first.stop ≤ second.start

instance (tree : Node) : Decidable (Nested tree) :=
  decidable_of_iff
    (∀ node ∈ tree.preorder, (∀ child ∈ node.children,
      node.covers child.start child.stop = true) ∧
        node.children.Pairwise fun first second => first.stop ≤ second.start)
    ⟨fun h => ⟨fun node hnode => (h node hnode).1, fun node hnode => (h node hnode).2⟩,
      fun h node hnode => ⟨h.within node hnode, h.apart node hnode⟩⟩

namespace Nested

variable {tree : Node}

theorem child {child : Node} (h : Nested tree) (hchild : child ∈ tree.children) : Nested child where
  within node hnode := h.within node (Node.preorder_subset hchild hnode)
  apart node hnode := h.apart node (Node.preorder_subset hchild hnode)

theorem covers_child {child : Node} (h : Nested tree) (hchild : child ∈ tree.children) :
    tree.covers child.start child.stop = true :=
  h.within tree (Node.mem_preorder_self tree) child hchild

/-- A node holds the ranges of all nodes below it. -/
theorem covers (h : Nested tree) : ∀ node ∈ tree.preorder,
    tree.covers node.start node.stop = true := by
  induction tree using Node.inductionOnChildren with
  | step tree ih =>
    intro node hnode
    rw [Node.preorder_eq, List.mem_cons, List.mem_flatMap] at hnode
    obtain rfl | ⟨child, hchild, hnode⟩ := hnode
    · exact node.covers_self
    · exact Node.covers_trans (h.covers_child hchild) (ih child hchild (h.child hchild) node hnode)

/-- Of two nodes in pre-order the second lies within the first or behind it. -/
theorem pairwise_preorder (h : Nested tree) : tree.preorder.Pairwise fun first second =>
    first.covers second.start second.stop = true ∨ first.stop ≤ second.start := by
  induction tree using Node.inductionOnChildren with
  | step tree ih =>
    have hroot := h.covers
    have hapart := h.apart tree (Node.mem_preorder_self tree)
    rw [Node.preorder_eq] at hroot ⊢
    refine List.pairwise_cons.mpr ⟨fun node hnode => .inl (hroot node (List.mem_cons_of_mem _ hnode)),
      List.pairwise_flatMap.mpr ⟨fun child hchild => ih child hchild (h.child hchild), ?_⟩⟩
    -- what is below an earlier child ends before what is below a later one begins
    refine hapart.imp_of_mem fun {first second} hfirst hsecond hle node hnode other hother => ?_
    have hend := Node.covers_iff.mp ((h.child hfirst).covers node hnode)
    have hbegin := Node.covers_iff.mp ((h.child hsecond).covers other hother)
    exact .inr (by omega)

end Nested

end ReleasePrompts.Script
