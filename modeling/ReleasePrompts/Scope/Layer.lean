import ReleasePrompts.Literal.Escape
import ReleasePrompts.Literal.NumberText
import ReleasePrompts.Script.Node
import ReleasePrompts.Text.Search

/-!
# Layers of declarations

What is in sight at a node is reconstructed from the nodes on the way to it from the root. Each has
a `Layer`: its parameters if it is a function, and the declarations in it that no function, block or
loop inside it hides. A name means what the innermost layer that binds it says, and may be bound
without its value being known.
-/

namespace ReleasePrompts.Scope

open Script Literal Text

/-- Whether a node hides the declarations inside it from the nodes around it. -/
def limitsSight (node : Node) : Bool :=
  match node.kind with
  | .function _ | .block | .loop => true
  | _ => false

/-- The text of a node. -/
def textOf (source : List Char) (node : Node) : List Char := slice source node.start node.stop

/-- The text of a node without its first and its last character. -/
def innerText (source : List Char) (node : Node) : List Char :=
  slice source (node.start + 1) (node.stop - 1)

/-- The substitutions of a template literal. -/
def substitutions (node : Node) : List Node :=
  node.children.filter fun child => child.kind == .substitution

/-- The text of the value of a literal. A template literal with substitutions has none, and neither
has any other phrase. -/
def literalValue? (source : List Char) (node : Node) : Option (List Char) :=
  match node.kind with
  | .string => some (cook (innerText source node))
  | .number => numberText? (textOf source node)
  | .truth value => some (if value then "true".toList else "false".toList)
  | .template =>
    if (substitutions node).isEmpty then some (cook (normalizeBreaks (innerText source node)))
    else none
  | _ => none

/-- The name that a node is, if it is one. -/
def identifierName? (source : List Char) (node : Node) : Option (List Char) :=
  if node.kind = .identifier then some (textOf source node) else none

/-- The name that a parameter binds: it stands alone, before its initial value or directly behind
dots. Where a comment follows the dots, the name behind it is not bound. -/
def parameterName? (source : List Char) (node : Node) : Option (List Char) :=
  match node.kind with
  | .identifier => identifierName? source node
  | .initialized => node.parts.head?.bind (identifierName? source)
  | .spread => node.children.head?.bind (identifierName? source)
  | _ => none

/-- The names that the parameters of a function bind; patterns bind none. -/
def parameterNames (source : List Char) (node : Node) : List (List Char) :=
  (node.children.filter fun child => child.kind == .parameters).flatMap fun list =>
    list.children.filterMap (parameterName? source)

/-- What a name is bound to: a value that may not be known. -/
abbrev Binding := List Char × Option (List Char)

/-- The bindings of a layer, in the order in which they are made. -/
abbrev Layer := List Binding

/-- The binding that a declarator makes; a pattern makes none. -/
def declaratorBinding? (source : List Char) (node : Node) : Option Binding :=
  match node.kind, node.parts with
  | .declarator, [name] => (identifierName? source name).map (·, none)
  | .declarator, name :: value :: _ =>
    (identifierName? source name).map (·, literalValue? source value)
  | _, _ => none

/-- The bindings of a declaration, from left to right. -/
def declarationBindings (source : List Char) (node : Node) : Layer :=
  match node.kind with
  | .declaration _ => node.children.filterMap (declaratorBinding? source)
  | _ => []

/-- What the parameters of a function bind, where a node is one: their values are not known. -/
def parameterBindings (source : List Char) (node : Node) : Layer :=
  match node.kind with
  | .function _ => (parameterNames source node).map (·, none)
  | _ => []

/-- Puts the children of a node that do not limit sight on a stack, such that the first one comes
off first. -/
def pushChildren (stack : List Node) (node : Node) : List Node :=
  node.children.reverse.foldl
    (fun stack child => if limitsSight child then stack else child :: stack) stack

theorem length_pushChildren (stack : List Node) (node : Node) :
    (Node.preorderAll (pushChildren stack node)).length <
      (Node.preorderAll (node :: stack)).length := by
  have hle : ∀ children : List Node, (Node.preorderAll (children.reverse.foldl
      (fun stack child => if limitsSight child then stack else child :: stack) stack)).length ≤
        (Node.preorderAll children).length + (Node.preorderAll stack).length := by
    intro children
    rw [List.foldl_reverse]
    induction children with
    | nil => simp [Node.preorderAll]
    | cons child children ih =>
      simp only [List.foldr_cons, Node.preorderAll, List.length_append]
      split
      · omega
      · simp only [Node.preorderAll, List.length_append]
        omega
  cases node with
  | mk kind start stop children =>
    have := hle children
    simp only [pushChildren, Node.children, Node.preorderAll, Node.preorder, List.length_append,
      List.length_cons]
    omega

/-- Takes nodes off a stack, notes what they declare and puts their children on it, until no node is
left. -/
def collectFrom (source : List Char) (bindings : Layer) : (stack : List Node) → Layer
  | [] => bindings
  | node :: stack =>
    collectFrom source (bindings ++ declarationBindings source node) (pushChildren stack node)
termination_by stack => (Node.preorderAll stack).length
decreasing_by exact length_pushChildren stack node

/-- The layer of a node. The node itself is always entered. -/
def layer (source : List Char) (node : Node) : Layer :=
  collectFrom source (parameterBindings source node) [node]

/-- What a layer binds a name to: the last binding made counts. -/
def Layer.find? (layer : Layer) (name : List Char) : Option (Option (List Char)) :=
  (layer.reverse.find? fun binding => binding.1 == name).map Prod.snd

/-- The layers from the root to a node, outermost first. -/
abbrev Chain := List Layer

/-- What the innermost layer that binds a name binds it to. -/
def Chain.binding? (chain : Chain) (name : List Char) : Option (Option (List Char)) :=
  chain.reverse.findSome? fun layer => layer.find? name

/-- The value of a name, where it is known. -/
def Chain.lookup? (chain : Chain) (name : List Char) : Option (List Char) :=
  (chain.binding? name).join

end ReleasePrompts.Scope
