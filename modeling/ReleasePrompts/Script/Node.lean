/-!
# Syntax trees of scripts

A node of a syntax tree has a kind, the range of the source it covers, and its children in source
order. Places count characters. Kinds tell apart what is read from a tree later: literals,
declarations, whatever limits the sight of a declaration, and the constructs that a strict reader of
scripts may refuse (`Feature`). Every other phrase is of one kind. Comments may stand among the
children of any node; what is counted without them are its `parts`.
-/

namespace ReleasePrompts.Script

/-- A construct that only some readers of scripts accept. -/
inductive Feature where
  | withStatement
  | importStatement
  | exportStatement
  | markup
  | decorator
  | classField
  | privateName
  | staticBlock
  | logicalAssignment
  deriving DecidableEq, Repr

/-- How a function is written. -/
inductive FunctionForm where
  /-- A statement that declares the name of the function. -/
  | declared
  /-- An operand; its name, if it has one, is known inside it only. -/
  | operand
  /-- A member of a class or of an object literal. -/
  | member
  /-- Parameters and a body with an arrow between them. -/
  | arrow
  deriving DecidableEq, Repr

/-- What a node is. -/
inductive Kind where
  /-- A template literal, whose children are its substitutions. -/
  | template
  /-- A substitution of a template literal, with its delimiters. -/
  | substitution
  /-- A declaration by `var`, if it is hoisted, or by `let` or `const`, whose children are its
  declarators. -/
  | declaration (hoisted : Bool)
  /-- A declaration of resources, whose children are its declarators. -/
  | resources
  /-- What is declared, and the initial value if one is given. -/
  | declarator
  /-- A function or method of any form. Its parameters and its body are its last children. -/
  | function (form : FunctionForm)
  /-- The parameters of a function. -/
  | parameters
  /-- Statements in braces. -/
  | block
  /-- A loop, with its head. -/
  | loop
  /-- What a loop over items declares, by `var` if it is hoisted. -/
  | loopVariable (hoisted : Bool)
  /-- The cases of a switch, in braces. -/
  | cases
  /-- What a failure is bound to, if it is bound, and the block that handles it. -/
  | handler
  /-- A class, which is a statement that declares its name or an operand. -/
  | classPhrase (declared : Bool)
  /-- The name of a function or class. -/
  | name
  /-- A name that stands for a value or is bound to one. -/
  | identifier
  /-- A left-hand side and, behind an equals sign, a right-hand side. -/
  | initialized
  /-- What stands behind three dots. -/
  | spread
  | string
  | number
  | truth (value : Bool)
  | feature (feature : Feature)
  | comment
  | phrase
  deriving DecidableEq, Repr

/-- A node of a syntax tree. -/
inductive Node where
  | mk (kind : Kind) (start stop : Nat) (children : List Node)

instance : Inhabited Node := ⟨.mk .phrase 0 0 []⟩

namespace Node

/-- What the node is. -/
def kind : Node → Kind
  | mk kind _ _ _ => kind

/-- The place of its first character. -/
def start : Node → Nat
  | mk _ start _ _ => start

/-- The place behind its last character. -/
def stop : Node → Nat
  | mk _ _ stop _ => stop

/-- The nodes directly below it, in source order. -/
def children : Node → List Node
  | mk _ _ _ children => children

/-- The nodes directly below it that are no comments. -/
def parts (node : Node) : List Node := node.children.filter fun child => child.kind != .comment

/-- Whether the range of the node holds every place from `start` up to `stop`. -/
def covers (node : Node) (start stop : Nat) : Bool := node.start ≤ start && stop ≤ node.stop

mutual

/-- The node and all nodes below it, each before its children. -/
def preorder : Node → List Node
  | mk kind start stop children => mk kind start stop children :: preorderAll children

/-- The nodes of several trees, one tree after the other. -/
def preorderAll : List Node → List Node
  | [] => []
  | node :: nodes => preorder node ++ preorderAll nodes

end

theorem mem_preorder_self (node : Node) : node ∈ node.preorder := by
  cases node with
  | mk kind start stop children => simp [preorder]

theorem preorderAll_eq_flatMap (nodes : List Node) :
    preorderAll nodes = nodes.flatMap preorder := by
  induction nodes with
  | nil => simp [preorderAll]
  | cons node nodes ih => simp [preorderAll, ih]

/-- Whether a construct occurs anywhere in the tree. -/
def hasFeature (feature : Feature) (node : Node) : Bool :=
  node.preorder.any fun n => n.kind == .feature feature

end Node

end ReleasePrompts.Script
