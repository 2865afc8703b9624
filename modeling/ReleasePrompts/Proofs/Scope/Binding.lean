import ReleasePrompts.Proofs.Scope.Layer

/-!
# The scopes of the language

The language has more kinds of scopes, and more ways to bind a name, than layers tell apart.
`bindings` lists all that binds names in a script, each with the scope it belongs to
(`Binder.scope`), and `ResolvesTo` says which scope a name belongs to at a place: the innermost
around it that binds the name. A scope in which something can be declared is the whole script, a
node of certain kinds, or the body of a function (`isScope_scopeAround`).
-/

namespace ReleasePrompts.Scope

open Script Literal

/-! ## What binds names -/

/-- How a name is bound. -/
inductive Role where
  /-- By a declarator, whose initial value is this if it is a literal. -/
  | declarator (value : Option (List Char))
  /-- By a parameter that is a name, with or without an initial value or directly behind dots. -/
  | parameter
  /-- In any other way. -/
  | other
  deriving DecidableEq, Repr

/-- Where a binding holds, as seen from the node that makes it. -/
inductive Reach where
  /-- In the nearest scope around the node. -/
  | around
  /-- In the body of the nearest function around the node, or in the whole script. -/
  | hoisted
  /-- In the scope that the node itself is. -/
  | own
  /-- In the whole script. -/
  | script
  deriving DecidableEq, Repr

/-- What binds a name. A pattern may bind any name, and so may what is not in the tree. -/
structure Binder where
  reach : Reach
  spelled : Option (List Char)
  role : Role
  deriving DecidableEq, Repr

/-- The reach of a declaration, by `var` or not. -/
def Reach.ofHoisted (hoisted : Bool) : Reach := if hoisted then .hoisted else .around

/-- What stands where a name is bound, other than by a declarator or a parameter. -/
def binderOf (source : List Char) (reach : Reach) (node : Node) : Binder :=
  ⟨reach, identifierName? source node, .other⟩

/-- The binder that a declarator is. -/
def declaratorBinder (source : List Char) (hoisted : Bool) (node : Node) : Binder :=
  match declaratorBinding? source node with
  | some (name, value) => ⟨.ofHoisted hoisted, some name, .declarator value⟩
  | none => ⟨.ofHoisted hoisted, none, .other⟩

/-- The binder that a parameter is. Behind a comment that follows dots a name is declared as well, but
not in the form that layers know of. -/
def parameterBinder (source : List Char) (node : Node) : Binder :=
  match parameterName? source node with
  | some name => ⟨.own, some name, .parameter⟩
  | none => ⟨.own, declaredName? source node, .other⟩

/-- The names of a function or class, with the given reach. -/
def nameBinders (source : List Char) (reach : Reach) (node : Node) : List Binder :=
  (node.children.filter fun child => child.kind == .name).map fun child =>
    ⟨reach, some (textOf source child), .other⟩

/-- What binds the names of a function. By a legacy rule the name of one that is declared in a block
is hoisted as well. -/
def functionBinders (legacy : Bool) (source : List Char) (form : FunctionForm) (node : Node) :
    List Binder :=
  (match form with
    | .declared =>
      nameBinders source .around node ++ if legacy then nameBinders source .hoisted node else []
    | _ => nameBinders source .own node) ++
  (if form = .arrow then [] else [⟨.own, some "arguments".toList, .other⟩]) ++
  (node.children.filter fun child => child.kind == .parameters).flatMap fun list =>
    list.parts.map (parameterBinder source)

/-- What binds names in a node. -/
def binders (legacy : Bool) (source : List Char) (node : Node) : List Binder :=
  match node.kind with
  | .declaration hoisted => node.parts.map (declaratorBinder source hoisted)
  | .resources =>
    node.parts.flatMap fun child => (child.parts.take 1).map (binderOf source .around)
  | .loopVariable hoisted => node.parts.map (binderOf source (.ofHoisted hoisted))
  | .function form => functionBinders legacy source form node
  | .classPhrase declared =>
    nameBinders source .own node ++ if declared then nameBinders source .around node else []
  | .handler => node.parts.dropLast.map (binderOf source .own)
  | .feature .withStatement => [⟨.own, none, .other⟩]
  | .feature .importStatement => [⟨.script, none, .other⟩]
  | _ => []

/-- All that binds names in a tree, with the addresses of the nodes that do. -/
def bindings (legacy : Bool) (source : List Char) (tree : Node) : List (Address × Binder) :=
  (located tree).flatMap fun entry => (binders legacy source entry.2).map (Prod.mk entry.1)

/-- Whether a binder may bind a name. Names are the same if they mean the same, whatever escapes
they are spelled with. -/
def Binder.fits (binder : Binder) (name : List Char) : Bool :=
  binder.spelled.all fun spelled => cook spelled == cook name

/-! ## Scopes -/

/-- Whether a node has a body in which declarations by `var` stay. -/
def hasBody (node : Node) : Bool :=
  match node.kind with
  | .function _ | .feature .staticBlock => true
  | _ => false

/-- Whether a node is a scope. -/
def opensScope (node : Node) : Bool :=
  match node.kind with
  | .function _ | .block | .loop | .cases | .handler | .classPhrase _ | .feature .staticBlock
  | .feature .withStatement => true
  | _ => false

/-- The nearest of the chosen nodes around an address as a scope: of one that has a body the part
that holds the address, or the whole script if there is none. -/
def scopeAround (chosen : Node → Bool) (tree : Node) (place : Address) : Address :=
  let upper := home chosen tree place
  if (nodeAt? tree upper).any hasBody then place.take (upper.length + 1) else upper

/-- The address of the scope that a binding at an address belongs to. -/
def Binder.scope (tree : Node) (site : Address) (binder : Binder) : Address :=
  match binder.reach with
  | .around => scopeAround opensScope tree site
  | .hoisted => scopeAround hasBody tree site
  | .own => site
  | .script => []

/-- How many children of a node that are no comments stand behind the one with an index. -/
def partsBehind (node : Node) (index : Nat) : Nat :=
  (node.children.drop (index + 1)).countP fun child => child.kind != .comment

/-- Whether the names that a node binds in itself are known in one of its children: those of a
function in its parameters and its body, those of a class not in its decorators. -/
def knownIn (node : Node) (index : Nat) : Bool :=
  match node.kind with
  | .function _ => partsBehind node index ≤ 1
  | .classPhrase _ => !(node.children[index]?.any fun child => child.kind == .feature .decorator)
  | .feature .withStatement => partsBehind node index = 0
  | _ => true

/-- Whether a binding at `site` is known at `place`, unless a scope in between binds the name. -/
def Binder.knownAt (tree : Node) (site place : Address) (binder : Binder) : Bool :=
  (binder.scope tree site).isPrefixOf place &&
    (binder.reach != .own ||
      (nodeAt? tree site).any fun node => (place[site.length]?).any (knownIn node))

/-- The bindings of a name that are known at a place. -/
def bindingsAt (legacy : Bool) (source : List Char) (tree : Node) (place : Address)
    (name : List Char) : List (Address × Binder) :=
  (bindings legacy source tree).filter fun (site, binder) =>
    binder.fits name && binder.knownAt tree site place

/-- The scope that a name belongs to at a place: the innermost one that binds it there. -/
def ResolvesTo (legacy : Bool) (source : List Char) (tree : Node) (place : Address)
    (name : List Char) (scope : Address) : Prop :=
  (∃ found ∈ bindingsAt legacy source tree place name, found.2.scope tree found.1 = scope) ∧
    ∀ found ∈ bindingsAt legacy source tree place name, found.2.scope tree found.1 <+: scope

instance (legacy : Bool) (source : List Char) (tree : Node) (place : Address) (name : List Char)
    (scope : Address) : Decidable (ResolvesTo legacy source tree place name scope) :=
  inferInstanceAs (Decidable (_ ∧ _))

variable {legacy : Bool} {source : List Char} {tree : Node}

theorem mem_bindings {site : Address} {binder : Binder} :
    (site, binder) ∈ bindings legacy source tree ↔
      ∃ node, nodeAt? tree site = some node ∧ binder ∈ binders legacy source node := by
  simp only [bindings, List.mem_flatMap, List.mem_map, Prod.mk.injEq, Prod.exists]
  constructor
  · rintro ⟨place, node, hlocated, found, hfound, rfl, rfl⟩
    exact ⟨node, (mem_located tree place node).mp hlocated, hfound⟩
  · rintro ⟨node, hat, hbinder⟩
    exact ⟨site, node, (mem_located tree site node).mpr hat, binder, hbinder, rfl, rfl⟩

/-! ## Where scopes stand -/

/-- Whether a scope stands at an address: the whole script, one of the chosen nodes, or a part of a
node that has a body. -/
def IsScope (chosen : Node → Bool) (tree : Node) (place : Address) : Prop :=
  place = [] ∨ (nodeAt? tree place).any chosen = true ∨
    ∃ upper index, place = upper ++ [index] ∧ (nodeAt? tree upper).any hasBody = true

variable {chosen : Node → Bool} {place site : Address}

theorem opensScope_of_hasBody {node : Node} (h : hasBody node = true) : opensScope node = true := by
  unfold hasBody at h
  split at h
  · simp [opensScope, *]
  · simp [opensScope, *]
  · cases h

theorem any_opensScope {found : Option Node} (h : found.any hasBody = true) :
    found.any opensScope = true := by
  cases found with
  | none => exact h
  | some node => exact opensScope_of_hasBody h

theorem IsScope.opens (h : IsScope hasBody tree place) : IsScope opensScope tree place :=
  h.imp_right fun h => h.imp_left any_opensScope

theorem scopeAround_prefix (chosen : Node → Bool) (tree : Node) (place : Address) :
    scopeAround chosen tree place <+: place := by
  simp only [scopeAround]
  split
  · exact List.take_prefix _ _
  · exact home_prefix_self chosen tree place

theorem home_prefix_scopeAround (chosen : Node → Bool) (tree : Node) (place : Address) :
    home chosen tree place <+: scopeAround chosen tree place := by
  simp only [scopeAround]
  split
  · conv_lhs => rw [List.prefix_iff_eq_take.mp (home_prefix_self chosen tree place)]
    exact List.take_prefix_take_left (Nat.le_succ _)
  · exact List.prefix_rfl

theorem take_succ_of_prefix {above place : Address} (h : above <+: place) (hne : above ≠ place) :
    ∃ index, place.take (above.length + 1) = above ++ [index] := by
  obtain ⟨_ | ⟨index, below⟩, rfl⟩ := h
  · simp at hne
  · exact ⟨index, by simp [List.take_length_add_append]⟩

theorem isScope_scopeAround (chosen : Node → Bool) (tree : Node) (place : Address) :
    IsScope chosen tree (scopeAround chosen tree place) := by
  simp only [scopeAround]
  split
  · next hbody =>
    by_cases hne : home chosen tree place = place
    · rcases home_cases chosen tree place with hnil | ⟨hne', -⟩
      · exact .inl (by rw [← hne, hnil]; rfl)
      · exact absurd hne hne'
    · obtain ⟨index, htake⟩ := take_succ_of_prefix (home_prefix_self chosen tree place) hne
      exact .inr (.inr ⟨_, index, htake, hbody⟩)
  · rcases home_cases chosen tree place with hnil | ⟨-, hchosen⟩
    · exact .inl hnil
    · exact .inr (.inl hchosen)

/-- A scope above an address stands at or above the nearest scope around the address. -/
theorem IsScope.prefix_scopeAround {scope : Address} (h : IsScope chosen tree scope)
    (hbody : ∀ node, hasBody node = true → chosen node = true) (hscope : scope <+: place)
    (hplace : (nodeAt? tree place).any chosen = false) :
    scope <+: scopeAround chosen tree place := by
  have hhome := home_prefix_scopeAround chosen tree place
  rcases h with rfl | hchosen | ⟨upper, index, rfl, hupper⟩
  · exact List.nil_prefix
  · have hne : scope ≠ place := fun heq => by simp [heq, hplace] at hchosen
    exact (prefix_home hscope hne hchosen).trans hhome
  · have hle : upper <+: place := (List.prefix_append _ _).trans hscope
    have hne : upper ≠ place := fun heq => by
      have hlen := hscope.length_le
      simp only [heq, List.length_append, List.length_singleton] at hlen
      omega
    have hchosen : (nodeAt? tree upper).any chosen = true := by
      obtain ⟨node, hnode, h⟩ := (Option.any_eq_true _ _).mp hupper
      exact (Option.any_eq_true _ _).mpr ⟨node, hnode, hbody node h⟩
    have hup := prefix_home hle hne hchosen
    by_cases heq : home chosen tree place = upper
    · -- The scope is the part of that very node that holds the address.
      rw [scopeAround, heq, if_pos hupper, List.prefix_iff_eq_take.mp hscope]
      simp
    · have hself := home_prefix_self chosen tree place
      refine .trans (List.prefix_of_prefix_length_le hscope hself ?_) hhome
      have := Nat.lt_of_le_of_ne hup.length_le fun hlen => heq (hup.eq_of_length hlen).symm
      simpa using Nat.succ_le_of_lt this

end ReleasePrompts.Scope
