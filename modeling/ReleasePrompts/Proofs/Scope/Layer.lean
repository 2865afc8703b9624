import ReleasePrompts.Proofs.Scope.Address
import Mathlib.Data.List.Forall2

/-!
# The layer of a node

A layer is collected with a stack, from which nodes come in pre-order (`collectFrom_eq`). So it holds
the parameters of its node and then, in pre-order, what is declared at or below the node where nothing
in between limits sight (`layer_eq_visible`). It depends on nothing that is out of view
(`layer_congr`). The parameters are those that it knows of: a name behind a comment that follows dots
is declared by the function, but not found (`declaredNames`).
-/

namespace ReleasePrompts.Scope

open Script

variable {source source' : List Char}

/-! ## What comes off the stack -/

mutual

/-- A node and the nodes below it that no function, block or loop below it hides, each before its
children. -/
def inSight : Node → List Node
  | .mk kind start stop children => .mk kind start stop children :: inSightAll children

/-- The nodes in sight of several trees that are not hidden themselves. -/
def inSightAll : List Node → List Node
  | [] => []
  | node :: nodes => (if limitsSight node then [] else inSight node) ++ inSightAll nodes

end

theorem pushChildren_eq (stack : List Node) (node : Node) :
    pushChildren stack node = node.children.filter (!limitsSight ·) ++ stack := by
  rw [pushChildren, List.foldl_reverse]
  generalize node.children = children
  induction children with
  | nil => rfl
  | cons child children ih =>
    rw [List.foldr_cons, ih]
    cases h : limitsSight child <;> simp [h]

theorem inSightAll_eq_flatMap (nodes : List Node) :
    inSightAll nodes = (nodes.filter (!limitsSight ·)).flatMap inSight := by
  induction nodes with
  | nil => rfl
  | cons node nodes ih =>
    rw [inSightAll, ih]
    cases h : limitsSight node <;> simp [h]

/-- From a stack come its nodes, each followed by the nodes in its sight. -/
theorem collectFrom_eq (source : List Char) (bindings : Layer) (stack : List Node) :
    collectFrom source bindings stack =
      bindings ++ (stack.flatMap inSight).flatMap (declarationBindings source) := by
  induction hn : (Node.preorderAll stack).length using Nat.strongRecOn generalizing bindings stack with
  | ind n ih =>
    cases stack with
    | nil =>
      rw [collectFrom]
      exact (List.append_nil bindings).symm
    | cons node stack =>
      rw [collectFrom, ih _ (hn ▸ length_pushChildren stack node) _ _ rfl, pushChildren_eq]
      obtain ⟨kind, start, stop, children⟩ := node
      simp only [List.flatMap_append, List.flatMap_cons, inSight, inSightAll_eq_flatMap,
        Node.children, List.append_assoc]

theorem layer_eq_inSight (source : List Char) (node : Node) :
    layer source node =
      parameterBindings source node ++ (inSight node).flatMap (declarationBindings source) := by
  rw [layer, collectFrom_eq, List.flatMap_singleton]

/-! ## Parameters -/

/-- The name that a parameter declares: it stands alone, before its initial value or behind dots,
whatever comments are in between. -/
def declaredName? (source : List Char) (node : Node) : Option (List Char) :=
  match node.kind with
  | .identifier => identifierName? source node
  | .initialized | .spread => node.parts.head?.bind (identifierName? source)
  | _ => none

theorem declaredName?_of_parameterName? {node : Node} {name : List Char}
    (h : parameterName? source node = some name) : declaredName? source node = some name := by
  unfold parameterName? at h
  unfold declaredName?
  split at h
  · next hkind => simpa only [hkind] using h
  · next hkind => simpa only [hkind] using h
  · next hkind =>
    obtain ⟨inner, hhead, hname⟩ := Option.bind_eq_some_iff.mp h
    obtain ⟨others, hchildren⟩ := List.head?_eq_some_iff.mp hhead
    have hinner : inner.kind = .identifier := by
      unfold identifierName? at hname
      split at hname
      · assumption
      · cases hname
    have hparts : node.parts.head? = some inner := by simp [Node.parts, hchildren, hinner]
    simpa only [hkind, hparts, Option.bind_some] using hname
  · cases h

/-- The names that the parameters of a function declare; patterns are left out. -/
def declaredNames (source : List Char) (node : Node) : List (List Char) :=
  (node.children.filter fun child => child.kind == .parameters).flatMap fun list =>
    list.children.filterMap (declaredName? source)

/-- What the parameters of a function declare, where a node is one: their values are not known. -/
def declaredBindings (source : List Char) (node : Node) : Layer :=
  match node.kind with
  | .function _ => (declaredNames source node).map (·, none)
  | _ => []

theorem parameterNames_subset (source : List Char) (node : Node) :
    parameterNames source node ⊆ declaredNames source node := by
  intro name h
  obtain ⟨list, hlist, h⟩ := List.mem_flatMap.mp h
  obtain ⟨parameter, hparameter, h⟩ := List.mem_filterMap.mp h
  exact List.mem_flatMap.mpr ⟨list, hlist, List.mem_filterMap.mpr
    ⟨parameter, hparameter, declaredName?_of_parameterName? h⟩⟩

/-! ## What is in view of a node -/

/-- Whether nothing strictly between a node and an address below it limits sight. -/
def InView (node : Node) (place : Address) : Prop :=
  ∀ depth < place.length, 0 < depth → ¬ Meets limitsSight node place depth

instance (node : Node) : DecidablePred (InView node) := fun _ =>
  inferInstanceAs (Decidable (∀ depth < _, 0 < depth → ¬ Meets limitsSight node _ depth))

/-- What the declarators of the declarations in view of a node bind: the declarations in pre-order,
the declarators of each from left to right. -/
def declarationsInView (source : List Char) (node : Node) : Layer :=
  ((located node).filter fun entry => InView node entry.1).flatMap fun entry =>
    declarationBindings source entry.2

/-- The parameters of a node, whose values are not known, and the declarators in its view. -/
def visible (source : List Char) (node : Node) : Layer :=
  parameterBindings source node ++ declarationsInView source node

/-- All that a node declares: the names of its parameters, whose values are not known, and the
declarators in its view. -/
def declared (source : List Char) (node : Node) : Layer :=
  declaredBindings source node ++ declarationsInView source node

theorem inView_nil (node : Node) : InView node [] := fun _ h => nomatch h

theorem meets_cons_succ {chosen : Node → Bool} {node child : Node} {index : Nat}
    (h : node.children[index]? = some child) (below : Address) (depth : Nat) :
    Meets chosen node (index :: below) (depth + 1) ↔ Meets chosen child below depth := by
  simp [Meets, nodeAt?_cons h]

theorem meets_append {chosen : Node → Bool} {tree node : Node} {above : Address}
    (h : nodeAt? tree above = some node) (below : Address) (depth : Nat) :
    Meets chosen tree (above ++ below) (above.length + depth) ↔ Meets chosen node below depth := by
  simp [Meets, List.take_length_add_append, nodeAt?_append, h]

theorem inView_cons {node child : Node} {index : Nat} (h : node.children[index]? = some child)
    (below : Address) :
    InView node (index :: below) ↔
      below = [] ∨ limitsSight child = false ∧ InView child below := by
  constructor
  · intro hview
    rcases below with _ | ⟨next, below⟩
    · exact .inl rfl
    · refine .inr ⟨?_, fun depth hlt hpos hmeets => ?_⟩
      · have h1 := hview 1 (by simp) (by omega)
        rw [meets_cons_succ h] at h1
        simpa [Meets] using h1
      · exact hview (depth + 1) (by simpa using hlt) (by omega) ((meets_cons_succ h _ _).mpr hmeets)
  · rintro (rfl | ⟨hchild, hview⟩) depth hlt hpos
    · simp only [List.length_singleton] at hlt
      omega
    · obtain _ | _ | depth := depth
      · omega
      · rw [meets_cons_succ h]
        simp [Meets, hchild]
      · rw [meets_cons_succ h]
        exact hview (depth + 1) (by simpa using hlt) (by omega)

/-- Nothing is declared by a node that limits sight. -/
theorem declarationBindings_of_limitsSight {node : Node} (h : limitsSight node = true) :
    declarationBindings source node = [] := by
  unfold limitsSight at h
  unfold declarationBindings
  split at h <;> simp_all

theorem kind_of_declaratorBinding? {node : Node} {binding : Binding}
    (h : declaratorBinding? source node = some binding) : node.kind = .declarator := by
  unfold declaratorBinding? at h
  split at h <;> first | assumption | cases h

theorem mem_declarationBindings {node : Node} {binding : Binding} :
    binding ∈ declarationBindings source node ↔
      (∃ hoisted, node.kind = .declaration hoisted) ∧
        ∃ (index : Nat) (declarator : Node), node.children[index]? = some declarator ∧
          declaratorBinding? source declarator = some binding := by
  unfold declarationBindings
  split
  · next hoisted hkind =>
    rw [List.mem_filterMap]
    constructor
    · rintro ⟨declarator, hmem, h⟩
      obtain ⟨index, hindex⟩ := List.mem_iff_getElem?.mp hmem
      exact ⟨⟨hoisted, hkind⟩, index, declarator, hindex, h⟩
    · rintro ⟨-, index, declarator, hindex, h⟩
      exact ⟨declarator, List.mem_of_getElem? hindex, h⟩
  · next hkind =>
    exact ⟨nofun, fun ⟨⟨hoisted, h⟩, _⟩ => absurd h (hkind hoisted)⟩

mutual

theorem flatMap_inView : (node : Node) →
    (((located node).filter fun entry => InView node entry.1).flatMap fun entry =>
      declarationBindings source entry.2) = (inSight node).flatMap (declarationBindings source)
  | .mk kind start stop children => by
    have hall := flatMap_inViewAll (.mk kind start stop children) 0 children
      (fun i => by rw [Nat.zero_add]; rfl)
    simp only [located, inSight, List.flatMap_cons, ← hall]
    rw [List.filter_cons_of_pos (by simpa using inView_nil _), List.flatMap_cons]

/-- The same for the children of a node from the one with index `first` on. -/
theorem flatMap_inViewAll (parent : Node) (first : Nat) : (nodes : List Node) →
    (∀ i, parent.children[first + i]? = nodes[i]?) →
    (((locatedAll first nodes).filter fun entry => InView parent entry.1).flatMap fun entry =>
      declarationBindings source entry.2) =
        (inSightAll nodes).flatMap (declarationBindings source)
  | [], _ => rfl
  | node :: nodes, h => by
    have hchild : parent.children[first]? = some node := h 0
    have hrest := flatMap_inViewAll parent (first + 1) nodes fun i => by
      rw [Nat.add_assoc, Nat.add_comm 1]; exact h (i + 1)
    simp only [locatedAll, inSightAll, List.filter_append, List.flatMap_append, hrest,
      List.filter_map, List.flatMap_map, Function.comp_def, Prod.map, id, inView_cons hchild]
    congr 1
    by_cases hlimits : limitsSight node = true
    · -- Of the node and what is below it only the node is in view, and it declares nothing.
      simp only [hlimits, Bool.true_eq_false, false_and, or_false, if_true, List.flatMap_nil]
      refine List.flatMap_eq_nil_iff.mpr fun entry hentry => ?_
      obtain ⟨hm, hnil⟩ := List.mem_filter.mp hentry
      have hat := (mem_located node entry.1 entry.2).mp hm
      rw [of_decide_eq_true hnil, nodeAt?_nil, Option.some.injEq] at hat
      exact declarationBindings_of_limitsSight (hat ▸ hlimits)
    · rw [if_neg hlimits, ← flatMap_inView node]
      congr 1
      refine List.filter_congr fun entry _ => ?_
      have hnil : entry.1 = [] → InView node entry.1 := fun h => h ▸ inView_nil node
      simp only [Bool.not_eq_true] at hlimits
      simp only [hlimits, true_and, decide_eq_decide]
      exact ⟨fun h => h.elim hnil fun h => h, .inr⟩

end

/-- The layer that is collected at a node is what is visible there. -/
theorem layer_eq_visible (source : List Char) (node : Node) :
    layer source node = visible source node := by
  rw [layer_eq_inSight, visible, declarationsInView, flatMap_inView]

/-- What a name is bound to in a layer: the last binding of the name counts. -/
def Layer.Gives (layer : Layer) (name : List Char) (value : Option (List Char)) : Prop :=
  ∃ earlier later, layer = earlier ++ (name, value) :: later ∧ name ∉ later.map Prod.fst

theorem find?_eq_some_iff (layer : Layer) (name : List Char) (value : Option (List Char)) :
    layer.find? name = some value ↔ layer.Gives name value := by
  simp only [Layer.find?, Option.map_eq_some_iff, List.find?_eq_some_iff_append, Layer.Gives]
  constructor
  · rintro ⟨⟨_, _⟩, ⟨hname, later, earlier, heq, hlater⟩, rfl⟩
    obtain rfl := by simpa using hname
    refine ⟨earlier.reverse, later.reverse, by simpa using congrArg List.reverse heq, fun hm => ?_⟩
    obtain ⟨binding, hb, hn⟩ := List.mem_map.mp hm
    simpa [hn] using hlater binding (List.mem_reverse.mp hb)
  · rintro ⟨earlier, later, rfl, hlater⟩
    refine ⟨(name, value), ⟨by simp, later.reverse, earlier.reverse, by simp, fun b hb => ?_⟩, rfl⟩
    have hne : b.1 ≠ name := fun hn =>
      hlater (hn ▸ List.mem_map_of_mem (f := Prod.fst) (List.mem_reverse.mp hb))
    simpa using hne

theorem find?_eq_none_iff (layer : Layer) (name : List Char) :
    layer.find? name = none ↔ name ∉ layer.map Prod.fst := by
  simp only [Layer.find?, Option.map_eq_none_iff, List.find?_eq_none, List.mem_reverse, List.mem_map,
    not_exists, not_and, beq_iff_eq]

/-! ## What a layer depends on -/

/-- Nodes of two sources that are of one kind and have the same name and the same value, as far as
they have any. -/
structure ReadAlike (source source' : List Char) (node node' : Node) : Prop where
  kind : node.kind = node'.kind
  name : identifierName? source node = identifierName? source' node'
  value : literalValue? source node = literalValue? source' node'

/-- Whether all that is in view of two nodes of two sources reads alike. -/
def SeenAlike (source source' : List Char) (node node' : Node) : Prop :=
  ∀ place, InView node place →
    Option.Rel (ReadAlike source source') (nodeAt? node place) (nodeAt? node' place)

theorem limitsSight_congr {node node' : Node} (h : node.kind = node'.kind) :
    limitsSight node = limitsSight node' := by
  unfold limitsSight
  rw [h]

/-- Children of two nodes correspond to each other if their parents see alike. -/
def ChildAlike (source source' : List Char) (node node' : Node) : Prop :=
  ReadAlike source source' node node' ∧
    (limitsSight node = false → SeenAlike source source' node node')

theorem forall₂_of_rel_getElem? {α β : Type} {R : α → β → Prop} {as : List α} {bs : List β}
    (h : ∀ i : Nat, Option.Rel R as[i]? bs[i]?) : List.Forall₂ R as bs := by
  induction as generalizing bs with
  | nil =>
    cases bs with
    | nil => exact .nil
    | cons b bs => cases h 0
  | cons a as ih =>
    cases bs with
    | nil => cases h 0
    | cons b bs =>
      cases h 0 with
      | some hab => exact .cons hab (ih fun i => h (i + 1))

theorem filterMap_eq_of_forall₂ {α β γ : Type} {R : α → β → Prop} {f : α → Option γ}
    {g : β → Option γ} (hfg : ∀ a b, R a b → f a = g b) {as : List α} {bs : List β}
    (h : List.Forall₂ R as bs) : as.filterMap f = bs.filterMap g := by
  induction h with
  | nil => rfl
  | cons hab _ ih => rw [List.filterMap_cons, List.filterMap_cons, hfg _ _ hab, ih]

theorem SeenAlike.children {node node' : Node} (h : SeenAlike source source' node node') :
    List.Forall₂ (ChildAlike source source') node.children node'.children := by
  refine forall₂_of_rel_getElem? fun i => ?_
  have hi : Option.Rel (ReadAlike source source') node.children[i]? node'.children[i]? := by
    simpa [nodeAt?] using h [i] fun depth hlt hpos => by simp at hlt; omega
  generalize hc : node.children[i]? = found at hi ⊢
  generalize hc' : node'.children[i]? = found' at hi ⊢
  cases hi with
  | none => exact .none
  | some halike =>
    refine .some ⟨halike, fun hlimits place hview => ?_⟩
    rw [← nodeAt?_cons hc, ← nodeAt?_cons hc']
    exact h (i :: place) ((inView_cons hc place).mpr (.inr ⟨hlimits, hview⟩))

theorem ChildAlike.children {node node' : Node} (h : ChildAlike source source' node node')
    (hlimits : limitsSight node = false) :
    List.Forall₂ (ChildAlike source source') node.children node'.children :=
  (h.2 hlimits).children

theorem ChildAlike.parts {node node' : Node} (h : ChildAlike source source' node node')
    (hlimits : limitsSight node = false) :
    List.Forall₂ (ChildAlike source source') node.parts node'.parts :=
  List.rel_filter (fun _ _ hchild => by simp only [hchild.1.kind]) (h.children hlimits)

theorem declaratorBinding?_congr {node node' : Node} (h : ChildAlike source source' node node') :
    declaratorBinding? source node = declaratorBinding? source' node' := by
  unfold declaratorBinding?
  rw [← h.1.kind]
  by_cases hkind : node.kind = .declarator
  · have hparts := h.parts (by simp [limitsSight, hkind])
    rw [hkind]
    generalize node.parts = parts, node'.parts = parts' at hparts ⊢
    cases hparts with
    | nil => rfl
    | cons hname hrest =>
      cases hrest with
      | nil => simp only [hname.1.name]
      | cons hvalue _ => simp only [hname.1.name, hvalue.1.value]
  · split <;> simp_all

theorem declarationBindings_congr {node node' : Node} (hkind : node.kind = node'.kind)
    (h : List.Forall₂ (ChildAlike source source') node.children node'.children) :
    declarationBindings source node = declarationBindings source' node' := by
  unfold declarationBindings
  rw [hkind, filterMap_eq_of_forall₂ (fun _ _ hchild => declaratorBinding?_congr hchild) h]

theorem head?_identifierName?_congr {nodes nodes' : List Node}
    (h : List.Forall₂ (ChildAlike source source') nodes nodes') :
    nodes.head?.bind (identifierName? source) = nodes'.head?.bind (identifierName? source') := by
  cases h with
  | nil => rfl
  | cons hinner _ => exact hinner.1.name

theorem parameterName?_congr {node node' : Node} (h : ChildAlike source source' node node') :
    parameterName? source node = parameterName? source' node' := by
  unfold parameterName?
  rw [← h.1.kind]
  split
  · exact h.1.name
  · next hkind => exact head?_identifierName?_congr (h.parts (by simp [limitsSight, hkind]))
  · next hkind => exact head?_identifierName?_congr (h.children (by simp [limitsSight, hkind]))
  · rfl

theorem parameterNames_congr {node node' : Node}
    (h : List.Forall₂ (ChildAlike source source') node.children node'.children) :
    parameterNames source node = parameterNames source' node' := by
  unfold parameterNames
  generalize node.children = children, node'.children = children' at h ⊢
  induction h with
  | nil => rfl
  | @cons child child' _ _ hchild _ ih =>
    by_cases hkind : child.kind = .parameters
    · have hkind' := hchild.1.kind ▸ hkind
      have hnames := filterMap_eq_of_forall₂ (fun _ _ hparameter => parameterName?_congr hparameter)
        (hchild.children (by simp [limitsSight, hkind]))
      simp only [List.filter_cons, hkind, hkind', beq_self_eq_true, if_true, List.flatMap_cons,
        hnames, ih]
    · have hkind' := hchild.1.kind ▸ hkind
      simp [hkind, hkind', ih]

mutual

theorem inSight_congr : (node node' : Node) → ReadAlike source source' node node' →
    SeenAlike source source' node node' →
    (inSight node).flatMap (declarationBindings source) =
      (inSight node').flatMap (declarationBindings source')
  | .mk kind start stop children, .mk kind' start' stop' children', halike, hseen => by
    simp only [inSight, List.flatMap_cons, declarationBindings_congr halike.kind hseen.children,
      inSightAll_congr children children' hseen.children]

theorem inSightAll_congr : (nodes nodes' : List Node) →
    List.Forall₂ (ChildAlike source source') nodes nodes' →
    (inSightAll nodes).flatMap (declarationBindings source) =
      (inSightAll nodes').flatMap (declarationBindings source')
  | [], [], _ => rfl
  | node :: nodes, node' :: nodes', .cons hchild hrest => by
    simp only [inSightAll, List.flatMap_append, inSightAll_congr nodes nodes' hrest,
      ← limitsSight_congr hchild.1.kind]
    by_cases hlimits : limitsSight node = true
    · simp only [hlimits, if_true, List.flatMap_nil]
    · have hnode := inSight_congr node node' hchild.1 (hchild.2 (by simpa using hlimits))
      rw [if_neg hlimits, if_neg hlimits, hnode]

end

/-- Nodes that see alike have the same layer. -/
theorem layer_congr {node node' : Node} (h : SeenAlike source source' node node') :
    layer source node = layer source' node' := by
  have hself : ReadAlike source source' node node' := by
    cases h [] (inView_nil node) with
    | some hself => exact hself
  have hnames := parameterNames_congr h.children
  simp only [layer_eq_inSight, parameterBindings, ← hself.kind, hnames,
    inSight_congr node node' hself h]

end ReleasePrompts.Scope
