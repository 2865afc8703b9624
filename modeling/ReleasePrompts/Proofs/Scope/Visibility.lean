import Mathlib.Data.List.Induction
import ReleasePrompts.Proofs.Scope.Chain

/-!
# What is visible at a template

A declarator counts in some layer on the way to a template just if the nearest node above it that
limits sight stands on that way (`exists_holds_iff`), so that the contents of any such node off the
way may be replaced (`layersTo_congr`). Layers overlook a parameter behind a comment that follows dots
(`Overlooks`), and a name means what it should unless that lets an outer value through
(`lookup?_layers_eq_iff`). `lookup_exact` says all there is to say of a lookup.
-/

namespace ReleasePrompts.Scope

open Script

variable {source source' : List Char}

/-! ## Declarators -/

/-- Whether a declarator of a declaration stands at an address. -/
def IsDeclarator (tree : Node) (site : Address) : Prop :=
  ∃ place index hoisted declaration declarator, site = place ++ [index] ∧
    nodeAt? tree place = some declaration ∧ declaration.kind = .declaration hoisted ∧
    nodeAt? tree site = some declarator ∧ declarator.kind = .declarator

/-- Whether the layer of the node at an address takes in what stands at another: as a child of a
declaration that is in view. -/
def Holds (tree : Node) (upper site : Address) : Prop :=
  ∃ node below index, nodeAt? tree upper = some node ∧ site = upper ++ below ++ [index] ∧
    InView node below ∧ ∃ declaration hoisted, nodeAt? node below = some declaration ∧
      declaration.kind = .declaration hoisted

/-- A node is in view from above just if its home stands there or above. -/
theorem inView_iff_home {tree node : Node} {above : Address}
    (hat : nodeAt? tree above = some node) (below : Address) :
    InView node below ↔ home limitsSight tree (above ++ below) <+: above := by
  rw [home_prefix_iff (List.prefix_append above below)]
  constructor
  · intro hview depth hlt hmeets
    obtain ⟨deeper, rfl⟩ := Nat.exists_eq_add_of_lt hlt
    rw [Nat.add_assoc, meets_append hat] at hmeets
    exact hview _ hmeets.1 (by omega) hmeets
  · intro hnone depth _ hpos hmeets
    exact hnone (above.length + depth) (by omega) ((meets_append hat below depth).mpr hmeets)

theorem limitsSight_of_declaration {node : Node} {hoisted : Bool}
    (h : node.kind = .declaration hoisted) : limitsSight node = false := by
  simp [limitsSight, h]

/-- A declarator counts in the layer of some node on the way to an address just if the nearest node
above the declarator that limits sight, or the root if there is none, stands on that way. -/
theorem exists_holds_iff {tree : Node} {site : Address} (hsite : IsDeclarator tree site)
    (place : Address) :
    (∃ upper, upper <+: place ∧ Holds tree upper site) ↔
      home limitsSight tree site <+: place := by
  obtain ⟨parent, index, hoisted, declaration, declarator, rfl, hparent, hkind, -, -⟩ := hsite
  have hhome : home limitsSight tree (parent ++ [index]) = home limitsSight tree parent :=
    home_append_singleton hparent (limitsSight_of_declaration hkind) index
  rw [hhome]
  constructor
  · rintro ⟨upper, hupper, node, below, i, hnode, heq, hview, -⟩
    obtain ⟨rfl, -⟩ := List.append_inj' heq rfl
    exact ((inView_iff_home hnode below).mp hview).trans hupper
  · intro hplace
    have hself := home_prefix_self limitsSight tree parent
    obtain ⟨node, hnode⟩ := exists_nodeAt?_of_prefix hparent hself
    obtain ⟨below, hbelow⟩ := hself
    refine ⟨_, hplace, node, below, index, hnode, by rw [hbelow], ?_, declaration, hoisted, ?_,
      hkind⟩
    · refine (inView_iff_home hnode below).mpr ?_
      simp only [hbelow, List.prefix_refl]
    · rw [← hparent]
      conv_rhs => rw [← hbelow, nodeAt?_append, hnode]
      rfl

/-- The layer of a node binds its parameters and the declarators that it holds. -/
theorem mem_layer_iff {tree node : Node} {upper : Address} (hat : nodeAt? tree upper = some node)
    (binding : Binding) :
    binding ∈ layer source node ↔
      binding ∈ parameterBindings source node ∨
        ∃ site declarator, IsDeclarator tree site ∧ Holds tree upper site ∧
          nodeAt? tree site = some declarator ∧
          declaratorBinding? source declarator = some binding := by
  rw [layer_eq_visible, visible, List.mem_append, declarationsInView, List.mem_flatMap]
  refine or_congr_right ⟨?_, ?_⟩
  · rintro ⟨⟨below, declaration⟩, hentry, hbinding⟩
    obtain ⟨hlocated, hview⟩ := List.mem_filter.mp hentry
    have hbelow := (mem_located node below declaration).mp hlocated
    obtain ⟨⟨hoisted, hkind⟩, index, declarator, hindex, hsome⟩ :=
      mem_declarationBindings.mp hbinding
    have hparent : nodeAt? tree (upper ++ below) = some declaration := by
      rw [nodeAt?_append, hat]
      exact hbelow
    have hsite := (nodeAt?_append_singleton hparent index).trans hindex
    exact ⟨_, declarator,
      ⟨_, index, hoisted, declaration, declarator, rfl, hparent, hkind, hsite,
        kind_of_declaratorBinding? hsome⟩,
      ⟨node, below, index, hat, rfl, of_decide_eq_true hview, declaration, hoisted, hbelow, hkind⟩,
      hsite, hsome⟩
  · rintro ⟨site, declarator, -, ⟨upperNode, below, index, hnode, rfl, hview, declaration, hoisted,
      hbelow, hkind⟩, hsite, hsome⟩
    obtain rfl := Option.some.inj (hat.symm.trans hnode)
    have hparent : nodeAt? tree (upper ++ below) = some declaration := by
      rw [nodeAt?_append, hat]
      exact hbelow
    refine ⟨(below, declaration), List.mem_filter.mpr
      ⟨(mem_located _ _ _).mpr hbelow, decide_eq_true hview⟩, ?_⟩
    exact mem_declarationBindings.mpr ⟨⟨hoisted, hkind⟩, index, declarator,
      (nodeAt?_append_singleton hparent index).symm.trans hsite, hsome⟩

/-! ## Parameters that are overlooked -/

/-- Whether a function declares a name by a parameter behind a comment that follows dots, and its
layer does not bind the name. -/
structure Overlooks (source : List Char) (node : Node) (name : List Char) : Prop where
  function : ∃ form, node.kind = .function form
  declares : ∃ list ∈ node.children, list.kind = .parameters ∧ ∃ parameter ∈ list.children,
    parameter.kind = .spread ∧ (parameter.children.head?.any fun child => child.kind == .comment) ∧
      declaredName? source parameter = some name
  unbound : name ∉ (visible source node).map Prod.fst

theorem declaredName?_cases {node : Node} {name : List Char}
    (h : declaredName? source node = some name) :
    parameterName? source node = some name ∨ node.kind = .spread ∧
      (node.children.head?.any fun child => child.kind == .comment) = true := by
  unfold declaredName? at h
  unfold parameterName?
  split at h
  · next hkind => exact .inl (by simpa only [hkind] using h)
  · next hkind => exact .inl (by simpa only [hkind] using h)
  · next hkind =>
    rw [Node.parts] at h
    cases hchildren : node.children with
    | nil => simp [hchildren] at h
    | cons child children =>
      by_cases hcomment : child.kind = .comment
      · exact .inr ⟨hkind, by simp [hcomment]⟩
      · refine .inl ?_
        simpa [hkind, hchildren, hcomment] using h
  · cases h

theorem mem_declaredNames {node : Node} {name : List Char} :
    name ∈ declaredNames source node ↔ ∃ list ∈ node.children, list.kind = .parameters ∧
      ∃ parameter ∈ list.children, declaredName? source parameter = some name := by
  simp only [declaredNames, List.mem_flatMap, List.mem_filter, List.mem_filterMap, beq_iff_eq,
    and_assoc]

/-- What a node declares beyond what is visible there is overlooked. -/
theorem overlooks_iff {node : Node} {name : List Char} :
    Overlooks source node name ↔ name ∈ (declared source node).map Prod.fst ∧
      name ∉ (visible source node).map Prod.fst := by
  constructor
  · rintro ⟨⟨form, hform⟩, ⟨list, hlist, hkind, parameter, hparameter, -, -, hname⟩, hunbound⟩
    refine ⟨?_, hunbound⟩
    rw [declared, declaredBindings, hform, List.map_append, List.mem_append]
    refine .inl (List.mem_map.mpr ⟨(name, none), List.mem_map_of_mem ?_, rfl⟩)
    exact mem_declaredNames.mpr ⟨list, hlist, hkind, parameter, hparameter, hname⟩
  · rintro ⟨hdeclared, hunbound⟩
    rw [declared, List.map_append, List.mem_append] at hdeclared
    have hview : name ∉ (declarationsInView source node).map Prod.fst := fun h =>
      hunbound (by rw [visible, List.map_append]; exact List.mem_append_right _ h)
    have hparameter := hdeclared.resolve_right hview
    unfold declaredBindings at hparameter
    split at hparameter
    · next form hform =>
      obtain ⟨list, hlist, hkind, parameter, hmem, hname⟩ := mem_declaredNames.mp
        (by simpa [List.map_map, Function.comp_def] using hparameter)
      rcases declaredName?_cases hname with hbound | ⟨hspread, hcomment⟩
      · refine absurd ?_ hunbound
        rw [visible, parameterBindings, hform, List.map_append, List.mem_append]
        refine .inl (List.mem_map.mpr ⟨(name, none), List.mem_map_of_mem ?_, rfl⟩)
        exact List.mem_flatMap.mpr ⟨list, List.mem_filter.mpr ⟨hlist, beq_iff_eq.mpr hkind⟩,
          List.mem_filterMap.mpr ⟨parameter, hmem, hbound⟩⟩
      · exact ⟨⟨form, hform⟩, ⟨list, hlist, hkind, parameter, hmem, hspread, hcomment, hname⟩,
          hunbound⟩
    · cases hparameter

theorem visible_subset_declared (source : List Char) (node : Node) :
    visible source node ⊆ declared source node := by
  intro binding h
  rcases List.mem_append.mp h with h | h
  · refine List.mem_append_left _ ?_
    unfold parameterBindings at h
    split at h
    · next form hform =>
      obtain ⟨name, hname, rfl⟩ := List.mem_map.mp h
      rw [declaredBindings, hform]
      exact List.mem_map_of_mem (parameterNames_subset source node hname)
    · cases h
  · exact List.mem_append_right _ h

/-- Behind bindings whose values are not known, the other ones count. -/
theorem find?_append_of_unknown {unknown : Layer} (h : ∀ binding ∈ unknown, binding.2 = none)
    (known : Layer) (name : List Char) :
    Layer.find? (unknown ++ known) name =
      if name ∈ known.map Prod.fst then known.find? name
      else if name ∈ unknown.map Prod.fst then some none else none := by
  rw [Layer.find?, List.reverse_append, List.find?_append, Option.map_or]
  show (known.find? name).or (unknown.find? name) = _
  by_cases hknown : name ∈ known.map Prod.fst
  · rw [if_pos hknown]
    obtain ⟨value, hvalue⟩ := Option.ne_none_iff_exists'.mp
      fun hnone => (find?_eq_none_iff known name).mp hnone hknown
    rw [hvalue]
    rfl
  · rw [if_neg hknown, (find?_eq_none_iff known name).mpr hknown, Option.none_or]
    split
    · next hunknown =>
      obtain ⟨value, hvalue⟩ := Option.ne_none_iff_exists'.mp
        fun hnone => (find?_eq_none_iff unknown name).mp hnone hunknown
      obtain ⟨earlier, later, heq, -⟩ := (find?_eq_some_iff unknown name value).mp hvalue
      have hnone : value = none := h (name, value) (by rw [heq]; simp)
      rw [hvalue, hnone]
    · next hunknown => exact (find?_eq_none_iff unknown name).mpr hunknown

theorem parameterBindings_unknown (source : List Char) (node : Node) :
    ∀ binding ∈ parameterBindings source node, binding.2 = none := by
  intro binding h
  unfold parameterBindings at h
  split at h
  · obtain ⟨name, -, rfl⟩ := List.mem_map.mp h
    rfl
  · cases h

theorem declaredBindings_unknown (source : List Char) (node : Node) :
    ∀ binding ∈ declaredBindings source node, binding.2 = none := by
  intro binding h
  unfold declaredBindings at h
  split at h
  · obtain ⟨name, -, rfl⟩ := List.mem_map.mp h
    rfl
  · cases h

/-- What is visible and what is declared give a name the same value, if both bind it. -/
theorem find?_declared (source : List Char) (node : Node) (name : List Char) :
    ((declared source node).find? name).getD none =
        ((visible source node).find? name).getD none ∧
      (¬Overlooks source node name →
        (declared source node).find? name = (visible source node).find? name) := by
  have hdeclared : (declared source node).find? name = _ :=
    find?_append_of_unknown (declaredBindings_unknown source node) (declarationsInView source node)
      name
  have hvisible : (visible source node).find? name = _ :=
    find?_append_of_unknown (parameterBindings_unknown source node) (declarationsInView source node)
      name
  refine ⟨?_, fun hnot => ?_⟩
  · have hnone (p : Prop) [Decidable p] :
        (if p then some none else none : Option (Option (List Char))).getD none = none := by
      split <;> rfl
    rw [hdeclared, hvisible]
    split
    · rfl
    · rw [hnone, hnone]
  · by_cases hname : name ∈ (declared source node).map Prod.fst
    · have hseen : name ∈ (visible source node).map Prod.fst := by
        by_contra hunbound
        exact hnot (overlooks_iff.mpr ⟨hname, hunbound⟩)
      rw [visible, List.map_append, List.mem_append] at hseen
      rw [declared, List.map_append, List.mem_append] at hname
      rw [hdeclared, hvisible]
      by_cases hview : name ∈ (declarationsInView source node).map Prod.fst
      · rw [if_pos hview, if_pos hview]
      · rw [if_neg hview, if_neg hview, if_pos (hname.resolve_right hview),
          if_pos (hseen.resolve_right hview)]
    · have hunseen : name ∉ (visible source node).map Prod.fst := fun h =>
        hname (List.map_subset Prod.fst (visible_subset_declared source node) h)
      rw [(find?_eq_none_iff _ _).mpr hname, (find?_eq_none_iff _ _).mpr hunseen]

/-- In a list with a last item, an item is the last one, or the last one is behind it. -/
theorem append_singleton_eq_append_cons {α : Type} {items outer inner : List α} {last item : α}
    (h : items ++ [last] = outer ++ item :: inner) :
    inner = [] ∧ outer = items ∧ item = last ∨
      ∃ between, inner = between ++ [last] ∧ items = outer ++ item :: between := by
  rcases List.eq_nil_or_concat' inner with rfl | ⟨between, deepest, rfl⟩
  · obtain ⟨rfl, hitem⟩ := List.append_inj' h rfl
    exact .inl ⟨rfl, rfl, (List.singleton_inj.mp hitem).symm⟩
  · rw [← List.cons_append, ← List.append_assoc] at h
    obtain ⟨hitems, hdeepest⟩ := List.append_inj' h rfl
    exact .inr ⟨between, by rw [List.singleton_inj.mp hdeepest], hitems⟩

/-- On the way down some nodes, a name means what the innermost of them that declares it says, unless
that node overlooks the name and a node above gives it a value. -/
theorem lookup?_layers_eq_iff (source : List Char) (nodes : List Node) (name : List Char) :
    Chain.lookup? (nodes.map (layer source)) name =
        Chain.lookup? (nodes.map (declared source)) name ↔
      ∀ outer node inner, nodes = outer ++ node :: inner → Overlooks source node name →
        (∀ deeper ∈ inner, name ∉ (declared source deeper).map Prod.fst) →
        Chain.lookup? (outer.map (layer source)) name = none := by
  induction nodes using List.reverseRecOn with
  | nil => simp
  | append_singleton nodes last ih =>
    obtain ⟨hvalue, hsame⟩ := find?_declared source last name
    rw [List.map_append, List.map_append, List.map_singleton, List.map_singleton,
      lookup?_append_singleton, lookup?_append_singleton, layer_eq_visible]
    by_cases hlast : name ∈ (declared source last).map Prod.fst
    · -- only the last node can be the innermost one that declares the name
      have hsplit : ∀ outer node inner, nodes ++ [last] = outer ++ node :: inner →
          (∀ deeper ∈ inner, name ∉ (declared source deeper).map Prod.fst) →
          outer = nodes ∧ node = last := by
        intro outer node inner heq hinner
        rcases append_singleton_eq_append_cons heq with ⟨-, houter, hnode⟩ | ⟨between, rfl, -⟩
        · exact ⟨houter, hnode⟩
        · exact absurd hlast (hinner last (by simp))
      obtain ⟨value, hdeclared⟩ := Option.ne_none_iff_exists'.mp
        fun hnone => (find?_eq_none_iff _ name).mp hnone hlast
      by_cases hoverlooks : Overlooks source last name
      · rw [(find?_eq_none_iff _ name).mpr hoverlooks.unbound, hdeclared] at hvalue ⊢
        obtain rfl : value = none := hvalue
        refine ⟨fun h outer node inner heq _ hinner => ?_, fun h => ?_⟩
        · obtain ⟨rfl, -⟩ := hsplit outer node inner heq hinner
          exact h
        · exact h nodes last [] rfl hoverlooks nofun
      · rw [← hsame hoverlooks, hdeclared]
        refine ⟨fun _ outer node inner heq hnode hinner => ?_, fun _ => rfl⟩
        obtain ⟨-, rfl⟩ := hsplit outer node inner heq hinner
        exact absurd hnode hoverlooks
    · -- the last node says nothing of the name
      have hnot : ¬Overlooks source last name := fun h => hlast (overlooks_iff.mp h).1
      rw [← hsame hnot, (find?_eq_none_iff _ name).mpr hlast, Option.getD_none, Option.getD_none, ih]
      refine ⟨fun h outer node inner heq hnode hinner => ?_, fun h outer node inner heq hnode hinner =>
        h outer node (inner ++ [last]) (by rw [heq]; simp) hnode
          (List.forall_mem_append.mpr ⟨hinner, by simpa using hlast⟩)⟩
      rcases append_singleton_eq_append_cons heq with ⟨-, -, rfl⟩ | ⟨between, rfl, hnodes⟩
      · exact absurd hnode hnot
      · exact h outer node between hnodes hnode fun deeper hd =>
          hinner deeper (List.mem_append_left _ hd)

/-! ## What is off the way -/

/-- A tree with other contents of the node at an address. -/
def withContents (contents : List Node) : Node → Address → Node
  | .mk kind start stop _, [] => .mk kind start stop contents
  | .mk kind start stop children, index :: below =>
    .mk kind start stop (children.modify index fun child => withContents contents child below)

/-- Whether two trees of two sources read alike but for the contents of the node at an address. -/
def AlikeBut (source source' : List Char) (tree tree' : Node) (off : Address) : Prop :=
  ∀ place, (off <+: place → place = off) →
    Option.Rel (ReadAlike source source') (nodeAt? tree place) (nodeAt? tree' place)

theorem rel_readAlike_refl (found : Option Node) :
    Option.Rel (ReadAlike source source) found found := by
  cases found with
  | none => exact .none
  | some node => exact .some ⟨rfl, rfl, rfl⟩

/-- A node reads as before if its children are of the same kinds as before. -/
theorem readAlike_of_map_kind {kind : Kind} {start stop : Nat} {children children' : List Node}
    (h : children.map Node.kind = children'.map Node.kind) :
    ReadAlike source source (.mk kind start stop children) (.mk kind start stop children') := by
  have hempty : (substitutions (.mk kind start stop children)).isEmpty =
      (substitutions (.mk kind start stop children')).isEmpty := by
    have hfilter := congrArg (fun kinds => (kinds.filter (· == .substitution)).isEmpty) h
    simpa [substitutions, Node.children, List.filter_map, Function.comp_def] using hfilter
  refine ⟨rfl, rfl, ?_⟩
  cases kind <;> simp only [literalValue?, Node.kind] <;> first | rfl | simp only [hempty]; rfl

theorem withContents_kind (contents : List Node) (node : Node) (place : Address) :
    (withContents contents node place).kind = node.kind := by
  cases node; cases place <;> rfl

theorem alikeBut_withContents {tree node : Node} {off : Address} (contents : List Node)
    (hat : nodeAt? tree off = some node) (hlimits : limitsSight node = true) :
    AlikeBut source source tree (withContents contents tree off) off := by
  intro place hplace
  induction off generalizing tree place with
  | nil =>
    obtain rfl := hplace (List.nil_prefix)
    obtain rfl : tree = node := by simpa using hat
    obtain ⟨kind, start, stop, children⟩ := tree
    refine .some ⟨rfl, rfl, ?_⟩
    cases kind <;> simp_all [limitsSight, literalValue?, Node.kind, withContents]
  | cons index below ih =>
    obtain ⟨kind, start, stop, children⟩ := tree
    obtain ⟨child, hchild, hbelow⟩ := Option.bind_eq_some_iff.mp hat
    rcases place with _ | ⟨next, rest⟩
    · refine .some (readAlike_of_map_kind (List.ext_getElem? fun i => ?_))
      simp only [List.getElem?_map, List.getElem?_modify, Option.map_eq_map, Option.map_map]
      refine Option.map_congr fun node _ => ?_
      simp only [Function.comp_apply]
      split
      · exact (withContents_kind contents node below).symm
      · rfl
    · simp only [nodeAt?, withContents, Node.children, List.getElem?_modify]
      split
      · next hnext =>
        subst hnext
        rw [show children[index]? = some child from hchild]
        exact ih hbelow rest fun h =>
          (List.cons_eq_cons.mp (hplace (List.cons_prefix_cons.mpr ⟨rfl, h⟩))).2
      · simpa using rel_readAlike_refl _

/-- A node on the way to an address sees nothing inside a node off that way which limits sight. -/
theorem eq_of_inView {tree upper node : Node} {above below off : Address}
    (hat : nodeAt? tree above = some upper) (hview : InView upper below)
    (hoff : nodeAt? tree off = some node) (hlimits : limitsSight node = true)
    (hnot : ¬ off <+: above) (h : off <+: above ++ below) : above ++ below = off := by
  rcases List.prefix_or_prefix_of_prefix h (List.prefix_append above below) with hp | ⟨inner, rfl⟩
  · exact absurd hp hnot
  · have hinner : inner <+: below := (List.prefix_append_right_inj above).mp h
    by_contra hne
    have hpos : 0 < inner.length :=
      List.length_pos_iff.mpr fun hnil => hnot (by simp [hnil])
    have hlt : inner.length < below.length := by
      refine Nat.lt_of_le_of_ne hinner.length_le fun hlen => hne ?_
      rw [hinner.eq_of_length hlen]
    rw [nodeAt?_append, hat] at hoff
    refine hview inner.length hlt hpos ⟨hlt, ?_⟩
    rw [← List.prefix_iff_eq_take.mp hinner, show nodeAt? upper inner = some node from hoff]
    exact hlimits

/-- The layers on the way to an address do not depend on the contents of a node off that way which
limits sight. -/
theorem layersTo_congr {tree tree' node target : Node} {place off : Address}
    (hat : nodeAt? tree place = some target) (hoff : nodeAt? tree off = some node)
    (hlimits : limitsSight node = true) (hnot : ¬ off <+: place)
    (halike : AlikeBut source source' tree tree' off) :
    (∃ target', nodeAt? tree' place = some target') ∧
      layersTo source' tree' place = layersTo source tree place := by
  have hsame : ∀ above, above <+: place → ∃ upper upper', nodeAt? tree above = some upper ∧
      nodeAt? tree' above = some upper' := by
    intro above habove
    obtain ⟨upper, hupper⟩ := exists_nodeAt?_of_prefix hat habove
    have hrel := halike above fun h => absurd (h.trans habove) hnot
    rw [hupper] at hrel
    generalize hupper' : nodeAt? tree' above = found at hrel
    cases hrel
    exact ⟨upper, _, hupper, rfl⟩
  obtain ⟨-, target', -, hat'⟩ := hsame place List.prefix_rfl
  refine ⟨⟨target', hat'⟩, List.ext_getElem? fun depth => ?_⟩
  rw [layersTo_getElem? hat, layersTo_getElem? hat']
  split
  · obtain ⟨upper, upper', hupper, hupper'⟩ := hsame _ (List.take_prefix depth place)
    rw [hupper, hupper', Option.map_some, Option.map_some]
    refine congrArg some (layer_congr fun below hview => ?_).symm
    have hrel := halike (place.take depth ++ below) fun h => eq_of_inView hupper hview hoff hlimits
      (fun h => hnot (h.trans (List.take_prefix depth place))) h
    simpa only [nodeAt?_append, hupper, hupper', Option.bind_some] using hrel
  · rfl

/-- The chain that is built for the node at an address, where some layers are known. -/
def chainFor (source : List Char) (known : List (Address × Layer)) (tree : Node)
    (place : Address) : Chain :=
  (Resolver.chainAlong source known (addressed [] (wayTo 0 tree place))).1

theorem chainFor_eq {tree target : Node} {known : List (Address × Layer)} {place : Address}
    (hknown : Faithful source tree known) (hat : nodeAt? tree place = some target) :
    chainFor source known tree place = layersTo source tree place :=
  (chainAlong_wayTo hknown (show [] ++ [0] = 0 :: [] from rfl) rfl hat).1

/-- What is visible at an address. A name has the value that the deepest node on the way binds it to
among what is visible there. That is what the deepest node that declares the name says, unless this
node overlooks the name and a node above gives it a value. A declarator counts for a node on the way
just if its nearest node above that limits sight, or the root, stands on the way; the layer of a node
binds its parameters and the declarators that count for it; and nothing changes with the contents of
a node that limits sight and is off the way. -/
theorem lookup_exact {tree target : Node} {known : List (Address × Layer)} {place : Address}
    (hknown : Faithful source tree known) (hat : nodeAt? tree place = some target) :
    (∀ name value, (chainFor source known tree place).lookup? name = some value ↔
      ∃ depth ≤ place.length, ∃ node, nodeAt? tree (place.take depth) = some node ∧
        (visible source node).Gives name (some value) ∧
        ∀ deeper ≤ place.length, depth < deeper → ∀ inner,
          nodeAt? tree (place.take deeper) = some inner →
            name ∉ (visible source inner).map Prod.fst) ∧
    (∀ name value, (chainTo (declared source) tree place).lookup? name = some value ↔
      ∃ depth ≤ place.length, ∃ node, nodeAt? tree (place.take depth) = some node ∧
        (declared source node).Gives name (some value) ∧
        ∀ deeper ≤ place.length, depth < deeper → ∀ inner,
          nodeAt? tree (place.take deeper) = some inner →
            name ∉ (declared source inner).map Prod.fst) ∧
    (∀ name, (chainFor source known tree place).lookup? name =
        (chainTo (declared source) tree place).lookup? name ↔
      ∀ outer node inner, (wayTo 0 tree place).map Step.node = outer ++ node :: inner →
        Overlooks source node name →
        (∀ deeper ∈ inner, name ∉ (declared source deeper).map Prod.fst) →
        Chain.lookup? (outer.map (layer source)) name = none) ∧
    (∀ site, IsDeclarator tree site →
      ((∃ upper, upper <+: place ∧ Holds tree upper site) ↔
        home limitsSight tree site <+: place)) ∧
    (∀ upper node, nodeAt? tree upper = some node → ∀ binding,
      binding ∈ layer source node ↔
        binding ∈ parameterBindings source node ∨
          ∃ site declarator, IsDeclarator tree site ∧ Holds tree upper site ∧
            nodeAt? tree site = some declarator ∧
            declaratorBinding? source declarator = some binding) ∧
    ∀ off node, nodeAt? tree off = some node → limitsSight node = true → ¬ off <+: place →
      (∀ contents name,
        (chainFor source [] (withContents contents tree off) place).lookup? name =
          (chainFor source known tree place).lookup? name) ∧
      ∀ source' tree' known', AlikeBut source source' tree tree' off →
        Faithful source' tree' known' → ∀ name,
          (chainFor source' known' tree' place).lookup? name =
            (chainFor source known tree place).lookup? name := by
  have hoff : ∀ off node, nodeAt? tree off = some node → limitsSight node = true →
      ¬ off <+: place → ∀ source' tree' known', AlikeBut source source' tree tree' off →
        Faithful source' tree' known' →
          chainFor source' known' tree' place = chainFor source known tree place := by
    intro off node hnode hlimits hnot source' tree' known' halike hknown'
    obtain ⟨⟨target', hat'⟩, heq⟩ := layersTo_congr hat hnode hlimits hnot halike
    rw [chainFor_eq hknown' hat', chainFor_eq hknown hat, heq]
  refine ⟨fun name value => ?_, lookup?_chainTo_eq_some_iff hat, fun name => ?_,
    fun site hsite => exists_holds_iff hsite place, fun upper node => mem_layer_iff, ?_⟩
  · rw [chainFor_eq hknown hat]
    exact lookup?_eq_some_iff hat name value
  · rw [chainFor_eq hknown hat, layersTo, chainTo, ← lookup?_layers_eq_iff, List.map_map,
      List.map_map]
    rfl
  · intro off node hnode hlimits hnot
    refine ⟨fun contents name => ?_, fun source' tree' known' halike hknown' name => ?_⟩
    · rw [hoff off node hnode hlimits hnot source _ []
        (alikeBut_withContents contents hnode hlimits) (faithful_nil source _)]
    · rw [hoff off node hnode hlimits hnot source' tree' known' halike hknown']

/-- A script in which a block beside a template literal declares the name that is in it. -/
def blockSource : List Char :=
  "const x=\"a\";function g(y)\x7b\x7blet x=\"b\";\x7dreturn `T $\x7bx\x7d`\x7d".toList

/-- The declaration in the inner block counts nowhere on the way to the template literal, and the
name has the value of the outer declaration there. -/
theorem lookup_exact_behind_block :
    ∃ parsed target,
      (Resolver.ofSource blockSource).parsed = some parsed ∧
      nodeAt? parsed.tree [1, 2, 1, 0] = some target ∧ Faithful parsed.source parsed.tree [] ∧
      IsDeclarator parsed.tree [1, 2, 0, 0, 0] ∧
      (¬ ∃ upper, upper <+: [1, 2, 1, 0] ∧ Holds parsed.tree upper [1, 2, 0, 0, 0]) ∧
      (chainFor parsed.source [] parsed.tree [1, 2, 1, 0]).lookup? "x".toList =
        some "a".toList ∧
      ∃ depth ≤ 4, ∃ node, nodeAt? parsed.tree ([1, 2, 1, 0].take depth) = some node ∧
        (visible parsed.source node).Gives "x".toList (some "a".toList) := by
  have hparsed : ((Resolver.ofSource blockSource).parsed.any fun parsed =>
      ((nodeAt? parsed.tree [1, 2, 1, 0]).isSome &&
        (nodeAt? parsed.tree [1, 2, 0, 0]).any (·.kind == .declaration false) &&
        (nodeAt? parsed.tree [1, 2, 0, 0, 0]).any (·.kind == .declarator) &&
        home limitsSight parsed.tree [1, 2, 0, 0, 0] == [1, 2, 0] &&
        (chainFor parsed.source [] parsed.tree [1, 2, 1, 0]).lookup? "x".toList ==
          some "a".toList)) = true := by
    decide +kernel
  obtain ⟨parsed, hsome, hall⟩ := (Option.any_eq_true _ _).mp hparsed
  simp only [Bool.and_eq_true, beq_iff_eq] at hall
  obtain ⟨⟨⟨⟨htemplate, hdeclaration⟩, hdeclarator⟩, hhome⟩, hlookup⟩ := hall
  obtain ⟨target, htarget⟩ := Option.isSome_iff_exists.mp htemplate
  obtain ⟨declaration, hat, hkind⟩ := (Option.any_eq_true _ _).mp hdeclaration
  obtain ⟨declarator, hat', hkind'⟩ := (Option.any_eq_true _ _).mp hdeclarator
  have hsite : IsDeclarator parsed.tree [1, 2, 0, 0, 0] :=
    ⟨[1, 2, 0, 0], 0, false, declaration, declarator, rfl, hat, beq_iff_eq.mp hkind, hat',
      beq_iff_eq.mp hkind'⟩
  have hexact := @lookup_exact parsed.source _ _ [] _ nofun htarget
  refine ⟨parsed, target, hsome, htarget, nofun, hsite, ?_, hlookup, ?_⟩
  · rw [hexact.2.2.2.1 _ hsite, hhome]
    decide
  · obtain ⟨depth, hdepth, node, hnode, hgives, -⟩ := (hexact.1 _ _).mp hlookup
    exact ⟨depth, hdepth, node, hnode, hgives⟩

/-- A script in which a comment stands between the dots and the name of a parameter. -/
def commentSource : List Char :=
  "const a=\"x\";function f(.../**/a)\x7breturn `T $\x7ba\x7d`\x7d".toList

/-- The function declares the name, but its layer overlooks it, and the value of the outer declaration
is found. -/
theorem lookup_passes_comment :
    ∃ parsed template function, (Resolver.ofSource commentSource).parsed = some parsed ∧
      nodeAt? parsed.tree [1, 2, 0, 0] = some template ∧ template.kind = .template ∧
      nodeAt? parsed.tree [1] = some function ∧ Overlooks parsed.source function "a".toList ∧
      (chainTo (declared parsed.source) parsed.tree [1, 2, 0, 0]).lookup? "a".toList = none ∧
      (chainFor parsed.source [] parsed.tree [1, 2, 0, 0]).lookup? "a".toList =
        some "x".toList := by
  have hparsed : ((Resolver.ofSource commentSource).parsed.any fun parsed =>
      ((nodeAt? parsed.tree [1, 2, 0, 0]).any (·.kind == .template) &&
        (nodeAt? parsed.tree [1]).any (fun function =>
          decide ("a".toList ∈ (declared parsed.source function).map Prod.fst) &&
            decide ("a".toList ∉ (visible parsed.source function).map Prod.fst)) &&
        (chainTo (declared parsed.source) parsed.tree [1, 2, 0, 0]).lookup? "a".toList == none &&
        (chainFor parsed.source [] parsed.tree [1, 2, 0, 0]).lookup? "a".toList ==
          some "x".toList)) = true := by
    decide +kernel
  obtain ⟨parsed, hsome, hall⟩ := (Option.any_eq_true _ _).mp hparsed
  simp only [Bool.and_eq_true, beq_iff_eq] at hall
  obtain ⟨⟨⟨htemplate, hfunction⟩, hdeclared⟩, hlookup⟩ := hall
  obtain ⟨template, hat, hkind⟩ := (Option.any_eq_true _ _).mp htemplate
  obtain ⟨function, hat', hnames⟩ := (Option.any_eq_true _ _).mp hfunction
  simp only [Bool.and_eq_true, decide_eq_true_eq] at hnames
  exact ⟨parsed, template, function, hsome, hat, beq_iff_eq.mp hkind, hat',
    overlooks_iff.mpr hnames, hdeclared, hlookup⟩

end ReleasePrompts.Scope
