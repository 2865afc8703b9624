import ReleasePrompts.Proofs.Scope.Binding
import ReleasePrompts.Proofs.Scope.Substitution
import ReleasePrompts.Proofs.Scope.Visibility

/-!
# Layers and the scopes of the language

Layers know of parameters and declarators only, and of fewer scopes than the language has. Where the
scope that a name belongs to binds it by one of those, and no declarator of the name is taken for one
of a wider scope, the value filled in is that of a declarator of this scope (`lookup?_sound`).
-/

namespace ReleasePrompts.Scope

open Script Literal Text

variable {legacy : Bool} {source : List Char} {tree : Node} {place : Address} {name : List Char}

/-- Whether a binding is a declarator of a name. -/
def declares (name : List Char) (found : Address × Binder) : Bool :=
  found.2.spelled == some name &&
    match found.2.role with
    | .declarator _ => true
    | _ => false

/-- Whether a declarator at an address is in some layer on the way to a place: the nearest node above
that limits sight stands on that way. -/
def isSeen (tree : Node) (place : Address) (found : Address × Binder) : Bool :=
  (home limitsSight tree found.1).isPrefixOf place

/-- Whether layers know of a binding of a name: it is a parameter, or a declarator that is seen. -/
def isRecorded (tree : Node) (place : Address) (name : List Char) (found : Address × Binder) :
    Bool :=
  found.2.spelled == some name && found.2.role == .parameter ||
    declares name found && isSeen tree place found

/-- What is asked of a name at a place for its value to be found by layers. -/
structure Regular (legacy : Bool) (source : List Char) (tree : Node) (place : Address)
    (name : List Char) (scope : Address) : Prop where
  /-- The scope that the name belongs to binds it in a way that layers know of. -/
  recorded : ∃ found ∈ bindingsAt legacy source tree place name,
    found.2.scope tree found.1 = scope ∧ isRecorded tree place name found = true
  /-- The declarators of the name that are seen belong to scopes around the place. -/
  enclosed : ∀ found ∈ bindings legacy source tree, declares name found = true →
    isSeen tree place found = true → found.2.knownAt tree found.1 place = true
  /-- No declaration by `var` leaves a scope that declares the name itself, which is an error. -/
  valid : ∀ inner ∈ bindings legacy source tree, ∀ outer ∈ bindings legacy source tree,
    declares name inner = true → declares name outer = true → inner.2.reach = .around →
    outer.2.reach = .hoisted → inner.2.scope tree inner.1 <+: outer.1 →
    ¬ outer.2.scope tree outer.1 <+: inner.2.scope tree inner.1

theorem regular_iff {scope : Address} :
    Regular legacy source tree place name scope ↔
      (∃ found ∈ bindingsAt legacy source tree place name,
        found.2.scope tree found.1 = scope ∧ isRecorded tree place name found = true) ∧
      (∀ found ∈ bindings legacy source tree, declares name found = true →
        isSeen tree place found = true → found.2.knownAt tree found.1 place = true) ∧
      ∀ inner ∈ bindings legacy source tree, ∀ outer ∈ bindings legacy source tree,
        ¬(declares name inner = true ∧ declares name outer = true ∧ inner.2.reach = .around ∧
          outer.2.reach = .hoisted ∧ inner.2.scope tree inner.1 <+: outer.1 ∧
          outer.2.scope tree outer.1 <+: inner.2.scope tree inner.1) := by
  refine ⟨fun h => ⟨h.recorded, h.enclosed, ?_⟩, fun ⟨hrecorded, henclosed, hvalid⟩ =>
    ⟨hrecorded, henclosed, ?_⟩⟩
  · rintro inner hinner outer houter ⟨hdeclares, hdeclares', hreach, hreach', hscope, hup⟩
    exact h.valid inner hinner outer houter hdeclares hdeclares' hreach hreach' hscope hup
  · intro inner hinner outer houter hdeclares hdeclares' hreach hreach' hscope hup
    exact hvalid inner hinner outer houter ⟨hdeclares, hdeclares', hreach, hreach', hscope, hup⟩

instance (legacy : Bool) (source : List Char) (tree : Node) (place : Address) (name : List Char)
    (scope : Address) : Decidable (Regular legacy source tree place name scope) :=
  decidable_of_iff _ regular_iff.symm

/-! ## What binders are -/

theorem role_nameBinders {reach : Reach} {node : Node} {binder : Binder}
    (h : binder ∈ nameBinders source reach node) : binder.role = .other := by
  obtain ⟨child, -, rfl⟩ := List.mem_map.mp h
  rfl

theorem functionBinders_cases {form : FunctionForm} {node : Node} {binder : Binder}
    (h : binder ∈ functionBinders legacy source form node) :
    binder.role = .other ∨
      ∃ name ∈ parameterNames source node, binder = ⟨.own, some name, .parameter⟩ := by
  rcases List.mem_append.mp h with h | h
  · refine .inl ?_
    rcases List.mem_append.mp h with h | h
    · cases form <;> simp only [List.mem_append] at h
      · rcases h with h | h
        · exact role_nameBinders h
        · split at h
          · exact role_nameBinders h
          · cases h
      all_goals exact role_nameBinders h
    · split at h
      · cases h
      · rw [List.mem_singleton.mp h]
  · obtain ⟨list, hlist, h⟩ := List.mem_flatMap.mp h
    obtain ⟨child, hchild, rfl⟩ := List.mem_map.mp h
    unfold parameterBinder
    split
    · next name hname =>
      exact .inr ⟨name, List.mem_flatMap.mpr ⟨list, hlist, List.mem_filterMap.mpr
        ⟨child, List.mem_of_mem_filter hchild, hname⟩⟩, rfl⟩
    · exact .inl rfl

/-- Binders that are not of other roles are the declarators of a declaration, or parameters. -/
theorem binders_cases {node : Node} {binder : Binder} (h : binder ∈ binders legacy source node) :
    binder.role = .other ∨
      (∃ hoisted child name value, node.kind = .declaration hoisted ∧ child ∈ node.children ∧
        declaratorBinding? source child = some (name, value) ∧
        binder = ⟨.ofHoisted hoisted, some name, .declarator value⟩) ∨
      ∃ form, node.kind = .function form ∧
        ∃ name ∈ parameterNames source node, binder = ⟨.own, some name, .parameter⟩ := by
  unfold binders at h
  split at h
  · next hoisted hkind =>
    obtain ⟨child, hchild, rfl⟩ := List.mem_map.mp h
    unfold declaratorBinder
    split
    · next name value hfound =>
      exact .inr (.inl
        ⟨hoisted, child, name, value, hkind, List.mem_of_mem_filter hchild, hfound, rfl⟩)
    · exact .inl rfl
  · obtain ⟨child, -, h⟩ := List.mem_flatMap.mp h
    obtain ⟨item, -, rfl⟩ := List.mem_map.mp h
    exact .inl rfl
  · obtain ⟨child, -, rfl⟩ := List.mem_map.mp h
    exact .inl rfl
  · next form hkind => exact (functionBinders_cases h).imp_right fun h => .inr ⟨form, hkind, h⟩
  · refine .inl ?_
    rcases List.mem_append.mp h with h | h
    · exact role_nameBinders h
    · split at h
      · exact role_nameBinders h
      · cases h
  · obtain ⟨child, -, rfl⟩ := List.mem_map.mp h
    exact .inl rfl
  · rw [List.mem_singleton.mp h]
    exact .inl rfl
  · rw [List.mem_singleton.mp h]
    exact .inl rfl
  · cases h

/-- A declarator that layers know of is one of a declaration in the tree. -/
theorem eq_of_declares {found : Address × Binder} (h : found ∈ bindings legacy source tree)
    (hname : declares name found = true) :
    ∃ node hoisted child value, nodeAt? tree found.1 = some node ∧
      node.kind = .declaration hoisted ∧ child ∈ node.children ∧
      declaratorBinding? source child = some (name, value) ∧
      found.2 = ⟨.ofHoisted hoisted, some name, .declarator value⟩ := by
  obtain ⟨node, hat, hbinder⟩ := mem_bindings.mp h
  simp only [declares, Bool.and_eq_true, beq_iff_eq] at hname
  rcases binders_cases hbinder with hother | ⟨hoisted, child, other, value, hkind, hchild, hfound,
    heq⟩ | ⟨form, -, other, -, heq⟩
  · simp [hother] at hname
  · rw [heq] at hname
    obtain rfl := Option.some.inj hname.1
    exact ⟨node, hoisted, child, value, hat, hkind, hchild, hfound, heq⟩
  · simp [heq] at hname

/-! ## Layers and scopes -/

/-- A declarator counts for each node on the way to it from the nearest one that limits sight. -/
theorem mem_visible_of_declares {found : Address × Binder} {node : Node} {upper : Address}
    (h : found ∈ bindings legacy source tree) (hname : declares name found = true)
    (hat : nodeAt? tree upper = some node) (hupper : upper <+: found.1)
    (hhome : home limitsSight tree found.1 <+: upper) :
    name ∈ (visible source node).map Prod.fst := by
  obtain ⟨declaration, hoisted, child, value, hsite, hkind, hchild, hvalue, -⟩ :=
    eq_of_declares h hname
  obtain ⟨below, hbelow⟩ := hupper
  rw [← hbelow] at hsite hhome
  rw [nodeAt?_append, hat] at hsite
  obtain ⟨index, hindex⟩ := List.mem_iff_getElem?.mp hchild
  refine List.mem_map.mpr ⟨(name, value), List.mem_append_right _ (List.mem_flatMap.mpr
    ⟨(below, declaration), List.mem_filter.mpr ⟨(mem_located _ _ _).mpr hsite, ?_⟩, ?_⟩), rfl⟩
  · exact decide_eq_true ((inView_iff_home hat below).mpr hhome)
  · exact mem_declarationBindings.mpr ⟨⟨hoisted, hkind⟩, index, child, hindex, hvalue⟩

/-- What a binding that layers know of is. -/
theorem recorded_cases {found : Address × Binder} (h : found ∈ bindings legacy source tree)
    (hrecorded : isRecorded tree place name found = true) :
    declares name found = true ∧ isSeen tree place found = true ∨
      ∃ node form, nodeAt? tree found.1 = some node ∧ node.kind = .function form ∧
        name ∈ parameterNames source node ∧ found.2 = ⟨.own, some name, .parameter⟩ := by
  simp only [isRecorded, Bool.or_eq_true, Bool.and_eq_true, beq_iff_eq] at hrecorded
  rcases hrecorded with ⟨hspelled, hrole⟩ | hseen
  · obtain ⟨node, hat, hbinder⟩ := mem_bindings.mp h
    rcases binders_cases hbinder with hother | ⟨_, _, _, _, -, -, -, heq⟩ |
      ⟨form, hkind, other, hother, heq⟩
    · simp [hother] at hrole
    · simp [heq] at hrole
    · rw [heq] at hspelled
      obtain rfl := Option.some.inj hspelled
      exact .inr ⟨node, form, hat, hkind, hother, heq⟩
  · exact .inl hseen

theorem scope_ofHoisted {found : Address × Binder} {hoisted : Bool}
    (h : found.2.reach = .ofHoisted hoisted) :
    found.2.scope tree found.1 =
      scopeAround (if hoisted then hasBody else opensScope) tree found.1 := by
  unfold Binder.scope
  rw [h]
  cases hoisted <;> rfl

/-- The scope of a recorded binding around a place stands at or above a node on the way if no node
further down the way binds the name. -/
theorem scope_prefix_take {found : Address × Binder} {target : Node} {depth : Nat}
    (hat : nodeAt? tree place = some target)
    (hdeeper : ∀ deeper ≤ place.length, depth < deeper → ∀ inner,
      nodeAt? tree (place.take deeper) = some inner → name ∉ (visible source inner).map Prod.fst)
    (h : found ∈ bindings legacy source tree) (hrecorded : isRecorded tree place name found = true)
    (hscope : found.2.scope tree found.1 <+: place) :
    found.2.scope tree found.1 <+: place.take depth := by
  have hbinds : ∀ upper node, upper <+: place → nodeAt? tree upper = some node →
      name ∈ (visible source node).map Prod.fst → upper <+: place.take depth := by
    intro upper node hupper hnode hname
    have htake := List.prefix_iff_eq_take.mp hupper
    have hle : upper.length ≤ depth := by
      by_contra hlt
      exact hdeeper upper.length hupper.length_le (by omega) node (htake ▸ hnode) hname
    rw [htake]
    exact List.take_prefix_take_left hle
  rcases recorded_cases h hrecorded with ⟨hname, hseen⟩ | ⟨node, form, hnode, hkind, hname, heq⟩
  · obtain ⟨declaration, hoisted, _, _, hsite, -, -, -, heq⟩ := eq_of_declares h hname
    have hhome : home limitsSight tree found.1 <+: place := List.isPrefixOf_iff_prefix.mp hseen
    have hprefix : found.2.scope tree found.1 <+: found.1 := by
      rw [scope_ofHoisted (by rw [heq])]
      exact scopeAround_prefix _ _ _
    -- The lower one of the scope and of the nearest node that limits sight has the declarator in
    -- view.
    rcases List.prefix_or_prefix_of_prefix (home_prefix_self limitsSight tree found.1) hprefix with
      hle | hle
    · obtain ⟨node, hnode⟩ := exists_nodeAt?_of_prefix hat hscope
      exact hbinds _ node hscope hnode (mem_visible_of_declares h hname hnode hprefix hle)
    · obtain ⟨node, hnode⟩ := exists_nodeAt?_of_prefix hat hhome
      exact hle.trans (hbinds _ node hhome hnode
        (mem_visible_of_declares h hname hnode (home_prefix_self _ _ _) List.prefix_rfl))
  · have hown : found.2.scope tree found.1 = found.1 := by rw [heq]; rfl
    rw [hown] at hscope ⊢
    refine hbinds _ node hscope hnode (List.mem_map.mpr ⟨(name, none), ?_, rfl⟩)
    refine List.mem_append_left _ ?_
    simp only [parameterBindings, hkind]
    exact List.mem_map.mpr ⟨name, hname, rfl⟩

/-- The value that a name has in a layer is that of a declarator in the view of its node. -/
theorem exists_declarator {node : Node} {upper : Address} {value : List Char}
    (hat : nodeAt? tree upper = some node) (h : (visible source node).Gives name (some value)) :
    ∃ found ∈ bindings legacy source tree, found.2.spelled = some name ∧
      found.2.role = .declarator (some value) ∧ upper <+: found.1 ∧
      home limitsSight tree found.1 <+: upper := by
  obtain ⟨earlier, later, heq, -⟩ := h
  have hmem : (name, some value) ∈ visible source node := by rw [heq]; simp
  rcases List.mem_append.mp hmem with hparameter | hdeclared
  · unfold parameterBindings at hparameter
    split at hparameter
    · obtain ⟨other, -, hother⟩ := List.mem_map.mp hparameter
      cases hother
    · cases hparameter
  · obtain ⟨⟨below, declaration⟩, hentry, hbinding⟩ := List.mem_flatMap.mp hdeclared
    obtain ⟨hlocated, hview⟩ := List.mem_filter.mp hentry
    obtain ⟨⟨hoisted, hkind⟩, index, child, hindex, hvalue⟩ := mem_declarationBindings.mp hbinding
    refine ⟨(upper ++ below, ⟨.ofHoisted hoisted, some name, .declarator (some value)⟩), ?_, rfl,
      rfl, List.prefix_append _ _, (inView_iff_home hat below).mp (of_decide_eq_true hview)⟩
    refine mem_bindings.mpr ⟨declaration, ?_, ?_⟩
    · rw [nodeAt?_append, hat]
      exact (mem_located _ _ _).mp hlocated
    · have hpart : child ∈ declaration.parts := List.mem_filter.mpr
        ⟨List.mem_of_getElem? hindex, by simp [kind_of_declaratorBinding? hvalue]⟩
      simp only [binders, hkind]
      exact List.mem_map.mpr ⟨child, hpart, by simp [declaratorBinder, hvalue]⟩

/-- The scope of a recorded binding is the whole script, a function or the body of one, unless it is
that of a declarator which is not hoisted. -/
theorem isScope_of_recorded {found : Address × Binder} (h : found ∈ bindings legacy source tree)
    (hrecorded : isRecorded tree place name found = true) :
    IsScope hasBody tree (found.2.scope tree found.1) ∨
      declares name found = true ∧ found.2.reach = .around ∧
        IsScope opensScope tree (found.2.scope tree found.1) := by
  rcases recorded_cases h hrecorded with ⟨hdeclares, -⟩ | ⟨node, form, hnode, hkind, -, heq⟩
  · obtain ⟨_, hoisted, _, _, -, -, -, -, heq⟩ := eq_of_declares h hdeclares
    have hscope := @scope_ofHoisted tree found hoisted (by rw [heq])
    cases hoisted with
    | false => exact .inr ⟨hdeclares, by rw [heq]; rfl, hscope ▸ isScope_scopeAround _ _ _⟩
    | true => exact .inl (hscope ▸ isScope_scopeAround _ _ _)
  · exact .inl (.inr (.inl (by simp [heq, Binder.scope, hnode, hasBody, hkind])))

/-- The scope of a recorded binding above a declarator stands at or above that of the declarator,
unless the declarator is hoisted out of it. -/
theorem scope_prefix_scope {found used : Address × Binder}
    (h : found ∈ bindings legacy source tree) (hrecorded : isRecorded tree place name found = true)
    (hused : used ∈ bindings legacy source tree) (hname : declares name used = true)
    (hscope : found.2.scope tree found.1 <+: used.1)
    (hvalid : declares name found = true → found.2.reach = .around → used.2.reach = .hoisted →
      found.2.scope tree found.1 <+: used.2.scope tree used.1) :
    found.2.scope tree found.1 <+: used.2.scope tree used.1 := by
  obtain ⟨declaration, hoisted, _, _, hsite, hkind, -, -, heq⟩ := eq_of_declares hused hname
  have hreach : used.2.reach = .ofHoisted hoisted := by rw [heq]
  have hnot : (nodeAt? tree used.1).any opensScope = false ∧
      (nodeAt? tree used.1).any hasBody = false := by
    simp [hsite, opensScope, hasBody, hkind]
  have hfound := isScope_of_recorded h hrecorded
  cases hoisted with
  | false =>
    have hopens := hfound.elim IsScope.opens fun h => h.2.2
    rw [scope_ofHoisted hreach]
    exact hopens.prefix_scopeAround (fun _ => opensScope_of_hasBody) hscope hnot.1
  | true =>
    rcases hfound with hbody | ⟨hdeclares, haround, -⟩
    · rw [scope_ofHoisted hreach]
      exact hbody.prefix_scopeAround (fun _ h => h) hscope hnot.2
    · exact hvalid hdeclares haround hreach

/-- Where the scope that a name belongs to is regular, the value that the name has in layers is that
of a declarator of this scope. -/
theorem lookup?_sound {target : Node} {scope : Address} {value : List Char}
    (hat : nodeAt? tree place = some target)
    (hresolves : ResolvesTo legacy source tree place name scope)
    (hregular : Regular legacy source tree place name scope)
    (h : (layersTo source tree place).lookup? name = some value) :
    ∃ found ∈ bindingsAt legacy source tree place name, found.2.scope tree found.1 = scope ∧
      found.2.role = .declarator (some value) ∧ isSeen tree place found = true := by
  obtain ⟨depth, hdepth, node, hnode, hgives, hdeeper⟩ := (lookup?_eq_some_iff hat name value).mp h
  obtain ⟨used, hused, hspelled, hrole, hbelow, hhome⟩ :=
    @exists_declarator legacy source tree name _ _ _ hnode hgives
  have hdeclares : declares name used = true := by simp [declares, hspelled, hrole]
  have hseen : isSeen tree place used = true :=
    List.isPrefixOf_iff_prefix.mpr (hhome.trans (List.take_prefix depth place))
  have hknown : used ∈ bindingsAt legacy source tree place name := by
    refine List.mem_filter.mpr ⟨hused, ?_⟩
    simp [Binder.fits, hspelled, hregular.enclosed used hused hdeclares hseen]
  obtain ⟨found, hfound, rfl, hrecorded⟩ := hregular.recorded
  obtain ⟨hmem, hat'⟩ := List.mem_filter.mp hfound
  have hscope : found.2.scope tree found.1 <+: place := by
    simp only [Binder.knownAt, Bool.and_eq_true] at hat'
    exact List.isPrefixOf_iff_prefix.mp hat'.2.1
  have hupper := (scope_prefix_take hat hdeeper hmem hrecorded hscope).trans hbelow
  have hdown : used.2.scope tree used.1 <+: found.2.scope tree found.1 :=
    hresolves.2 used hknown
  have hup := scope_prefix_scope hmem hrecorded hused hdeclares hupper fun hinner hreach hreach' =>
    absurd hdown (hregular.valid found hmem used hused hinner hdeclares hreach hreach' hupper)
  exact ⟨used, hknown, hdown.eq_of_length (Nat.le_antisymm hdown.length_le hup.length_le), hrole,
    hseen⟩

/-- Whether something is true of a substitution in the template literal that holds the target. -/
def anySubstitution (source target : List Char) (check : Parsed → Address → Node → Bool) : Bool :=
  anyTemplate source target fun parsed place template =>
    (substitutions template).any (check parsed place)

theorem exists_of_anySubstitution {source target : List Char}
    {check : Parsed → Address → Node → Bool} (h : anySubstitution source target check = true) :
    ∃ parsed path template substitution, (Resolver.ofSource source).parsed = some parsed ∧
      pathToTarget? parsed.source parsed.tree target = some path ∧
      nodeAt? parsed.tree (addressOf path) = some template ∧
      substitution ∈ substitutions template ∧
      check parsed (addressOf path) substitution = true := by
  obtain ⟨parsed, path, template, hparsed, hpath, htemplate, h⟩ := exists_of_anyTemplate h
  obtain ⟨substitution, hmem, h⟩ := List.any_eq_true.mp h
  exact ⟨parsed, path, template, substitution, hparsed, hpath, htemplate, hmem, h⟩

end ReleasePrompts.Scope
