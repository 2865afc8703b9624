import ReleasePrompts.Proofs.Scope.Layer

/-!
# The layers down to a node

The chain that is built for a node holds the layers of the nodes on the way to it from the root,
whether they are collected or known from earlier lookups (`chainAlong_wayTo`). A name means what the
innermost layer that binds it gives it (`lookup?_chainTo_eq_some_iff`). A resolver keeps to one tree
and to the layers of its nodes, however many templates it has located (`locateTemplate?_spec`).
-/

namespace ReleasePrompts.Scope

open Script

variable {source : List Char}

/-! ## The layers on the way to a node -/

/-- The nodes from the root of a tree, itself a child of the given index, down to an address. -/
def wayTo (index : Nat) (node : Node) : Address → Path
  | [] => [⟨index, node⟩]
  | next :: below =>
    ⟨index, node⟩ ::
      match node.children[next]? with
      | some child => wayTo next child below
      | none => []

/-- What the nodes from the root of a tree down to an address have for layers, if each has the given
one. -/
def chainTo (layerOf : Node → Layer) (tree : Node) (place : Address) : Chain :=
  (wayTo 0 tree place).map fun step => layerOf step.node

/-- The layers of the nodes from the root of a tree down to an address. -/
def layersTo (source : List Char) (tree : Node) (place : Address) : Chain :=
  (wayTo 0 tree place).map fun step => layer source step.node

theorem layersTo_eq_chainTo (source : List Char) (tree : Node) (place : Address) :
    layersTo source tree place = chainTo (layer source) tree place := rfl

/-- Whether the layers that are known are those of nodes of a tree. -/
def Faithful (source : List Char) (tree : Node) (known : List (Address × Layer)) : Prop :=
  ∀ place found, known.lookup (0 :: place) = some found →
    ∃ node, nodeAt? tree place = some node ∧ found = layer source node

theorem faithful_nil (source : List Char) (tree : Node) : Faithful source tree [] := by
  intro place found h
  cases h

section

variable {ι : Type} [BEq ι] [LawfulBEq ι] {right : ι → Layer → Prop} {known : List (ι × Layer)}

/-- Whether what is known under each name is right. -/
def Knows (right : ι → Layer → Prop) (known : List (ι × Layer)) : Prop :=
  ∀ name found, known.lookup name = some found → right name found

theorem layerAt_knows {name : ι} {node : Node}
    (hnode : ∀ found, right name found ↔ found = layer source node) (hknown : Knows right known) :
    (Resolver.layerAt source known name node).1 = layer source node ∧
      Knows right (Resolver.layerAt source known name node).2 := by
  unfold Resolver.layerAt
  split
  · next found hfound => exact ⟨(hnode found).mp (hknown name found hfound), hknown⟩
  · refine ⟨rfl, fun other found hfound => ?_⟩
    rw [List.lookup_cons] at hfound
    split at hfound
    · next heq =>
      obtain rfl : other = name := beq_iff_eq.mp heq
      exact (hnode found).mpr (Option.some.inj hfound).symm
    · exact hknown other found hfound

/-- Where only the layer of each node is right under its name, the layers of the nodes are collected
or known, and what is known afterwards is right. -/
theorem chainAlong_knows {entries : List (ι × Node)}
    (hentries : ∀ entry ∈ entries, ∀ found, right entry.1 found ↔ found = layer source entry.2)
    (hknown : Knows right known) :
    (Resolver.chainAlong source known entries).1 = entries.map (fun entry => layer source entry.2) ∧
      Knows right (Resolver.chainAlong source known entries).2 := by
  induction entries generalizing known with
  | nil => exact ⟨rfl, hknown⟩
  | cons entry entries ih =>
    obtain ⟨hnode, hentries⟩ := List.forall_mem_cons.mp hentries
    obtain ⟨hlayer, hnext⟩ := layerAt_knows hnode hknown
    obtain ⟨hrest, hlast⟩ := ih hentries hnext
    simp only [List.map_cons, Resolver.chainAlong, hlayer, hrest]
    exact ⟨trivial, hlast⟩

end

theorem snd_addressed (before : Address) (path : Path) :
    (addressed before path).map Prod.snd = path.map Step.node := by
  induction path generalizing before with
  | nil => rfl
  | cons step path ih => rw [addressed, List.map_cons, List.map_cons, ih]

/-- On the way down from a node the address of each node leads to it. -/
theorem mem_addressed_wayTo {tree node target : Node} {before place : Address} {index : Nat}
    (hbefore : before ++ [index] = 0 :: place) (hat : nodeAt? tree place = some node)
    {below : Address} (hbelow : nodeAt? node below = some target) :
    ∀ entry ∈ addressed before (wayTo index node below),
      ∃ place, entry.1 = 0 :: place ∧ nodeAt? tree place = some entry.2 := by
  induction below generalizing before place index node with
  | nil =>
    intro entry hentry
    rw [wayTo, addressed, hbefore] at hentry
    rw [List.mem_singleton.mp hentry]
    exact ⟨place, rfl, hat⟩
  | cons next below ih =>
    obtain ⟨child, hchild, hbelow⟩ := Option.bind_eq_some_iff.mp hbelow
    have hplace : nodeAt? tree (place ++ [next]) = some child := by
      simp [nodeAt?_append, hat, nodeAt?, hchild]
    intro entry hentry
    simp only [wayTo, hchild, addressed, hbefore, List.mem_cons] at hentry
    rcases hentry with rfl | hentry
    · exact ⟨place, rfl, hat⟩
    · exact ih (show (0 :: place) ++ [next] = 0 :: (place ++ [next]) from rfl) hplace hbelow
        entry hentry

/-- Whether a layer is that of the node at an address which counts from above the root. -/
def IsLayerAt (source : List Char) (tree : Node) (name : Address) (found : Layer) : Prop :=
  ∀ place, name = 0 :: place → ∃ node, nodeAt? tree place = some node ∧ found = layer source node

theorem isLayerAt_iff {tree node : Node} {place : Address} {found : Layer}
    (hat : nodeAt? tree place = some node) :
    IsLayerAt source tree (0 :: place) found ↔ found = layer source node := by
  constructor
  · intro h
    obtain ⟨other, hother, rfl⟩ := h place rfl
    rw [Option.some.inj (hother.symm.trans hat)]
  · rintro rfl other hother
    obtain rfl := (List.cons.inj hother).2
    exact ⟨node, hat, rfl⟩

/-- The chain that is built on the way down from a node holds the layers of the nodes on it, and
what is known afterwards is as faithful as before. -/
theorem chainAlong_wayTo {tree node target : Node} {known : List (Address × Layer)}
    {before place : Address} {index : Nat} (hknown : Faithful source tree known)
    (hbefore : before ++ [index] = 0 :: place) (hat : nodeAt? tree place = some node)
    {below : Address} (hbelow : nodeAt? node below = some target) :
    (Resolver.chainAlong source known (addressed before (wayTo index node below))).1 =
        (wayTo index node below).map (fun step => layer source step.node) ∧
      Faithful source tree
        (Resolver.chainAlong source known (addressed before (wayTo index node below))).2 := by
  have hentries : ∀ entry ∈ addressed before (wayTo index node below), ∀ found,
      IsLayerAt source tree entry.1 found ↔ found = layer source entry.2 := by
    intro entry hentry found
    obtain ⟨place, hname, hnode⟩ := mem_addressed_wayTo hbefore hat hbelow entry hentry
    rw [hname, isLayerAt_iff hnode]
  have hright : Knows (IsLayerAt source tree) known := fun name found hfound place hname =>
    hknown place found (hname ▸ hfound)
  obtain ⟨hchain, hafter⟩ := chainAlong_knows hentries hright
  refine ⟨?_, fun place found hfound => hafter _ found hfound place rfl⟩
  have hnodes := congrArg (List.map (layer source)) (snd_addressed before (wayTo index node below))
  rw [List.map_map, List.map_map] at hnodes
  exact hchain.trans hnodes

/-- On the way to an address stand the nodes above it and the one there. -/
theorem wayTo_getElem? {node target : Node} {place : Address} (index : Nat)
    (hat : nodeAt? node place = some target) (depth : Nat) :
    (wayTo index node place)[depth]?.map Step.node =
      if depth ≤ place.length then nodeAt? node (place.take depth) else none := by
  induction place generalizing node index depth with
  | nil => cases depth <;> simp [wayTo]
  | cons next below ih =>
    obtain ⟨child, hchild, hbelow⟩ := Option.bind_eq_some_iff.mp hat
    cases depth with
    | zero => simp [wayTo]
    | succ depth =>
      simpa [wayTo, hchild, nodeAt?_cons hchild] using ih next hbelow depth

theorem chainTo_getElem? (layerOf : Node → Layer) {tree target : Node} {place : Address}
    (hat : nodeAt? tree place = some target) (depth : Nat) :
    (chainTo layerOf tree place)[depth]? =
      if depth ≤ place.length then (nodeAt? tree (place.take depth)).map layerOf
      else none := by
  have h := congrArg (Option.map layerOf) (wayTo_getElem? 0 hat depth)
  rw [chainTo, List.getElem?_map]
  rw [Option.map_map] at h
  exact h.trans (apply_ite _ _ _ _)

theorem layersTo_getElem? {tree target : Node} {place : Address}
    (hat : nodeAt? tree place = some target) (depth : Nat) :
    (layersTo source tree place)[depth]? =
      if depth ≤ place.length then (nodeAt? tree (place.take depth)).map (layer source)
      else none := chainTo_getElem? (layer source) hat depth

/-! ## What a chain says of a name -/

/-- A name is bound by the innermost layer that binds it. -/
theorem binding?_eq_some_iff (chain : Chain) (name : List Char) (value : Option (List Char)) :
    chain.binding? name = some value ↔
      ∃ (outer : Chain) (layer : Layer) (inner : Chain), chain = outer ++ layer :: inner ∧
        layer.Gives name value ∧ ∀ deeper ∈ inner, name ∉ deeper.map Prod.fst := by
  simp only [Chain.binding?, List.findSome?_eq_some_iff, find?_eq_some_iff, find?_eq_none_iff]
  constructor
  · rintro ⟨inner, layer, outer, heq, hgives, hnone⟩
    exact ⟨outer.reverse, layer, inner.reverse, by simpa using congrArg List.reverse heq, hgives,
      fun deeper hd => hnone deeper (List.mem_reverse.mp hd)⟩
  · rintro ⟨outer, layer, inner, rfl, hgives, hnone⟩
    exact ⟨inner.reverse, layer, outer.reverse, by simp, hgives,
      fun deeper hd => hnone deeper (List.mem_reverse.mp hd)⟩

/-- A name has a value at an address if the deepest node on the way there whose layer binds the name
gives it that value. -/
theorem lookup?_chainTo_eq_some_iff {layerOf : Node → Layer} {tree target : Node} {place : Address}
    (hat : nodeAt? tree place = some target) (name value : List Char) :
    (chainTo layerOf tree place).lookup? name = some value ↔
      ∃ depth ≤ place.length, ∃ node, nodeAt? tree (place.take depth) = some node ∧
        (layerOf node).Gives name (some value) ∧
        ∀ deeper ≤ place.length, depth < deeper → ∀ inner,
          nodeAt? tree (place.take deeper) = some inner →
            name ∉ (layerOf inner).map Prod.fst := by
  have hlayers := chainTo_getElem? layerOf hat
  rw [Chain.lookup?, Option.join_eq_some_iff, binding?_eq_some_iff]
  constructor
  · rintro ⟨outer, found, inner, heq, hgives, hnone⟩
    have hfound := hlayers outer.length
    rw [heq, List.getElem?_append_right (Nat.le_refl _), Nat.sub_self, List.getElem?_cons_zero]
      at hfound
    obtain ⟨hle, node, hnode, rfl⟩ : outer.length ≤ place.length ∧
        ∃ node, nodeAt? tree (place.take outer.length) = some node ∧ layerOf node = found := by
      split at hfound
      · exact ⟨‹_›, Option.map_eq_some_iff.mp hfound.symm⟩
      · cases hfound
    refine ⟨outer.length, hle, node, hnode, hgives, fun deeper hd hlt below hbelow => ?_⟩
    have hdeeper := hlayers deeper
    rw [if_pos hd, hbelow, heq, List.getElem?_append_right (by omega),
      List.getElem?_cons, if_neg (by omega)] at hdeeper
    exact hnone _ (List.mem_of_getElem? hdeeper)
  · rintro ⟨depth, hdepth, node, hnode, hgives, hnone⟩
    have hfound := hlayers depth
    rw [if_pos hdepth, hnode, Option.map_some] at hfound
    obtain ⟨hlt, hget⟩ := List.getElem?_eq_some_iff.mp hfound
    refine ⟨(chainTo layerOf tree place).take depth, layerOf node,
      (chainTo layerOf tree place).drop (depth + 1), ?_, hgives, fun inner hinner => ?_⟩
    · rw [← hget, List.getElem_cons_drop, List.take_append_drop]
    · obtain ⟨i, hi⟩ := List.mem_iff_getElem?.mp hinner
      rw [List.getElem?_drop, hlayers] at hi
      split at hi
      · obtain ⟨below, hbelow, rfl⟩ := Option.map_eq_some_iff.mp hi
        exact hnone _ ‹_› (by omega) below hbelow
      · cases hi

/-- A name has a value at an address if the deepest node on the way there that binds the name, in
what is visible at it, gives it that value. -/
theorem lookup?_eq_some_iff {tree target : Node} {place : Address}
    (hat : nodeAt? tree place = some target) (name value : List Char) :
    (layersTo source tree place).lookup? name = some value ↔
      ∃ depth ≤ place.length, ∃ node, nodeAt? tree (place.take depth) = some node ∧
        (visible source node).Gives name (some value) ∧
        ∀ deeper ≤ place.length, depth < deeper → ∀ inner,
          nodeAt? tree (place.take deeper) = some inner →
            name ∉ (visible source inner).map Prod.fst := by
  simp only [← layer_eq_visible, layersTo_eq_chainTo]
  exact lookup?_chainTo_eq_some_iff hat name value

theorem lookup?_append_singleton (chain : Chain) (layer : Layer) (name : List Char) :
    Chain.lookup? (chain ++ [layer]) name = ((layer.find? name).getD (chain.lookup? name)) := by
  rw [Chain.lookup?, Chain.binding?, List.reverse_append, List.reverse_singleton,
    List.singleton_append, List.findSome?_cons]
  cases layer.find? name <;> rfl

/-! ## Locating a template -/

mutual

/-- A template literal that is found covers the range, and the path is the way to it. -/
theorem templatePath?_eq_some {start stop : Nat} : (index : Nat) → (node : Node) → {path : Path} →
    templatePath? start stop index node = some path →
    ∃ place target, nodeAt? node place = some target ∧ target.kind = .template ∧
      target.covers start stop = true ∧ path = wayTo index node place
  | index, .mk kind nodeStart nodeStop children, path, h => by
    simp only [templatePath?] at h
    split at h
    · cases h
    next hcovers =>
    split at h
    · next hkind =>
      exact ⟨[], _, rfl, hkind, by simpa using hcovers, (Option.some.inj h).symm⟩
    · obtain ⟨below, hbelow, rfl⟩ := Option.map_eq_some_iff.mp h
      obtain ⟨i, child, place, target, hchild, hat, hkind, hcov, rfl⟩ :=
        templatePathAmong?_eq_some 0 children hbelow
      have hchild' : (Node.mk kind nodeStart nodeStop children).children[i]? = some child := hchild
      exact ⟨i :: place, target, (nodeAt?_cons hchild' place).trans hat, hkind, hcov,
        by simp [wayTo, hchild']⟩

theorem templatePathAmong?_eq_some {start stop : Nat} : (first : Nat) → (nodes : List Node) →
    {path : Path} → templatePathAmong? start stop first nodes = some path →
    ∃ i child place target, nodes[i]? = some child ∧ nodeAt? child place = some target ∧
      target.kind = .template ∧ target.covers start stop = true ∧
      path = wayTo (first + i) child place
  | _, [], _, h => nomatch h
  | first, node :: nodes, path, h => by
    simp only [templatePathAmong?] at h
    split at h
    · next hnode =>
      obtain ⟨place, target, hat, hkind, hcov, rfl⟩ := templatePath?_eq_some first node hnode
      exact ⟨0, node, place, target, rfl, hat, hkind, hcov, (Option.some.inj h).symm⟩
    · obtain ⟨i, child, place, target, hchild, hat, hkind, hcov, rfl⟩ :=
        templatePathAmong?_eq_some (first + 1) nodes h
      exact ⟨i + 1, child, place, target, hchild, hat, hkind, hcov,
        by rw [Nat.add_assoc, Nat.add_comm 1]⟩

end

theorem getLast?_wayTo {node target : Node} {place : Address} (index : Nat)
    (hat : nodeAt? node place = some target) :
    (wayTo index node place).getLast?.map Step.node = some target := by
  induction place generalizing node index with
  | nil => simpa [wayTo] using hat
  | cons next below ih =>
    obtain ⟨child, hchild, hbelow⟩ := Option.bind_eq_some_iff.mp hat
    have hrest := ih next hbelow
    obtain ⟨step, hlast, -⟩ := Option.map_eq_some_iff.mp hrest
    simp only [wayTo, hchild, List.getLast?_cons, hlast] at hrest ⊢
    exact hrest

/-- The address that a path leads to. -/
def addressOf (path : Path) : Address := path.tail.map Step.index

theorem addressOf_wayTo {node target : Node} {place : Address} (index : Nat)
    (hat : nodeAt? node place = some target) : addressOf (wayTo index node place) = place := by
  induction place generalizing node index with
  | nil => rfl
  | cons next below ih =>
    obtain ⟨child, hchild, hbelow⟩ := Option.bind_eq_some_iff.mp hat
    have hrest := ih next hbelow
    simp only [addressOf, wayTo, hchild, List.tail_cons] at hrest ⊢
    cases below <;> simp_all [wayTo]

/-- The path to a target leads to a template literal that covers an occurrence of it. -/
theorem pathToTarget?_spec {tree : Node} {target : List Char} {path : Path}
    (h : pathToTarget? source tree target = some path) :
    path = wayTo 0 tree (addressOf path) ∧
      ∃ template, nodeAt? tree (addressOf path) = some template ∧ template.kind = .template ∧
        ∃ found ∈ Text.occurrences target source,
          template.covers found (found + target.length) = true := by
  unfold pathToTarget? at h
  split at h
  · cases h
  obtain ⟨found, hfound, hpath⟩ := List.exists_of_findSome?_eq_some h
  obtain ⟨place, template, hat, hkind, hcovers, rfl⟩ := templatePath?_eq_some 0 _ hpath
  rw [addressOf_wayTo 0 hat]
  exact ⟨rfl, template, hat, hkind, found, hfound, hcovers⟩

/-- Whether something is true of the template literal that holds the target. -/
def anyTemplate (source target : List Char) (check : Parsed → Address → Node → Bool) : Bool :=
  (Resolver.ofSource source).parsed.any fun parsed =>
    (pathToTarget? parsed.source parsed.tree target).any fun path =>
      (nodeAt? parsed.tree (addressOf path)).any (check parsed (addressOf path))

theorem exists_of_anyTemplate {source target : List Char} {check : Parsed → Address → Node → Bool}
    (h : anyTemplate source target check = true) :
    ∃ parsed path template, (Resolver.ofSource source).parsed = some parsed ∧
      pathToTarget? parsed.source parsed.tree target = some path ∧
      nodeAt? parsed.tree (addressOf path) = some template ∧
      check parsed (addressOf path) template = true := by
  obtain ⟨parsed, hparsed, h⟩ := (Option.any_eq_true _ _).mp h
  obtain ⟨path, hpath, h⟩ := (Option.any_eq_true _ _).mp h
  obtain ⟨template, htemplate, h⟩ := (Option.any_eq_true _ _).mp h
  exact ⟨parsed, path, template, hparsed, hpath, htemplate, h⟩

/-- Whether the layers that a resolver knows are those of its tree. -/
def Resolver.Sound (resolver : Resolver) : Prop :=
  ∀ parsed, resolver.parsed = some parsed → Faithful parsed.source parsed.tree resolver.layers

theorem ofSource_sound (source : List Char) (reader : Reader) :
    (Resolver.ofSource source reader).Sound :=
  fun parsed _ => faithful_nil parsed.source parsed.tree

/-- Where a path leads to the target, the template literal at its end is located with the chain of
its address, and the resolver is as sound afterwards. -/
theorem locateTemplate?_spec {resolver : Resolver} {target : List Char} {parsed : Parsed}
    {path : Path} (hsound : resolver.Sound) (hparsed : resolver.parsed = some parsed)
    (hpath : pathToTarget? parsed.source parsed.tree target = some path) :
    ∃ template after, nodeAt? parsed.tree (addressOf path) = some template ∧
      template.kind = .template ∧
      resolver.locateTemplate? target =
        some (parsed, template, layersTo parsed.source parsed.tree (addressOf path), after) ∧
      after.Sound ∧ after.parsed = some parsed ∧ after.source = resolver.source := by
  obtain ⟨hway, template, hat, hkind, -⟩ := pathToTarget?_spec hpath
  have hend := getLast?_wayTo 0 hat
  rw [← hway] at hend
  obtain ⟨last, hlast, rfl⟩ := Option.map_eq_some_iff.mp hend
  obtain ⟨hchain, hfaithful⟩ :=
    chainAlong_wayTo (hsound _ hparsed) (show [] ++ [0] = 0 :: [] from rfl) rfl hat
  rw [← hway] at hchain hfaithful
  refine ⟨last.node, { resolver with
    layers := (Resolver.chainAlong parsed.source resolver.layers (addressed [] path)).2 },
    hat, hkind, ?_, fun other hother => ?_, hparsed, rfl⟩
  · simp only [Resolver.locateTemplate?, hparsed, hpath, hlast, Option.bind_eq_bind,
      Option.bind_some, hchain, layersTo, ← hway]
    rfl
  · obtain rfl := Option.some.inj (hparsed.symm.trans hother)
    exact hfaithful

end ReleasePrompts.Scope
