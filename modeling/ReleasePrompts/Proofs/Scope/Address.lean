import ReleasePrompts.Scope.Resolver
import Mathlib.Data.Nat.Find

/-!
# Addresses in a syntax tree

An address leads from the root of a tree down to a node (`nodeAt?`), and `located` lists the nodes
of a tree with their addresses in pre-order. The `home` of an address is the nearest node above it
of some kind, or the root: of two addresses on one way down the upper one stands at or below the
home of the lower one just if no node of that kind stands between them (`home_prefix_iff`).
-/

namespace ReleasePrompts.Scope

open Script

/-- The node at an address, which counts from the root of the tree. -/
def nodeAt? : Node → Address → Option Node
  | node, [] => some node
  | node, index :: below => node.children[index]?.bind fun child => nodeAt? child below

@[simp] theorem nodeAt?_nil (node : Node) : nodeAt? node [] = some node := rfl

theorem nodeAt?_cons {node child : Node} {index : Nat} (h : node.children[index]? = some child)
    (below : Address) : nodeAt? node (index :: below) = nodeAt? child below := by
  simp [nodeAt?, h]

theorem nodeAt?_append (tree : Node) (above below : Address) :
    nodeAt? tree (above ++ below) = (nodeAt? tree above).bind fun node => nodeAt? node below := by
  induction above generalizing tree with
  | nil => rfl
  | cons index above ih =>
    simp only [List.cons_append, nodeAt?, Option.bind_assoc]
    exact Option.bind_congr fun child _ => ih child

theorem nodeAt?_append_singleton {tree node : Node} {place : Address}
    (hat : nodeAt? tree place = some node) (index : Nat) :
    nodeAt? tree (place ++ [index]) = node.children[index]? := by
  simp [nodeAt?_append, hat, nodeAt?]

/-- Above a node there are nodes. -/
theorem exists_nodeAt?_of_prefix {tree node : Node} {above place : Address}
    (h : nodeAt? tree place = some node) (hp : above <+: place) :
    ∃ upper, nodeAt? tree above = some upper := by
  obtain ⟨below, rfl⟩ := hp
  rw [nodeAt?_append] at h
  obtain ⟨upper, hu, -⟩ := Option.bind_eq_some_iff.mp h
  exact ⟨upper, hu⟩

mutual

/-- The nodes of a tree with their addresses, each before its children. -/
def located : Node → List (Address × Node)
  | .mk kind start stop children => ([], .mk kind start stop children) :: locatedAll 0 children

/-- The nodes of several sibling trees, the first of which has the given index. -/
def locatedAll (index : Nat) : List Node → List (Address × Node)
  | [] => []
  | node :: nodes =>
    (located node).map (Prod.map (index :: ·) id) ++ locatedAll (index + 1) nodes

end

mutual

theorem located_snd : (node : Node) → (located node).map Prod.snd = node.preorder
  | .mk kind start stop children => by
    simp only [located, Node.preorder, List.map_cons, locatedAll_snd 0 children]

theorem locatedAll_snd (index : Nat) :
    (nodes : List Node) → (locatedAll index nodes).map Prod.snd = Node.preorderAll nodes
  | [] => rfl
  | node :: nodes => by
    simp only [locatedAll, Node.preorderAll, List.map_append, List.map_map,
      ← located_snd node, locatedAll_snd (index + 1) nodes]
    rfl

end

mutual

/-- The nodes listed are those that stand somewhere. -/
theorem mem_located :
    (tree : Node) → (place : Address) → (node : Node) →
      ((place, node) ∈ located tree ↔ nodeAt? tree place = some node)
  | .mk kind start stop children, [], node => by
    have hall := mem_locatedAll 0 children
    simp only [located, List.mem_cons, Prod.mk.injEq, true_and, nodeAt?_nil, Option.some.injEq]
    refine ⟨fun h => h.elim Eq.symm fun hm => ?_, fun h => .inl h.symm⟩
    obtain ⟨i, child, below, -, hp, -⟩ := (hall [] node).mp hm
    cases hp
  | .mk kind start stop children, index :: below, node => by
    have hall := mem_locatedAll 0 children (index :: below) node
    simp only [located, List.mem_cons, Prod.mk.injEq, reduceCtorEq, false_and, false_or, hall,
      nodeAt?, Node.children, Option.bind_eq_some_iff]
    constructor
    · rintro ⟨i, child, rest, hc, hp, hm⟩
      obtain ⟨rfl, rfl⟩ := List.cons_eq_cons.mp hp
      exact ⟨child, by simpa using hc, hm⟩
    · rintro ⟨child, hc, hm⟩
      exact ⟨index, child, below, hc, by simp, hm⟩

theorem mem_locatedAll (first : Nat) :
    (nodes : List Node) → (place : Address) → (node : Node) →
      ((place, node) ∈ locatedAll first nodes ↔
        ∃ i child below, nodes[i]? = some child ∧ place = (first + i) :: below ∧
          nodeAt? child below = some node)
  | [], place, node => by simp [locatedAll]
  | head :: nodes, place, node => by
    have hhead := mem_located head
    have htail := mem_locatedAll (first + 1) nodes place node
    simp only [locatedAll, List.mem_append, htail, List.mem_map, Prod.map, id, Prod.mk.injEq,
      Prod.exists]
    constructor
    · rintro (⟨below, found, hm, rfl, rfl⟩ | ⟨i, child, below, hc, rfl, hm⟩)
      · exact ⟨0, head, below, rfl, rfl, (hhead below found).mp hm⟩
      · exact ⟨i + 1, child, below, by simpa using hc, by rw [Nat.add_assoc, Nat.add_comm 1], hm⟩
    · rintro ⟨_ | i, child, below, hc, rfl, hm⟩
      · obtain rfl : head = child := by simpa using hc
        exact .inl ⟨below, node, (hhead below node).mpr hm, rfl, rfl⟩
      · exact .inr ⟨i, child, below, by simpa using hc, by rw [Nat.add_assoc, Nat.add_comm 1], hm⟩

end

/-! ## The nearest node of a kind above an address -/

/-- Whether one of some nodes stands above an address, `depth` steps below the root. -/
def Meets (chosen : Node → Bool) (tree : Node) (place : Address) (depth : Nat) : Prop :=
  depth < place.length ∧ (nodeAt? tree (place.take depth)).any chosen = true

instance (chosen : Node → Bool) (tree : Node) (place : Address) :
    DecidablePred (Meets chosen tree place) :=
  fun _ => inferInstanceAs (Decidable (_ ∧ _))

/-- How deep the nearest of some nodes above an address stands: as deep as the root if there is
none. -/
def homeDepth (chosen : Node → Bool) (tree : Node) (place : Address) : Nat :=
  Nat.findGreatest (Meets chosen tree place) place.length

/-- The address of the nearest of some nodes above an address: of the root if there is none. -/
def home (chosen : Node → Bool) (tree : Node) (place : Address) : Address :=
  place.take (homeDepth chosen tree place)

variable {chosen : Node → Bool} {tree : Node} {place above : Address}

theorem meets_homeDepth (h : homeDepth chosen tree place ≠ 0) :
    Meets chosen tree place (homeDepth chosen tree place) :=
  Nat.findGreatest_of_ne_zero rfl h

theorem le_homeDepth {depth : Nat} (h : Meets chosen tree place depth) :
    depth ≤ homeDepth chosen tree place :=
  Nat.le_findGreatest (Nat.le_of_lt h.1) h

theorem homeDepth_le {other : Node} {place' : Address}
    (h : ∀ depth, Meets chosen tree place depth → Meets chosen other place' depth) :
    homeDepth chosen tree place ≤ homeDepth chosen other place' := by
  by_cases h0 : homeDepth chosen tree place = 0
  · omega
  · exact le_homeDepth (h _ (meets_homeDepth h0))

theorem home_prefix_self (chosen : Node → Bool) (tree : Node) (place : Address) :
    home chosen tree place <+: place :=
  List.take_prefix _ _

/-- The home is the root, or one of the chosen nodes that stands above. -/
theorem home_cases (chosen : Node → Bool) (tree : Node) (place : Address) :
    home chosen tree place = [] ∨
      home chosen tree place ≠ place ∧
        (nodeAt? tree (home chosen tree place)).any chosen = true := by
  by_cases h0 : homeDepth chosen tree place = 0
  · exact .inl (by simp [home, h0])
  · obtain ⟨hlt, hany⟩ := meets_homeDepth h0
    refine .inr ⟨fun heq => ?_, hany⟩
    have hlen := congrArg List.length heq
    simp only [home, List.length_take] at hlen
    omega

/-- One of the chosen nodes above an address stands at or above its home. -/
theorem prefix_home (h : above <+: place) (hne : above ≠ place)
    (hchosen : (nodeAt? tree above).any chosen = true) : above <+: home chosen tree place := by
  have hlt : above.length < place.length :=
    Nat.lt_of_le_of_ne h.length_le fun hlen => hne (h.eq_of_length hlen)
  have htake := List.prefix_iff_eq_take.mp h
  rw [htake]
  exact List.take_prefix_take_left (le_homeDepth ⟨hlt, htake ▸ hchosen⟩)

/-- Of two addresses on one way down the upper one stands at or below the home of the lower one just
if none of the chosen nodes stands between the two. -/
theorem home_prefix_iff (h : above <+: place) :
    home chosen tree place <+: above ↔
      ∀ depth, above.length < depth → ¬ Meets chosen tree place depth := by
  constructor
  · intro hp depth hd hm
    have hle := hp.length_le
    have hdepth := le_homeDepth hm
    have hlt := hm.1
    simp only [home, List.length_take] at hle
    omega
  · intro hnone
    have hle : homeDepth chosen tree place ≤ above.length := by
      by_contra hlt
      exact hnone _ (Nat.lt_of_not_le hlt) (meets_homeDepth (by omega))
    rw [List.prefix_iff_eq_take.mp h]
    exact List.take_prefix_take_left hle

/-- What stands directly below a node that is not chosen has the home of that node. -/
theorem home_append_singleton {node : Node} (hat : nodeAt? tree place = some node)
    (hnode : chosen node = false) (index : Nat) :
    home chosen tree (place ++ [index]) = home chosen tree place := by
  have htake : ∀ depth ≤ place.length, (place ++ [index]).take depth = place.take depth :=
    fun depth hle => List.take_append_of_le_length hle
  have hmeets : ∀ depth, Meets chosen tree (place ++ [index]) depth ↔
      Meets chosen tree place depth := fun depth => by
    rcases Nat.lt_trichotomy depth place.length with hlt | rfl | hlt
    · simp [Meets, htake depth (Nat.le_of_lt hlt), hlt, Nat.lt_succ_of_lt hlt]
    · simp [Meets, hat, hnode]
    · simp [Meets, Nat.not_lt.mpr (Nat.le_of_lt hlt), Nat.not_lt.mpr (Nat.succ_le_of_lt hlt)]
  have heq := Nat.le_antisymm (homeDepth_le fun depth => (hmeets depth).mp)
    (homeDepth_le fun depth => (hmeets depth).mpr)
  rw [home, home, heq]
  exact htake _ (Nat.findGreatest_le place.length)

end ReleasePrompts.Scope
