import Mathlib.Data.List.Find
import Mathlib.Data.List.Infix
import ReleasePrompts.Proofs.Scope.Chain
import ReleasePrompts.Proofs.Script.Nesting
import ReleasePrompts.Proofs.Text.Occurrences

/-!
# The search for a template literal

Two ways lead to the template literal that holds a text. A walk through the tree takes the first one
in pre-order (`firstAddress?`). A search by occurrences takes, for one occurrence after the other, the
deepest node around it and climbs from there to the outermost template literal (`climbToTarget?`).
In a tree with nested ranges both find the same one (`search_eq_walk`): of two nodes in pre-order the
second lies within the first or behind it, so no occurrence in a later template literal precedes all
those in an earlier one.
-/

namespace ReleasePrompts.Scope

open Script Text

/-! ## Addresses in pre-order -/

mutual

/-- No node is listed behind one that stands above or at its own address. -/
theorem pairwise_located : (node : Node) →
    (located node).Pairwise fun first second => ¬ second.1 <+: first.1
  | .mk kind start stop children => by
    rw [located]
    refine List.pairwise_cons.mpr ⟨fun second hsecond hprefix => ?_, pairwise_locatedAll 0 children⟩
    obtain ⟨i, child, below, -, hplace, -⟩ := (mem_locatedAll 0 children _ _).mp hsecond
    rw [hplace, List.prefix_nil] at hprefix
    cases hprefix

theorem pairwise_locatedAll (first : Nat) : (nodes : List Node) →
    (locatedAll first nodes).Pairwise fun first second => ¬ second.1 <+: first.1
  | [] => .nil
  | node :: nodes => by
    rw [locatedAll]
    refine List.pairwise_append.mpr ⟨?_, pairwise_locatedAll (first + 1) nodes, ?_⟩
    · refine List.pairwise_map.mpr ((pairwise_located node).imp fun h hprefix => h ?_)
      exact (List.cons_prefix_cons.mp hprefix).2
    · intro one hone other hother hprefix
      obtain ⟨entry, -, rfl⟩ := List.mem_map.mp hone
      obtain ⟨i, child, below, -, hplace, -⟩ := (mem_locatedAll _ nodes _ _).mp hother
      rw [hplace] at hprefix
      have hindex := (List.cons_prefix_cons.mp hprefix).1
      omega

end

/-- The nodes listed lie within those listed before or behind them. -/
theorem pairwise_ranges {tree : Node} (h : Nested tree) : (located tree).Pairwise fun first second =>
    first.2.covers second.2.start second.2.stop = true ∨ first.2.stop ≤ second.2.start := by
  have hpairs := h.pairwise_preorder
  rwa [← located_snd, List.pairwise_map] at hpairs

/-! ## One range -/

/-- Whether a node is a template literal around a range. -/
def isTemplateAround (start stop : Nat) (node : Node) : Bool :=
  node.kind == .template && node.covers start stop

mutual

/-- The way to the template literal around a range is the way to the first one in pre-order. -/
theorem indices_templatePath? (start stop : Nat) : (index : Nat) → (node : Node) → Nested node →
    (templatePath? start stop index node).map (List.map Step.index) =
      ((located node).find? fun entry => isTemplateAround start stop entry.2).map
        fun entry => index :: entry.1
  | index, .mk kind nodeStart nodeStop children, h => by
    have hall := indices_templatePathAmong? start stop 0 children fun child hchild => h.child hchild
    cases hcovers : (Node.mk kind nodeStart nodeStop children).covers start stop with
    | false =>
      -- nothing below covers a range that the node does not cover
      have hnone : (located (.mk kind nodeStart nodeStop children)).find?
          (fun entry => isTemplateAround start stop entry.2) = none := by
        refine List.find?_eq_none.mpr fun entry hentry haround => ?_
        have hbelow : entry.2 ∈ (Node.mk kind nodeStart nodeStop children).preorder := by
          rw [← located_snd]
          exact List.mem_map_of_mem hentry
        have := Node.covers_trans (h.covers _ hbelow) (Bool.and_eq_true_iff.mp haround).2
        rw [hcovers] at this
        cases this
      rw [hnone]
      simp [templatePath?, hcovers]
    | true =>
      rw [templatePath?, located, List.find?_cons]
      by_cases hkind : kind = .template
      · subst hkind
        have hhead : isTemplateAround start stop (.mk .template nodeStart nodeStop children) = true :=
          Bool.and_eq_true_iff.mpr ⟨rfl, hcovers⟩
        simp [hhead, hcovers]
      · have hhead : isTemplateAround start stop (.mk kind nodeStart nodeStop children) = false := by
          simp [isTemplateAround, Node.kind, hkind]
        have hrest := congrArg (Option.map (index :: ·)) hall
        simp only [Option.map_map] at hrest
        simpa [hhead, hcovers, hkind, Function.comp_def] using hrest

theorem indices_templatePathAmong? (start stop : Nat) : (first : Nat) → (nodes : List Node) →
    (∀ node ∈ nodes, Nested node) →
    (templatePathAmong? start stop first nodes).map (List.map Step.index) =
      ((locatedAll first nodes).find? fun entry => isTemplateAround start stop entry.2).map Prod.fst
  | first, [], _ => rfl
  | first, node :: nodes, h => by
    obtain ⟨hnode, hnodes⟩ := List.forall_mem_cons.mp h
    have hhead := indices_templatePath? start stop first node hnode
    have htail := indices_templatePathAmong? start stop (first + 1) nodes hnodes
    have hmap : ((located node).map (Prod.map (first :: ·) id)).find?
          (fun entry => isTemplateAround start stop entry.2) =
        ((located node).find? fun entry => isTemplateAround start stop entry.2).map
          (Prod.map (first :: ·) id) := List.find?_map
    rw [templatePathAmong?, locatedAll, List.find?_append, hmap]
    cases hfound : (located node).find? (fun entry => isTemplateAround start stop entry.2) with
    | none =>
      rw [hfound, Option.map_none, Option.map_eq_none_iff] at hhead
      simpa [hhead] using htail
    | some entry =>
      rw [hfound] at hhead
      obtain ⟨path, hpath, hindices⟩ := Option.map_eq_some_iff.mp hhead
      simp [hpath, hindices]

end

theorem addressOf_templatePath? {start stop : Nat} {tree : Node} (h : Nested tree) :
    (templatePath? start stop 0 tree).map addressOf =
      ((located tree).find? fun entry => isTemplateAround start stop entry.2).map Prod.fst := by
  have hindices := congrArg (Option.map List.tail)
    (indices_templatePath? start stop 0 tree h)
  simp only [Option.map_map] at hindices
  refine Eq.trans (Option.map_congr fun path _ => ?_) hindices
  simp [addressOf, List.map_tail]

/-! ## All occurrences -/

/-- Of some ranges in order the first one that an item holds leads to the first item that holds one
of them, where an item holds an earlier range too if a later item holds it. -/
theorem findSome?_find? {ρ ν : Type} {before : ρ → ρ → Prop} {ahead : ν → ν → Prop}
    (holds : ρ → ν → Bool) {ranges : List ρ} {items : List ν} (hranges : ranges.Pairwise before)
    (hitems : items.Pairwise ahead)
    (h : ∀ range range' item item', before range range' → ahead item item' →
      holds range item' = true → holds range' item = true → holds range item = true) :
    ranges.findSome? (fun range => items.find? (holds range)) =
      items.find? fun item => ranges.any fun range => holds range item := by
  induction ranges with
  | nil => exact (List.find?_eq_none.mpr fun _ _ => Bool.false_ne_true).symm
  | cons range ranges ih =>
    obtain ⟨hbefore, hranges⟩ := List.pairwise_cons.mp hranges
    rw [List.findSome?_cons]
    cases hfound : items.find? (holds range) with
    | none =>
      have hnone := List.find?_eq_none.mp hfound
      rw [ih hranges]
      refine List.find?_congr fun item hitem => ?_
      rw [List.any_cons, eq_false_of_ne_true (hnone item hitem), Bool.false_or]
    | some found =>
      obtain ⟨hholds, front, back, rfl, hfront⟩ := List.find?_eq_some_iff_append.mp hfound
      refine (List.find?_eq_some_iff_append.mpr ⟨by rw [List.any_cons, hholds, Bool.true_or],
        front, back, rfl, fun item hitem => ?_⟩).symm
      have hnot : holds range item = false := by simpa using hfront item hitem
      have hahead : ahead item found :=
        (List.pairwise_append.mp hitems).2.2 item hitem found List.mem_cons_self
      rw [List.any_cons, hnot, Bool.false_or, Bool.not_eq_true', List.any_eq_false]
      intro range' hrange' hlater
      have := h range range' item found (hbefore range' hrange') hahead hholds hlater
      rw [hnot] at this
      cases this

variable {α : Type} [DecidableEq α]

/-- Whether a node is a template literal whose text holds another. -/
def isTemplateHolding (text needle : List α) (node : Node) : Bool :=
  node.kind == .template && contains (slice text node.start node.stop) needle

/-- The address of the first template literal, each node before its children, whose text holds
another. -/
def firstAddress? (text : List α) (tree : Node) (needle : List α) : Option Address :=
  ((located tree).find? fun entry => isTemplateHolding text needle entry.2).map Prod.fst

theorem any_isTemplateAround {text needle : List α} (hne : needle ≠ []) (node : Node) :
    (occurrences needle text).any (fun place =>
      isTemplateAround place (place + needle.length) node) = isTemplateHolding text needle node := by
  refine Bool.eq_iff_iff.mpr ?_
  simp only [isTemplateAround, isTemplateHolding, List.any_eq_true, Bool.and_eq_true,
    contains_slice_iff hne, Node.covers_iff]
  constructor
  · rintro ⟨place, hplace, hkind, hcovers⟩
    exact ⟨hkind, place, hplace, hcovers⟩
  · rintro ⟨hkind, place, hplace, hcovers⟩
    exact ⟨place, hplace, hkind, hcovers⟩

/-- The first of the occurrences that a template literal covers leads to the first template literal
that holds the text. -/
theorem findSome?_occurrences {tree : Node} (h : Nested tree) {text needle : List α}
    (hne : needle ≠ []) :
    (occurrences needle text).findSome? (fun place =>
      ((located tree).find? fun entry =>
        isTemplateAround place (place + needle.length) entry.2).map Prod.fst) =
      firstAddress? text tree needle := by
  have hpos : 0 < needle.length := List.length_pos_iff.mpr hne
  have hexchange := findSome?_find?
    (fun place entry => isTemplateAround place (place + needle.length) entry.2)
    (pairwise_occurrences needle text) (pairwise_ranges h)
  rw [firstAddress?, ← funext fun entry : Address × Node => any_isTemplateAround hne entry.2,
    ← hexchange, List.map_findSome?]
  · rfl
  · intro place place' first second hlt hranges hsecond hfirst
    simp only [isTemplateAround, Bool.and_eq_true, Node.covers_iff] at hranges hsecond hfirst ⊢
    refine ⟨hfirst.1, ?_⟩
    omega

/-- The way that is found by occurrences leads to the first template literal that holds the text. -/
theorem addressOf_pathToTarget? {tree : Node} (h : Nested tree) (source : List Char)
    {target : List Char} (hne : target ≠ []) :
    (pathToTarget? source tree target).map addressOf = firstAddress? source tree target := by
  have hempty : target.isEmpty = false := by simpa using hne
  rw [pathToTarget?, hempty, if_neg Bool.false_ne_true, List.map_findSome?,
    ← findSome?_occurrences h hne]
  exact congrArg (List.findSome? · _) (funext fun place => addressOf_templatePath? h)

/-! ## Climbing from the deepest node -/

/-- Whether there is a node around a range at an address. -/
def Around (tree : Node) (start stop : Nat) (place : Address) : Prop :=
  ∃ node, nodeAt? tree place = some node ∧ node.covers start stop = true

/-- Whether the deepest node around a range is at an address. -/
def Deepest (tree : Node) (start stop : Nat) (place : Address) : Prop :=
  Around tree start stop place ∧ ∀ other, Around tree start stop other → other.length ≤ place.length

/-- Whether a function finds the deepest node around each range that is not empty and that a node is
around. -/
def Descends (tree : Node) (descend : Nat → Nat → Option Address) : Prop :=
  ∀ start stop, start < stop → (∃ place, Around tree start stop place) →
    ∃ place, descend start stop = some place ∧ Deepest tree start stop place

/-- The last template literal around a range that is met on the way up from an address. -/
def outermost? (tree : Node) (start stop : Nat) (place : Address) : Option Address :=
  place.inits.reverse.foldl (fun found above =>
    if (nodeAt? tree above).any (isTemplateAround start stop) then some above else found) none

/-- The template literal that is found by climbing from the deepest node around an occurrence, of
the occurrences one after the other. -/
def climbToTarget? (descend : Nat → Nat → Option Address) (text : List α) (tree : Node)
    (needle : List α) : Option Address :=
  if needle.isEmpty then none
  else (occurrences needle text).findSome? fun place =>
    (descend place (place + needle.length)).bind
      (outermost? tree place (place + needle.length))

theorem nested_of_nodeAt? {tree node : Node} (h : Nested tree) {place : Address}
    (hat : nodeAt? tree place = some node) : Nested node := by
  induction place generalizing tree with
  | nil => exact Option.some.inj hat ▸ h
  | cons index below ih =>
    obtain ⟨child, hchild, hbelow⟩ := Option.bind_eq_some_iff.mp hat
    exact ih (h.child (List.mem_of_getElem? hchild)) hbelow

theorem covers_of_nodeAt? {tree node : Node} (h : Nested tree) {place : Address}
    (hat : nodeAt? tree place = some node) : tree.covers node.start node.stop = true := by
  refine h.covers node ?_
  rw [← located_snd]
  exact List.mem_map_of_mem (f := Prod.snd) ((mem_located tree place node).mpr hat)

/-- The nodes around a range that is not empty stand on one way down. -/
theorem Around.prefix_or_prefix {tree : Node} (h : Nested tree) {start stop : Nat}
    (hlt : start < stop) {place other : Address} (hplace : Around tree start stop place)
    (hother : Around tree start stop other) : place <+: other ∨ other <+: place := by
  induction place generalizing tree other with
  | nil => exact .inl List.nil_prefix
  | cons index below ih =>
    cases other with
    | nil => exact .inr List.nil_prefix
    | cons index' below' =>
      obtain ⟨node, hat, hcovers⟩ := hplace
      obtain ⟨node', hat', hcovers'⟩ := hother
      obtain ⟨child, hchild, hbelow⟩ := Option.bind_eq_some_iff.mp hat
      obtain ⟨child', hchild', hbelow'⟩ := Option.bind_eq_some_iff.mp hat'
      have hnested := h.child (List.mem_of_getElem? hchild)
      have hspan := Node.covers_iff.mp
        (Node.covers_trans (covers_of_nodeAt? hnested hbelow) hcovers)
      have hspan' := Node.covers_iff.mp (Node.covers_trans
        (covers_of_nodeAt? (h.child (List.mem_of_getElem? hchild')) hbelow') hcovers')
      -- siblings are apart, so both ways go through the same child
      have happart : ∀ {i j : Nat} {first second : Node}, i < j →
          tree.children[i]? = some first → tree.children[j]? = some second →
            first.stop ≤ second.start := by
        intro i j first second hij hfirst hsecond
        obtain ⟨hi, rfl⟩ := List.getElem?_eq_some_iff.mp hfirst
        obtain ⟨hj, rfl⟩ := List.getElem?_eq_some_iff.mp hsecond
        exact List.pairwise_iff_getElem.mp (h.apart tree (Node.mem_preorder_self tree)) i j hi hj hij
      obtain hlt' | rfl | hlt' := Nat.lt_trichotomy index index'
      · have := happart hlt' hchild hchild'
        omega
      · obtain rfl := Option.some.inj (hchild.symm.trans hchild')
        simp only [List.cons_prefix_cons, true_and]
        exact ih hnested ⟨node, hbelow, hcovers⟩ ⟨node', hbelow', hcovers'⟩
      · have := happart hlt' hchild' hchild
        omega

theorem Deepest.prefix_of_around {tree : Node} (h : Nested tree) {start stop : Nat}
    (hlt : start < stop) {deepest place : Address} (hdeepest : Deepest tree start stop deepest)
    (hplace : Around tree start stop place) : place <+: deepest := by
  obtain hp | hp := hplace.prefix_or_prefix h hlt hdeepest.1
  · exact hp
  · rw [hp.eq_of_length (Nat.le_antisymm hp.length_le (hdeepest.2 place hplace))]

theorem foldr_eq_find? {β : Type} (p : β → Bool) (xs : List β) :
    xs.foldr (fun x found => if p x then some x else found) none = xs.find? p := by
  induction xs with
  | nil => rfl
  | cons x xs ih =>
    rw [List.foldr_cons, ih, List.find?_cons]
    cases p x <;> rfl

theorem outermost?_eq_find? (tree : Node) (start stop : Nat) (place : Address) :
    outermost? tree start stop place =
      place.inits.find? fun above => (nodeAt? tree above).any (isTemplateAround start stop) := by
  rw [outermost?, List.foldl_reverse]
  exact foldr_eq_find? _ _

theorem pairwise_inits {β : Type} (xs : List β) :
    xs.inits.Pairwise fun upper lower => upper <+: lower ∧ upper ≠ lower := by
  induction xs with
  | nil => simp
  | cons x xs ih =>
    rw [List.inits_cons, List.pairwise_cons, List.pairwise_map]
    refine ⟨fun lower hlower => ⟨List.nil_prefix, fun heq => ?_⟩, ih.imp fun ⟨hp, hne⟩ =>
      ⟨List.cons_prefix_cons.mpr ⟨rfl, hp⟩, fun heq => hne (List.cons.inj heq).2⟩⟩
    obtain ⟨rest, -, rfl⟩ := List.mem_map.mp hlower
    cases heq

/-- From the deepest node around a range the way up leads to the first template literal around it in
pre-order. -/
theorem outermost?_of_deepest {tree : Node} (h : Nested tree) {start stop : Nat}
    (hlt : start < stop) {deepest : Address} (hdeepest : Deepest tree start stop deepest) :
    outermost? tree start stop deepest =
      ((located tree).find? fun entry => isTemplateAround start stop entry.2).map Prod.fst := by
  rw [outermost?_eq_find?]
  have hmem : ∀ {place node}, nodeAt? tree place = some node →
      isTemplateAround start stop node = true → place ∈ deepest.inits := by
    intro place node hat haround
    exact (List.mem_inits _ _).mpr (hdeepest.prefix_of_around h hlt
      ⟨node, hat, (Bool.and_eq_true_iff.mp haround).2⟩)
  cases hfound : (located tree).find? (fun entry => isTemplateAround start stop entry.2) with
  | none =>
    refine List.find?_eq_none.mpr fun above _ habove => ?_
    obtain ⟨node, hat, haround⟩ := (Option.any_eq_true _ _).mp habove
    exact List.find?_eq_none.mp hfound _ ((mem_located tree above node).mpr hat) haround
  | some entry =>
    obtain ⟨place, node⟩ := entry
    obtain ⟨haround, front, back, hlist, hfront⟩ := List.find?_eq_some_iff_append.mp hfound
    have hat : nodeAt? tree place = some node := by
      rw [← mem_located, hlist]
      simp
    obtain ⟨above, below, hinits⟩ := List.append_of_mem (hmem hat haround)
    refine List.find?_eq_some_iff_append.mpr ⟨by simpa [hat] using haround, above, below, hinits,
      fun upper hupper => ?_⟩
    -- a template literal further up would be listed before
    have hupper' : upper <+: place ∧ upper ≠ place :=
      (List.pairwise_append.mp (hinits ▸ pairwise_inits deepest)).2.2 upper hupper place
        List.mem_cons_self
    rw [Bool.not_eq_true', Option.any_eq_false]
    intro other hother
    have hlisted := (mem_located tree upper other).mpr hother
    rw [hlist, List.mem_append, List.mem_cons] at hlisted
    obtain hlisted | heq | hlisted := hlisted
    · simpa using hfront _ hlisted
    · exact absurd (congrArg Prod.fst heq) hupper'.2
    · have hpairs := pairwise_located tree
      rw [hlist] at hpairs
      have hback := (List.pairwise_append.mp hpairs).2.1
      exact absurd hupper'.1 ((List.pairwise_cons.mp hback).1 _ hlisted)

/-- The way up from the deepest node around each occurrence leads to the first template literal that
holds the text. -/
theorem climbToTarget?_eq {tree : Node} (h : Nested tree) {descend : Nat → Nat → Option Address}
    (hdescend : Descends tree descend) {text needle : List α} (hne : needle ≠ []) :
    climbToTarget? descend text tree needle = firstAddress? text tree needle := by
  have hempty : needle.isEmpty = false := by simpa using hne
  have hpos : 0 < needle.length := List.length_pos_iff.mpr hne
  rw [climbToTarget?, hempty, if_neg Bool.false_ne_true, ← findSome?_occurrences h hne]
  refine congrArg (List.findSome? · _) (funext fun place => ?_)
  have hlt : place < place + needle.length := by omega
  by_cases haround : ∃ address, Around tree place (place + needle.length) address
  · obtain ⟨deepest, hfound, hdeepest⟩ := hdescend place _ hlt haround
    rw [hfound, Option.bind_some, outermost?_of_deepest h hlt hdeepest]
  · -- around the occurrence there is no node at all
    have hnone : ∀ address node, nodeAt? tree address = some node →
        isTemplateAround place (place + needle.length) node = false := by
      intro address node hat
      refine eq_false_of_ne_true fun htemplate => haround ⟨address, node, hat, ?_⟩
      exact (Bool.and_eq_true_iff.mp htemplate).2
    have hlisted : (located tree).find?
        (fun entry => isTemplateAround place (place + needle.length) entry.2) = none := by
      refine List.find?_eq_none.mpr fun entry hentry => ?_
      rw [hnone entry.1 entry.2 ((mem_located tree _ _).mp hentry)]
      exact Bool.false_ne_true
    have hclimb : ∀ address, outermost? tree place (place + needle.length) address = none := by
      intro address
      rw [outermost?_eq_find?]
      refine List.find?_eq_none.mpr fun above _ habove => ?_
      obtain ⟨node, hat, htemplate⟩ := (Option.any_eq_true _ _).mp habove
      rw [hnone above node hat] at htemplate
      cases htemplate
    rw [hlisted, Option.map_none, Option.bind_eq_none_iff]
    exact fun address _ => hclimb address

/-! ## Descending -/

mutual

/-- Goes down from a node to the deepest one around a range. -/
def deepest? (start stop : Nat) : Node → Option Address
  | .mk kind nodeStart nodeStop children =>
    if (Node.mk kind nodeStart nodeStop children).covers start stop then
      some ((deepestAmong? start stop 0 children).getD [])
    else none

/-- Goes down through the first of several siblings that is around a range. -/
def deepestAmong? (start stop index : Nat) : List Node → Option Address
  | [] => none
  | node :: nodes =>
    match deepest? start stop node with
    | some below => some (index :: below)
    | none => deepestAmong? start stop (index + 1) nodes

end

mutual

/-- Where a node is around a range, so is the one that the way down leads to, but none of its
children. -/
theorem deepest?_spec (start stop : Nat) : (node : Node) → node.covers start stop = true →
    ∃ place target, deepest? start stop node = some place ∧ nodeAt? node place = some target ∧
      target.covers start stop = true ∧ ∀ child ∈ target.children, child.covers start stop = false
  | .mk kind nodeStart nodeStop children, hcovers => by
    rw [deepest?, if_pos hcovers]
    obtain ⟨hnone, hchildren⟩ | ⟨i, child, below, target, hchild, heq, hbelow, hspec⟩ :=
      deepestAmong?_spec start stop 0 children
    · rw [hnone]
      exact ⟨[], _, rfl, rfl, hcovers, hchildren⟩
    · rw [heq, Nat.zero_add]
      refine ⟨i :: below, target, rfl, (nodeAt?_cons ?_ below).trans hbelow, hspec⟩
      exact hchild

theorem deepestAmong?_spec (start stop : Nat) : (first : Nat) → (nodes : List Node) →
    (deepestAmong? start stop first nodes = none ∧
      ∀ node ∈ nodes, node.covers start stop = false) ∨
    ∃ i child below target, nodes[i]? = some child ∧
      deepestAmong? start stop first nodes = some ((first + i) :: below) ∧
      nodeAt? child below = some target ∧ target.covers start stop = true ∧
      ∀ child ∈ target.children, child.covers start stop = false
  | _, [] => .inl ⟨rfl, by simp⟩
  | first, node :: nodes => by
    cases hcovers : node.covers start stop with
    | true =>
      obtain ⟨below, target, heq, hbelow, hspec⟩ := deepest?_spec start stop node hcovers
      exact .inr ⟨0, node, below, target, rfl, by rw [deepestAmong?, heq]; rfl, hbelow, hspec⟩
    | false =>
      have hnone : deepest? start stop node = none := by
        cases node
        rw [deepest?, if_neg (by rw [hcovers]; exact Bool.false_ne_true)]
      rw [deepestAmong?, hnone]
      obtain ⟨heq, hchildren⟩ | ⟨i, child, below, target, hchild, heq, hspec⟩ :=
        deepestAmong?_spec start stop (first + 1) nodes
      · refine .inl ⟨heq, List.forall_mem_cons.mpr ⟨hcovers, hchildren⟩⟩
      · refine .inr ⟨i + 1, child, below, target, hchild, ?_, hspec⟩
        rw [show first + (i + 1) = first + 1 + i by omega]
        exact heq

end

/-- Going down through the children finds the deepest node. -/
theorem descends_deepest? {tree : Node} (h : Nested tree) :
    Descends tree fun start stop => deepest? start stop tree := by
  rintro start stop hlt ⟨upper, node, hupper, hcovers⟩
  obtain ⟨place, target, hplace, hat, htarget, hchildren⟩ :=
    deepest?_spec start stop tree (Node.covers_trans (covers_of_nodeAt? h hupper) hcovers)
  have haround : Around tree start stop place := ⟨target, hat, htarget⟩
  refine ⟨place, hplace, haround, fun other hother => ?_⟩
  obtain hp | ⟨below, rfl⟩ := hother.prefix_or_prefix h hlt haround
  · exact hp.length_le
  · -- below the target no node is around the range
    obtain ⟨inner, hinner, hcovers⟩ := hother
    rw [nodeAt?_append, hat, Option.bind_some] at hinner
    cases below with
    | nil => simp
    | cons index below =>
      obtain ⟨child, hchild, hbelow⟩ := Option.bind_eq_some_iff.mp hinner
      have hnested := nested_of_nodeAt? h hat
      have hmem := List.mem_of_getElem? hchild
      have := Node.covers_trans (covers_of_nodeAt? (hnested.child hmem) hbelow) hcovers
      rw [hchildren child hmem] at this
      cases this

/-! ## Both ways -/

theorem firstAddress?_bind {source target : List Char} {tree : Node} :
    (firstAddress? source tree target).bind (nodeAt? tree) = firstTemplate? source tree target := by
  have hfirst : firstTemplate? source tree target =
      ((located tree).find? fun entry => isTemplateHolding source target entry.2).map Prod.snd := by
    rw [firstTemplate?, ← located_snd, List.find?_map]
    rfl
  rw [hfirst, firstAddress?]
  cases hfound : (located tree).find? (fun entry => isTemplateHolding source target entry.2) with
  | none => rfl
  | some entry => exact (mem_located tree _ _).mp (List.mem_of_find?_eq_some hfound)

/-- In a tree with nested ranges the search by occurrences, which climbs from the deepest node around
each, finds the first template literal in pre-order that holds the text; the texts may be of
characters or of bytes. So does the search from above, which finds nothing just if no template
literal holds the text. -/
theorem search_eq_walk {tree : Node} (hnested : Nested tree) {descend : Nat → Nat → Option Address}
    (hdescend : Descends tree descend) :
    (∀ {α : Type} [DecidableEq α] (text needle : List α), needle ≠ [] →
      climbToTarget? descend text tree needle = firstAddress? text tree needle) ∧
    ∀ source target : List Char, target ≠ [] →
      pathToTarget? source tree target =
          (climbToTarget? descend source tree target).map (wayTo 0 tree) ∧
        (climbToTarget? descend source tree target).bind (nodeAt? tree) =
          firstTemplate? source tree target ∧
        (pathToTarget? source tree target = none ↔
          ∀ node ∈ tree.preorder, node.kind = .template → ¬ target <:+: textOf source node) := by
  have hclimb : ∀ {α : Type} [DecidableEq α] (text needle : List α), needle ≠ [] →
      climbToTarget? descend text tree needle = firstAddress? text tree needle :=
    fun text needle hne => climbToTarget?_eq hnested hdescend hne
  refine ⟨hclimb, fun source target hne => ?_⟩
  have haddress := addressOf_pathToTarget? hnested source hne
  rw [hclimb source target hne, ← haddress]
  refine ⟨?_, ?_, ?_⟩
  · cases hpath : pathToTarget? source tree target with
    | none => rfl
    | some path => exact congrArg some (pathToTarget?_spec hpath).1
  · rw [haddress, firstAddress?_bind]
  · rw [← Option.map_eq_none_iff (f := addressOf), haddress, firstAddress?, Option.map_eq_none_iff,
      List.find?_eq_none, ← located_snd, List.forall_mem_map]
    refine forall₂_congr fun entry _ => ?_
    rw [isTemplateHolding, Bool.and_eq_true, not_and, beq_iff_eq, contains_iff]
    rfl

/-- A script in which a text occurs in a string, in a template literal, and in another around that. -/
def nestedSource : List Char := "g(\"T\",`a $\x7bh(`T`)\x7d T`)".toList

/-- The outer template literal is found from the occurrence in the inner one. -/
theorem search_eq_walk_nested :
    ∃ parsed, (Resolver.ofSource nestedSource).parsed = some parsed ∧ Nested parsed.tree ∧
      (Descends parsed.tree fun start stop => deepest? start stop parsed.tree) ∧
      climbToTarget? (fun start stop => deepest? start stop parsed.tree) parsed.source parsed.tree
        "T".toList = some [0, 0, 2] ∧
      pathToTarget? parsed.source parsed.tree "T".toList =
        some (wayTo 0 parsed.tree [0, 0, 2]) := by
  have hparsed : (Resolver.ofSource nestedSource).parsed.any (fun parsed =>
      decide (Nested parsed.tree) &&
        firstAddress? parsed.source parsed.tree "T".toList == some [0, 0, 2]) = true := by
    decide +kernel
  obtain ⟨parsed, hsome, hchecked⟩ := (Option.any_eq_true _ _).mp hparsed
  obtain ⟨hnested, hfirst⟩ := Bool.and_eq_true_iff.mp hchecked
  have hnested := of_decide_eq_true hnested
  have hdescend := descends_deepest? hnested
  have hne : "T".toList ≠ [] := by decide
  obtain ⟨hclimb, hpath⟩ := search_eq_walk hnested hdescend
  have hfound := (hclimb parsed.source _ hne).trans (beq_iff_eq.mp hfirst)
  refine ⟨parsed, hsome, hnested, hdescend, hfound, ?_⟩
  rw [(hpath parsed.source _ hne).1, hfound, Option.map_some]

end ReleasePrompts.Scope
