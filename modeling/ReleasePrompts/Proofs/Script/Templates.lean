import ReleasePrompts.Proofs.Script.Ahead
import ReleasePrompts.Proofs.Script.Nesting

/-!
# Template literals and their substitutions

The substitutions of a template literal stand behind the backtick that opens it (`Node.Opened`): they
are read after it, and what is read in between does not go back (`keeps_template`). No other production
makes template literals, so an expression keeps what its parts have.
-/

namespace ReleasePrompts.Script

open ReleasePrompts.Script.Parser

/-- Whether every template literal of a tree begins before its substitutions. -/
def Node.Opened (tree : Node) : Prop :=
  ∀ node ∈ tree.preorder, node.kind = .template → ∀ child ∈ node.children, node.start < child.start

/-- Whether the node of a phrase and the parameters it may be are opened. -/
structure Phrase.Opened (phrase : Phrase) : Prop where
  node : phrase.node.Opened
  parameters : ∀ nodes, phrase.reading.parameters = some nodes → ∀ node ∈ nodes, node.Opened

/-- Whether what a grammar reads is opened. -/
def Grammar.Opened (g : Grammar) : Prop :=
  ∀ rule lower, Keeps lower (g rule) Phrase.Opened

section

variable {kind : Kind} {start stop : Nat} {nodes : List Node}

theorem Node.opened_mk (h : ∀ node ∈ nodes, node.Opened)
    (hstart : kind = .template → ∀ node ∈ nodes, start < node.start) :
    (Node.mk kind start stop nodes).Opened := by
  intro node hnode hkind
  rw [preorder_eq, List.mem_cons, List.mem_flatMap] at hnode
  obtain rfl | ⟨child, hchild, hbelow⟩ := hnode
  · exact hstart hkind
  · exact h child hchild node hbelow hkind

theorem Node.forall_opened_one {first : Node} (h : first.Opened) : ∀ node ∈ [first], node.Opened :=
  List.forall_mem_singleton.mpr h

theorem Node.forall_opened_two {first second : Node} (h : first.Opened) (h' : second.Opened) :
    ∀ node ∈ [first, second], node.Opened :=
  List.forall_mem_cons.mpr ⟨h, forall_opened_one h'⟩

theorem Phrase.forall_opened_nodes {phrases : List Phrase}
    (h : ∀ phrase ∈ phrases, Phrase.Opened phrase) : ∀ node ∈ phrases.map Phrase.node, node.Opened :=
  List.forall_mem_map.mpr fun phrase hphrase => (h phrase hphrase).node

theorem Phrase.opened_of_node {node : Node} {reading : Reading} (h : node.Opened)
    (hnone : reading.parameters = none) : Phrase.Opened ⟨node, reading⟩ :=
  ⟨h, fun _ hsome => nomatch hnone.symm.trans hsome⟩

end

variable {g : Grammar} {lower : Nat} {kind : Kind} {start : Nat} {nodes : List Node}

/-! ## Nodes -/

theorem keeps_nodeFrom (hkind : kind ≠ .template) (h : ∀ node ∈ nodes, node.Opened) :
    Keeps lower (nodeFrom kind start nodes) Node.Opened :=
  .get fun _ _ => .pure (Node.opened_mk h fun heq => absurd heq hkind)

/-- A phrase that is a node of what was read and no parameters. -/
theorem keeps_phraseFrom {reading : Reading} (hkind : kind ≠ .template)
    (h : ∀ node ∈ nodes, node.Opened) (hnone : reading.parameters = none) :
    Keeps lower (do return ⟨← nodeFrom kind start nodes, reading⟩) Phrase.Opened :=
  (keeps_nodeFrom hkind h).bind fun _ hnode => .pure (Phrase.opened_of_node hnode hnone)

theorem keeps_leaf (hkind : kind ≠ .template) : Keeps lower (leaf kind) Node.Opened :=
  steady_next.bind fun _ => .pure (Node.opened_mk nofun fun heq => absurd heq hkind)

theorem keeps_commentsOfNext :
    Keeps lower commentsOfNext fun nodes => ∀ node ∈ nodes, node.Opened :=
  .get fun _ _ => .pure <| List.forall_mem_map.mpr fun _ _ => Node.opened_mk nofun nofun

theorem keeps_settle {phrase : Phrase} (h : phrase.Opened) :
    Keeps lower (settle phrase) Node.Opened := .ite (.pure h.node) .failure

theorem keeps_assignmentValue (hg : g.Opened) {inAllowed : Bool} :
    Keeps lower (assignmentValue g inAllowed) Node.Opened :=
  (hg _ _).bind fun _ hphrase => keeps_settle hphrase

/-- An optional item that is read behind a mark, and nothing without it. -/
theorem keeps_behind {token : Token} {α : Type} {item : Parser α} {P : α → Prop}
    (h : Keeps lower item P) :
    Keeps lower (do
      unless ← accept token do return none
      return some (← item)) fun read => ∀ one ∈ read, P one :=
  (steady_accept _).bind fun _ => .ite
    (h.bind fun _ hone => .found hone) (.pure nofun)

theorem keeps_expression (hg : g.Opened) {inAllowed : Bool} :
    Keeps lower (expression g inAllowed) Node.Opened :=
  steady_startOfNext.bind fun _ => (keeps_assignmentValue hg).bind fun _ hfirst =>
    (Keeps.collect (keeps_behind (keeps_assignmentValue hg))).bind fun _ hothers =>
      .ite (.pure hfirst) (keeps_nodeFrom nofun (List.forall_mem_cons.mpr ⟨hfirst, hothers⟩))

theorem keeps_condition (hg : g.Opened) : Keeps lower (condition g) Node.Opened :=
  (steady_expectMark _).bind fun _ => (keeps_expression hg).bind fun _ hnode =>
    (steady_expectMark _).bind fun _ => .pure hnode

theorem keeps_block (hg : g.Opened) : Keeps lower (block g) Node.Opened :=
  steady_startOfNext.bind fun _ => (steady_expectMark _).bind fun _ =>
    (Keeps.itemsUntil (hg _ _)).bind fun _ hstatements =>
      keeps_nodeFrom nofun (Phrase.forall_opened_nodes hstatements)

/-! ## Patterns, functions and classes -/

theorem keeps_identifier : Keeps lower identifier Node.Opened :=
  steady_peek.bind fun _ => .ite (keeps_leaf nofun) .failure

theorem keeps_computedKey (hg : g.Opened) : Keeps lower (computedKey g) Node.Opened :=
  steady_startOfNext.bind fun _ => (steady_expectMark _).bind fun _ =>
    (keeps_assignmentValue hg).bind fun _ hkey => (steady_expectMark _).bind fun _ =>
      keeps_nodeFrom nofun (Node.forall_opened_one hkey)

theorem keeps_memberKey (hg : g.Opened) : Keeps lower (memberKey g) Node.Opened :=
  steady_peek.bind fun lexeme => by
    split
    case h_5 => exact keeps_computedKey hg
    case h_6 => exact .failure
    all_goals exact keeps_leaf nofun

theorem keeps_bindingElement (hg : g.Opened) : Keeps lower (bindingElement g) Node.Opened :=
  steady_startOfNext.bind fun _ => (hg _ _).bind fun _ hleft => (steady_accept _).bind fun _ =>
    .ite ((keeps_assignmentValue hg).bind fun _ hright =>
      keeps_nodeFrom nofun (Node.forall_opened_two hleft.node hright)) (.pure hleft.node)

theorem keeps_restElement (hg : g.Opened) : Keeps lower (restElement g) Node.Opened :=
  steady_startOfNext.bind fun _ => (steady_expectMark _).bind fun _ =>
    keeps_commentsOfNext.bind fun _ hcomments => (hg _ _).bind fun _ hoperand =>
      keeps_nodeFrom nofun
        (List.forall_mem_append.mpr ⟨hcomments, Node.forall_opened_one hoperand.node⟩)

theorem keeps_arrayBindingElement (hg : g.Opened) :
    Keeps lower (arrayBindingElement g) Node.Opened :=
  steady_peek.bind fun lexeme => by
    split
    · exact .pure (Node.opened_mk nofun nofun)
    · exact keeps_restElement hg
    · exact keeps_bindingElement hg

theorem keeps_objectBindingElement (hg : g.Opened) :
    Keeps lower (objectBindingElement g) Node.Opened :=
  steady_peekTwo.bind fun _ => .ite (keeps_restElement hg) <| .ite
    (.bind (keeps_leaf nofun) fun _ hname => (steady_accept _).bind fun _ => .ite
      ((keeps_assignmentValue hg).bind fun _ hright =>
        keeps_nodeFrom nofun (Node.forall_opened_two hname hright)) (.pure hname)) <|
    (keeps_memberKey hg).bind fun _ hkey => (steady_expectMark _).bind fun _ =>
      (keeps_bindingElement hg).bind fun _ hvalue =>
        keeps_nodeFrom nofun (Node.forall_opened_two hkey hvalue)

theorem keeps_binding (hg : g.Opened) : Keeps lower (binding g) Phrase.Opened :=
  steady_peek.bind fun lexeme => by
    split
    · exact (steady_moveTo _).bind fun _ => (Keeps.commaList (keeps_arrayBindingElement hg)).bind
        fun ⟨_, _⟩ helements => keeps_phraseFrom nofun helements rfl
    · exact (steady_moveTo _).bind fun _ => (Keeps.commaList (keeps_objectBindingElement hg)).bind
        fun ⟨_, _⟩ helements => keeps_phraseFrom nofun helements rfl
    · exact keeps_identifier.bind fun _ hnode => .pure (Phrase.opened_of_node hnode rfl)

theorem keeps_formalParameters (hg : g.Opened) : Keeps lower (formalParameters g) Node.Opened :=
  steady_startOfNext.bind fun _ => (steady_expectMark _).bind fun _ =>
    (Keeps.commaList (steady_peek.bind fun _ =>
      .ite (keeps_restElement hg) (keeps_bindingElement hg))).bind fun ⟨_, _⟩ hparameters =>
        keeps_nodeFrom nofun hparameters

theorem keeps_functionFrom (hg : g.Opened) {form : FunctionForm} {before : List Node}
    (hbefore : ∀ node ∈ before, node.Opened) :
    Keeps lower (functionFrom g form start before) Node.Opened :=
  (keeps_formalParameters hg).bind fun _ hparameters => (keeps_block hg).bind fun _ hbody =>
    keeps_nodeFrom nofun
      (List.forall_mem_append.mpr ⟨hbefore, Node.forall_opened_two hparameters hbody⟩)

theorem keeps_ownName {named : Bool} :
    Keeps lower (ownName named) fun nodes => ∀ node ∈ nodes, node.Opened :=
  steady_peek.bind fun _ => .ite
    (.bind (keeps_leaf nofun) fun _ hname => .pure (Node.forall_opened_one hname))
    (.guard (.pure nofun))

theorem keeps_functionPhrase (hg : g.Opened) {named : Bool} {form : FunctionForm} :
    Keeps lower (functionPhrase g named form) Node.Opened :=
  steady_startOfNext.bind fun _ => (steady_accept _).bind fun _ => (steady_expectWord _).bind fun _ =>
    (steady_accept _).bind fun _ => keeps_ownName.bind fun _ hname => keeps_functionFrom hg hname

theorem steady_atFunction : Steady atFunction := fun _ => steady_peekTwo.bind fun _ => .pure trivial

theorem steady_memberModifier (words : List String) : Steady (memberModifier words) := fun _ =>
  steady_peekTwo.bind fun ⟨first, second⟩ => by
    dsimp only
    split
    · exact (steady_moveTo _).bind fun _ => .pure trivial
    · exact .ite ((steady_moveTo _).bind fun _ => .pure trivial) (.pure trivial)
    · exact .pure trivial

theorem steady_memberModifiers (words : List String) : Steady (memberModifiers words) := fun _ =>
  (steady_memberModifier words).collect.bind fun _ => .pure trivial

theorem keeps_decorator (hg : g.Opened) : Keeps lower (decorator g) Node.Opened := by
  refine steady_startOfNext.bind fun _ => (steady_expectMark _).bind fun _ => steady_peek.bind fun _ =>
    .ite ((keeps_condition hg).bind fun _ hinner =>
      keeps_nodeFrom nofun (Node.forall_opened_one hinner)) <|
    keeps_identifier.bind fun _ _ => Steady.bind
      (.collect fun _ => (steady_accept _).bind fun _ =>
        .ite (steady_next.bind fun lexeme => ?_) (.pure trivial)) fun _ => steady_peek.bind fun _ => .ite
      ((steady_moveTo _).bind fun _ => (Keeps.commaList ((steady_accept _).bind fun _ =>
        keeps_assignmentValue hg)).bind fun ⟨_, _⟩ harguments => keeps_nodeFrom nofun harguments)
      (keeps_nodeFrom nofun nofun)
  split
  · exact .pure trivial
  · exact .pure trivial
  · exact .failure

theorem keeps_decorators (hg : g.Opened) :
    Keeps lower (decorators g) fun nodes => ∀ node ∈ nodes, node.Opened :=
  .collect <| steady_peek.bind fun _ => .ite
    ((keeps_decorator hg).bind fun _ hnode => .found hnode)
    (.pure nofun)

theorem keeps_classElement (hg : g.Opened) {before : List Node}
    (hbefore : ∀ node ∈ before, node.Opened) :
    Keeps lower (classElement g start before) Node.Opened := by
  refine (steady_memberModifiers _).bind fun _ => (keeps_memberKey hg).bind fun key hkey =>
    steady_peek.bind fun _ => .ite (keeps_functionFrom hg
      (List.forall_mem_append.mpr ⟨hbefore, Node.forall_opened_one hkey⟩)) <|
    (steady_accept _).bind fun _ => ?_
  extract_lets rest
  have hrest : ∀ value, (∀ node ∈ value, Node.Opened node) → Keeps lower (rest value) Node.Opened :=
    fun value hvalue => .bind (keeps_nodeFrom nofun (List.forall_mem_append.mpr
      ⟨hbefore, List.forall_mem_cons.mpr ⟨hkey, hvalue⟩⟩)) fun _ hfield =>
        steady_semicolon.bind fun _ => .pure hfield
  exact .ite ((keeps_assignmentValue hg).bind fun _ hvalue => hrest _ (Node.forall_opened_one hvalue))
    (hrest _ nofun)

theorem keeps_classMember (hg : g.Opened) : Keeps lower (classMember g) Node.Opened :=
  steady_startOfNext.bind fun _ => (keeps_decorators hg).bind fun _ hbefore =>
    steady_peekTwo.bind fun ⟨_, _⟩ => .ite
      (.ite ((steady_moveTo _).bind fun _ => (keeps_block hg).bind fun _ hbody =>
          keeps_nodeFrom nofun (Node.forall_opened_one hbody)) <|
        .ite ((steady_moveTo _).bind fun _ => keeps_classElement hg hbefore)
          (keeps_classElement hg hbefore))
      (keeps_classElement hg hbefore)

theorem keeps_classPhrase (hg : g.Opened) {named declared : Bool} :
    Keeps lower (classPhrase g named declared) Node.Opened := by
  refine steady_startOfNext.bind fun _ => (keeps_decorators hg).bind fun before hbefore =>
    (steady_expectWord _).bind fun _ => keeps_ownName.bind fun name hname =>
      (steady_accept _).bind fun _ => ?_
  extract_lets rest
  have hmember : Keeps lower (do
      if ← accept (.mark ";") then return none
      return some (← classMember g)) fun member => ∀ node ∈ member, node.Opened :=
    (steady_accept _).bind fun _ => .ite (.pure nofun) <| (keeps_classMember hg).bind
      fun _ hmember => .found hmember
  have hrest : ∀ heritage, (∀ node ∈ heritage, Node.Opened node) →
      Keeps lower (rest heritage) Node.Opened :=
    fun heritage hheritage => (steady_expectMark _).bind fun _ => hmember.itemsUntil.bind
      fun members hmembers => keeps_nodeFrom nofun <| by
        simp only [List.forall_mem_append]
        refine ⟨⟨⟨hbefore, hname⟩, hheritage⟩, fun node hnode => ?_⟩
        obtain ⟨member, hmem, hsome⟩ := List.mem_filterMap.mp hnode
        exact hmembers member hmem node hsome
  exact .ite ((hg _ _).bind fun _ hphrase => (keeps_settle hphrase).bind fun _ hnode =>
    hrest _ (Node.forall_opened_one hnode)) (hrest _ nofun)

/-! ## Template literals -/

theorem keeps_substitution (hg : g.Opened) :
    Keeps lower (substitution g) fun node => node.Opened ∧ lower ≤ node.start :=
  .get fun _ hcursor => (steady_moveTo _).bind fun _ => (keeps_expression hg).bind fun _ hinner =>
    (steady_expectMark _).bind fun _ => .get fun _ _ =>
      .pure ⟨Node.opened_mk (Node.forall_opened_one hinner) nofun, hcursor⟩

theorem length_of_backtick {cs : List Char} {length : Nat}
    (h : readToken? cs = some (.backtick, length)) : length = 1 := by
  cases cs with
  | nil => cases h
  | cons c rest =>
    rw [readToken?] at h
    split at h
    · obtain ⟨_, -, heq⟩ := Option.map_eq_some_iff.mp h
      cases heq
    · split at h
      · cases h
        rfl
      · split at h
        · obtain ⟨_, -, heq⟩ := Option.map_eq_some_iff.mp h
          cases heq
        · split at h
          · dsimp only at h
            split at h <;> cases h
          · dsimp only at h
            split at h
            · cases h
            · obtain ⟨_, -, heq⟩ := Option.map_eq_some_iff.mp h
              cases heq

theorem run_peek (cursor : Cursor) :
    peek.run cursor = cursor.lexeme?.map fun lexeme => (lexeme, cursor) := by
  simp only [peek, StateT.run_bind, StateT.run_get, Option.pure_def, Option.bind_eq_bind,
    Option.bind_some]
  cases cursor.lexeme? <;> rfl

theorem run_expect (token : Token) (cursor : Cursor) :
    (expect token).run cursor = cursor.lexeme?.bind fun lexeme =>
      if lexeme.token = token then some ((), cursor.advance (lexeme.stop - cursor.place))
      else none := by
  simp only [expect, accept, StateT.run_bind, run_peek, Option.bind_eq_bind]
  cases cursor.lexeme? with
  | none => rfl
  | some lexeme =>
    rw [Option.map_some, Option.bind_some, Option.bind_some]
    dsimp only
    split <;> rfl

/-- Behind a backtick the places are those behind its own. -/
theorem keeps_behind_backtick {β : Type} {f : Nat → Parser β} {Q : β → Prop}
    (h : ∀ start, lower ≤ start → Keeps (start + 1) (f start) Q) :
    Keeps lower (startOfNext >>= fun start => expect .backtick >>= fun _ => f start) Q := by
  intro cursor hcursor read after hrun
  simp only [startOfNext, StateT.run_bind, run_peek, run_expect, Option.bind_eq_bind] at hrun
  cases hlexeme : cursor.lexeme? with
  | none =>
    rw [hlexeme] at hrun
    cases hrun
  | some lexeme =>
    simp only [hlexeme, Option.map_some, Option.bind_some, StateT.run_pure, Option.pure_def] at hrun
    split at hrun
    · next htoken =>
      obtain ⟨⟨token, length⟩, hread, rfl⟩ := Option.map_eq_some_iff.mp hlexeme
      obtain rfl : token = .backtick := htoken
      obtain rfl := length_of_backtick hread
      rw [Option.bind_some] at hrun
      have hplace : ∀ filler, cursor.place + filler + 1 ≤
          (cursor.advance (cursor.place + filler + 1 - cursor.place)).place := fun filler => by
        simp only [Cursor.advance]
        omega
      obtain ⟨hafter, hQ⟩ :=
        h _ (Nat.le_trans hcursor (Nat.le_add_right _ _)) _ (hplace _) read after hrun
      exact ⟨by omega, hQ⟩
    · cases hrun

/-- A template literal opens before its substitutions, since these are read behind its backtick. -/
theorem keeps_template (hg : g.Opened) : Keeps lower (template g) Node.Opened := by
  refine keeps_behind_backtick fun start _ => ?_
  refine (Keeps.collect (P := fun item => ∀ node ∈ item, Node.Opened node ∧ start < node.start)
    (.get fun cursor hcursor => ?_)).bind fun items hitems => .get fun _ _ => .pure ?_
  · have hset : ∀ count, Keeps (start + 1) (set (cursor.advance count)) fun _ => True :=
      fun count => .set (Nat.le_trans hcursor (Nat.le_add_right _ _))
    have hskip : ∀ item ∈ some (none : Option Node), ∀ node ∈ item,
        Node.Opened node ∧ start < node.start := by
      rintro _ ⟨⟩ _ ⟨⟩
    split
    · exact .failure
    · exact (hset _).bind fun _ _ => .pure nofun
    · refine (keeps_substitution hg).bind fun node hnode => .pure ?_
      rintro _ ⟨⟩ _ ⟨⟩
      exact hnode
    · split
      · exact (hset _).bind fun _ _ => .pure hskip
      · exact .failure
    · exact (hset _).bind fun _ _ => .pure hskip
  · have hnodes : ∀ node ∈ items.filterMap id, node.Opened ∧ start < node.start := fun node hnode => by
      obtain ⟨item, hitem, hsome⟩ := List.mem_filterMap.mp hnode
      exact hitems item hitem node hsome
    exact Node.opened_mk (fun node hnode => (hnodes node hnode).1)
      fun _ node hnode => (hnodes node hnode).2

/-! ## Expressions -/

theorem keeps_valueFrom (hkind : kind ≠ .template) (h : ∀ node ∈ nodes, node.Opened) :
    Keeps lower (valueFrom kind start nodes) Phrase.Opened := keeps_phraseFrom hkind h rfl

theorem keeps_regularExpression : Keeps lower regularExpression Node.Opened :=
  steady_peek.bind fun _ => (steady_moveTo _).bind fun _ => .get fun cursor hcursor => .guard <| by
    split
    · exact (Keeps.set (Nat.le_trans hcursor (Nat.le_trans (Nat.le_add_right _ _)
        (Nat.le_add_right _ _)))).bind fun _ _ => keeps_nodeFrom nofun nofun
    · exact .failure

theorem keeps_spreadElement (hg : g.Opened) : Keeps lower (spreadElement g) Phrase.Opened :=
  steady_startOfNext.bind fun _ => (steady_expectMark _).bind fun _ =>
    keeps_commentsOfNext.bind fun _ hcomments => (hg _ _).bind fun _ hoperand =>
      keeps_phraseFrom nofun
        (List.forall_mem_append.mpr ⟨hcomments, Node.forall_opened_one hoperand.node⟩) rfl

theorem keeps_listItem (hg : g.Opened) : Keeps lower (listItem g) Phrase.Opened :=
  steady_peek.bind fun _ => .ite (keeps_spreadElement hg) (hg _ _)

theorem keeps_parenthesized (hg : g.Opened) : Keeps lower (parenthesized g) Phrase.Opened :=
  steady_startOfNext.bind fun _ => (steady_expectMark _).bind fun _ =>
    (Keeps.commaList (keeps_listItem hg)).bind fun ⟨items, _⟩ hitems =>
      .bind (keeps_nodeFrom nofun (Phrase.forall_opened_nodes hitems)) fun _ hnode =>
        .pure ⟨hnode, fun nodes hnodes => by
          dsimp only at hnodes
          split at hnodes
          · cases hnodes
            exact Phrase.forall_opened_nodes hitems
          · cases hnodes⟩

theorem keeps_arrayElement (hg : g.Opened) : Keeps lower (arrayElement g) Phrase.Opened :=
  steady_peek.bind fun _ => .ite (.pure (Phrase.opened_of_node (Node.opened_mk nofun nofun) rfl))
    (keeps_listItem hg)

theorem keeps_arrayLiteral (hg : g.Opened) : Keeps lower (arrayLiteral g) Phrase.Opened :=
  steady_startOfNext.bind fun _ => (steady_expectMark _).bind fun _ =>
    (Keeps.commaList (keeps_arrayElement hg)).bind fun ⟨_, _⟩ helements =>
      keeps_phraseFrom nofun (Phrase.forall_opened_nodes helements) rfl

theorem keeps_objectElement (hg : g.Opened) : Keeps lower (objectElement g) Phrase.Opened :=
  steady_startOfNext.bind fun _ => steady_peek.bind fun _ => .ite (keeps_spreadElement hg) <|
    (steady_memberModifiers _).bind fun _ => steady_peekTwo.bind fun ⟨_, _⟩ => .ite
      (.guard <| .bind (keeps_leaf nofun) fun _ hname => (steady_accept _).bind fun _ => .ite
        ((keeps_assignmentValue hg).bind fun _ hright =>
          keeps_phraseFrom nofun (Node.forall_opened_two hname hright) rfl)
        (.pure (Phrase.opened_of_node hname rfl))) <|
      (keeps_memberKey hg).bind fun _ hkey => steady_peek.bind fun _ => .ite
        ((keeps_functionFrom hg (Node.forall_opened_one hkey)).bind fun _ hnode =>
          .pure (Phrase.opened_of_node hnode rfl)) <|
        .guard <| (steady_expectMark _).bind fun _ => (hg _ _).bind fun _ hvalue =>
          keeps_phraseFrom nofun (Node.forall_opened_two hkey hvalue.node) rfl

theorem keeps_objectLiteral (hg : g.Opened) : Keeps lower (objectLiteral g) Phrase.Opened :=
  steady_startOfNext.bind fun _ => (steady_expectMark _).bind fun _ =>
    (Keeps.commaList (keeps_objectElement hg)).bind fun ⟨_, _⟩ helements =>
      keeps_phraseFrom nofun (Phrase.forall_opened_nodes helements) rfl

theorem keeps_arguments (hg : g.Opened) :
    Keeps lower (arguments g) fun phrases => ∀ phrase ∈ phrases, Phrase.Opened phrase :=
  (steady_expectMark _).bind fun _ => (Keeps.commaList (keeps_listItem hg)).bind
    fun ⟨_, _⟩ hitems => .pure hitems

/-- The values of arguments. -/
theorem keeps_settleAll {phrases : List Phrase} (h : ∀ phrase ∈ phrases, Phrase.Opened phrase) :
    Keeps lower (phrases.mapM settle) fun nodes => ∀ node ∈ nodes, node.Opened :=
  .mapM fun phrase hphrase => keeps_settle (h phrase hphrase)

theorem keeps_memberName : Keeps lower suffix.memberName Node.Opened :=
  steady_peek.bind fun lexeme => by
    split
    · exact keeps_leaf nofun
    · exact keeps_leaf nofun
    · exact .failure

theorem keeps_indexed (hg : g.Opened) : Keeps lower (suffix.indexed g) Node.Opened :=
  (steady_expectMark _).bind fun _ => (keeps_expression hg).bind fun _ hindex =>
    (steady_expectMark _).bind fun _ => .pure hindex

theorem keeps_suffix (hg : g.Opened) {called : Bool} {operand : Phrase} (hoperand : operand.Opened) :
    Keeps lower (suffix g called start operand) fun read => ∀ phrase ∈ read, Phrase.Opened phrase := by
  have hmember {left other : Node} (hleft : left.Opened) (hother : other.Opened) :
      Keeps lower (do return some ⟨← nodeFrom .phrase start [left, other], memberReading⟩)
        fun read => ∀ phrase ∈ read, Phrase.Opened phrase :=
    .bind (keeps_nodeFrom nofun (Node.forall_opened_two hleft hother)) fun _ hnode =>
      .found (Phrase.opened_of_node hnode rfl)
  have hleft : Keeps lower (settle operand) Node.Opened := keeps_settle hoperand
  refine steady_peek.bind fun lexeme => ?_
  split
  · -- a member behind a point
    exact hleft.bind fun _ hleft => (steady_moveTo _).bind fun _ => keeps_memberName.bind
      fun _ hname => hmember hleft hname
  · -- what stands behind a point that may be reached in vain
    refine .guard <| hleft.bind fun left hleft => (steady_moveTo _).bind fun _ =>
      steady_peek.bind fun _ => ?_
    split
    · exact (keeps_arguments hg).bind fun _ hitems => (keeps_settleAll hitems).bind fun _ hvalues =>
        .bind (keeps_valueFrom nofun (List.forall_mem_cons.mpr ⟨hleft, hvalues⟩)) fun _ hcall =>
          .found hcall
    · exact (keeps_indexed hg).bind fun _ hindex => hmember hleft hindex
    · exact keeps_memberName.bind fun _ hname => hmember hleft hname
  · -- an index
    exact hleft.bind fun _ hleft => (keeps_indexed hg).bind fun _ hindex => hmember hleft hindex
  · -- a call, or the parameters of an asynchronous arrow function
    refine .ite (.pure nofun) <| hleft.bind fun left hleft => (keeps_arguments hg).bind
      fun items hitems => .bind (keeps_nodeFrom nofun
        (List.forall_mem_cons.mpr ⟨hleft, Phrase.forall_opened_nodes hitems⟩)) fun node hnode => ?_
    refine .ite (.found ⟨hnode, ?_⟩) <|
      .guard (.found (Phrase.opened_of_node hnode rfl))
    rintro _ ⟨⟩
    exact Phrase.forall_opened_nodes hitems
  · -- a template that a function takes
    exact hleft.bind fun _ hleft => (keeps_template hg).bind fun _ hliteral =>
      .bind (keeps_valueFrom nofun (Node.forall_opened_two hleft hliteral)) fun _ hvalue =>
        .found hvalue
  · exact .pure nofun

theorem keeps_operandFrom (hg : g.Opened) {called : Bool} :
    Keeps lower (operandFrom g called) Phrase.Opened :=
  steady_startOfNext.bind fun _ => (hg _ _).bind fun _ hoperand =>
    .fold hoperand fun _ hphrase => keeps_suffix hg hphrase

theorem keeps_newExpression (hg : g.Opened) : Keeps lower (newExpression g) Phrase.Opened :=
  steady_startOfNext.bind fun _ => (steady_expectWord _).bind fun _ => (steady_accept _).bind fun _ =>
    .ite ((steady_expectWord _).bind fun _ => keeps_valueFrom nofun nofun) <|
    (keeps_operandFrom hg).bind fun _ hoperand => (keeps_settle hoperand).bind fun _ hcallee =>
      steady_peek.bind fun _ => .ite
        ((keeps_arguments hg).bind fun _ hitems => (keeps_settleAll hitems).bind fun _ hvalues =>
          keeps_valueFrom nofun (List.forall_mem_cons.mpr ⟨hcallee, hvalues⟩))
        (keeps_valueFrom nofun (Node.forall_opened_one hcallee))

theorem keeps_importExpression (hg : g.Opened) : Keeps lower (importExpression g) Phrase.Opened :=
  steady_startOfNext.bind fun _ => (steady_expectWord _).bind fun _ => (steady_accept _).bind fun _ =>
    .ite ((steady_expectWord _).bind fun _ => keeps_valueFrom nofun nofun) <|
    (keeps_arguments hg).bind fun _ hitems => (keeps_settleAll hitems).bind fun _ hvalues =>
      keeps_valueFrom nofun hvalues

/-- A node as a phrase that has a value. -/
theorem keeps_value {node : Parser Node} (h : Keeps lower node Node.Opened) :
    Keeps lower (do return ⟨← node, {}⟩) Phrase.Opened :=
  h.bind fun _ hnode => .pure (Phrase.opened_of_node hnode rfl)

theorem keeps_primary (hg : g.Opened) : Keeps lower (primary g) Phrase.Opened :=
  steady_peek.bind fun lexeme => by
    split
    any_goals exact keeps_value (keeps_leaf nofun)
    · exact keeps_value (keeps_template hg)
    · exact keeps_parenthesized hg
    · exact keeps_arrayLiteral hg
    · exact keeps_objectLiteral hg
    · exact keeps_value keeps_regularExpression
    · exact keeps_value keeps_regularExpression
    · exact hg _ _
    · exact keeps_value (keeps_classPhrase hg)
    · exact keeps_value (keeps_classPhrase hg)
    · exact keeps_newExpression hg
    · exact keeps_importExpression hg
    · refine steady_atFunction.bind fun _ => .ite (keeps_value (keeps_functionPhrase hg)) <|
        keeps_identifier.bind fun name hname => .pure ⟨hname, ?_⟩
      rintro _ ⟨⟩
      exact Node.forall_opened_one hname
    · exact .failure

theorem keeps_unary (hg : g.Opened) : Keeps lower (unary g) Phrase.Opened := by
  have hlexemes : Steady (peekTwo <|> do return (← peek, ⟨.finish, 0, 0, false⟩)) := fun _ =>
    .orElse (steady_peekTwo _) (steady_peek.bind fun _ => .pure trivial)
  refine hlexemes.bind fun ⟨first, second⟩ => .ite ?_ <| .ite ?_ ?_
  · exact (steady_moveTo _).bind fun _ => (hg _ _).bind fun _ hphrase =>
      (keeps_settle hphrase).bind fun _ hoperand =>
        keeps_valueFrom nofun (Node.forall_opened_one hoperand)
  · exact .guard (keeps_value (keeps_leaf nofun))
  · exact (keeps_operandFrom hg).bind fun _ hoperand => steady_peek.bind fun _ => .ite
      ((keeps_settle hoperand).bind fun _ hinner => (steady_moveTo _).bind fun _ =>
        keeps_valueFrom nofun (Node.forall_opened_one hinner))
      (.pure hoperand)

theorem keeps_conditional (hg : g.Opened) {inAllowed : Bool} :
    Keeps lower (conditional g inAllowed) Phrase.Opened := by
  have hothers : Keeps lower (collect do
      let lexeme ← peek
      unless isBinaryOperator inAllowed lexeme.token do return none
      moveTo lexeme.stop
      return some (← settle (← g .unary))) fun nodes => ∀ node ∈ nodes, node.Opened :=
    .collect <| steady_peek.bind fun _ => .ite
      ((steady_moveTo _).bind fun _ => (hg _ _).bind fun _ hphrase =>
        (keeps_settle hphrase).bind fun _ hnode =>
          .found hnode)
      (.pure nofun)
  refine steady_startOfNext.bind fun start => (hg _ _).bind fun first hfirst =>
    hothers.bind fun others hothers => ?_
  extract_lets rest
  have hrest : ∀ test, Phrase.Opened test → Keeps lower (rest test) Phrase.Opened :=
    fun test htest => steady_peek.bind fun _ => .ite
      ((keeps_settle htest).bind fun _ hcondition => (steady_expectMark _).bind fun _ =>
        (keeps_assignmentValue hg).bind fun _ hpositive => (steady_expectMark _).bind fun _ =>
          (keeps_assignmentValue hg).bind fun _ hnegative => keeps_valueFrom nofun
            (List.forall_mem_cons.mpr ⟨hcondition, Node.forall_opened_two hpositive hnegative⟩))
      (.pure htest)
  exact .ite (hrest _ hfirst) <| (keeps_settle hfirst).bind fun _ hleft =>
    .bind (keeps_valueFrom nofun (List.forall_mem_cons.mpr ⟨hleft, hothers⟩)) hrest

theorem keeps_arrowFrom (hg : g.Opened) {inAllowed : Bool} {parameters : List Node}
    (hparameters : ∀ node ∈ parameters, node.Opened) :
    Keeps lower (arrowFrom g inAllowed start parameters) Phrase.Opened := by
  refine .bind (keeps_nodeFrom nofun hparameters) fun list hlist =>
    (steady_expectMark _).bind fun _ => steady_peek.bind fun _ => ?_
  extract_lets rest
  have hrest : ∀ body, Node.Opened body → Keeps lower (rest body) Phrase.Opened :=
    fun body hbody => keeps_valueFrom nofun (Node.forall_opened_two hlist hbody)
  exact .ite ((keeps_block hg).bind hrest) ((keeps_assignmentValue hg).bind hrest)

theorem keeps_yieldExpression (hg : g.Opened) {inAllowed : Bool} :
    Keeps lower (yieldExpression g inAllowed) Phrase.Opened := by
  have hoperand : ∀ start, Keeps lower (do
      let operand ← assignmentValue g inAllowed
      valueFrom .phrase start [operand]) Phrase.Opened := fun _ =>
    (keeps_assignmentValue hg).bind fun _ hoperand =>
      keeps_valueFrom nofun (Node.forall_opened_one hoperand)
  exact steady_startOfNext.bind fun _ => (steady_expectWord _).bind fun _ => steady_peek.bind fun _ =>
    .ite ((steady_moveTo _).bind fun _ => hoperand _) <|
    .ite (hoperand _) (keeps_valueFrom nofun nofun)

theorem steady_atAsyncArrow : Steady atAsyncArrow := fun _ =>
  steady_peek.bind fun _ => .ite
    (.bind (.orElse (steady_peekThree _) (.pure trivial)) fun ⟨_, _, _⟩ _ => .pure trivial)
    (.pure trivial)

theorem keeps_assignment (hg : g.Opened) {inAllowed : Bool} :
    Keeps lower (assignment g inAllowed) Phrase.Opened := by
  refine steady_peek.bind fun first => .ite (keeps_yieldExpression hg) <|
    steady_atAsyncArrow.bind fun _ => .ite ?_ <| (keeps_conditional hg).bind fun left hleft =>
      steady_peek.bind fun lexeme => ?_
  · exact (steady_moveTo _).bind fun _ => keeps_identifier.bind fun _ hname =>
      keeps_arrowFrom hg (Node.forall_opened_one hname)
  · extract_lets reading kind rest
    have hkind : kind ≠ .template := by
      dsimp only [kind]
      split <;> nofun
    have hrest : Keeps lower (rest ()) Phrase.Opened := .ite
      ((steady_moveTo _).bind fun _ => (keeps_assignmentValue hg).bind fun _ hright =>
        keeps_phraseFrom nofun (Node.forall_opened_two hleft.node hright) rfl) <| .ite
      ((steady_moveTo _).bind fun _ => (keeps_assignmentValue hg).bind fun _ hright =>
        keeps_valueFrom hkind (Node.forall_opened_two hleft.node hright))
      (.pure hleft)
    split
    · split
      · next parameters hparameters =>
        exact .guard (keeps_arrowFrom hg (hleft.parameters _ hparameters))
      · exact hrest
    · exact hrest

end ReleasePrompts.Script
