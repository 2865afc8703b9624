import ReleasePrompts.Proofs.Script.Templates

/-!
# Template literals of sources

The productions of markup and of statements keep what those of expressions do, so in the syntax tree of
a source every template literal begins before its substitutions (`opened_of_parse?`).
-/

namespace ReleasePrompts.Script

open ReleasePrompts.Script.Parser

variable {g : Grammar} {lower : Nat} {start : Nat}

/-! ## Markup -/

theorem steady_expectChar (c : Char) : Steady (expectChar c) := fun _ =>
  steady_peek.bind fun _ => (steady_moveTo _).bind fun _ => .get fun _ hcursor =>
    .unless (.advance hcursor 1)

theorem steady_atChar (c : Char) : Steady (atChar c) := fun _ => .get fun _ _ => .pure trivial

theorem steady_markupWord : Steady markupWord := fun _ => steady_next.bind fun lexeme => by
  split
  · exact .get fun _ hcursor => .advance hcursor _
  · exact .failure

theorem steady_markupName : Steady markupName := fun _ =>
  steady_markupWord.bind fun _ => .bind (Steady.collect fun _ => steady_peek.bind fun _ => .ite
    ((steady_moveTo _).bind fun _ => steady_markupWord.bind fun _ => .pure trivial)
    (.pure trivial)).keeps fun _ _ => .pure trivial

theorem keeps_markupExpression (hg : g.Opened) : Keeps lower (markupExpression g) Node.Opened := by
  refine steady_startOfNext.bind fun start => (steady_expectMark _).bind fun _ =>
    (steady_accept _).bind fun _ => .ite (keeps_nodeFrom nofun nofun) <|
      (steady_accept _).bind fun _ => ?_
  extract_lets rest
  have hrest : ∀ inner, Node.Opened inner → Keeps lower (rest inner) Node.Opened :=
    fun inner hinner => (steady_expectMark _).bind fun _ =>
      keeps_nodeFrom nofun (Node.forall_opened_one hinner)
  exact .ite ((keeps_assignmentValue hg).bind hrest) ((keeps_expression hg).bind hrest)

theorem steady_markupStart : Steady markupString.markupStart := fun _ =>
  .get fun _ hcursor => (Keeps.advance hcursor _).bind fun _ _ => .pure trivial

theorem keeps_markupString : Keeps lower markupString Node.Opened := by
  refine steady_markupStart.bind fun start => .get fun cursor hcursor => ?_
  have hphrase {lower : Nat} : Keeps lower (nodeFrom .phrase start []) Node.Opened :=
    keeps_nodeFrom nofun nofun
  split
  · exact .failure
  · exact .unless <| .guard <| (Keeps.advance hcursor _).bind fun _ _ => hphrase

theorem keeps_markupAttribute (hg : g.Opened) :
    Keeps lower (markupAttribute g) fun nodes => ∀ node ∈ nodes, node.Opened := by
  have hone {item : Parser Node} (h : Keeps lower item Node.Opened) :
      Keeps lower (do return [← item]) fun nodes => ∀ node ∈ nodes, node.Opened :=
    h.bind fun _ hnode => .pure (Node.forall_opened_one hnode)
  exact steady_peek.bind fun _ => .ite (hone (keeps_markupExpression hg)) <|
    steady_markupName.bind fun _ => (steady_accept _).bind fun _ => .ite
      ((steady_atChar _).bind fun _ => .ite (hone (keeps_markupExpression hg)) <|
        (steady_atChar _).bind fun _ => .ite
          ((hg _ _).bind fun _ hphrase => .pure (Node.forall_opened_one hphrase.node))
          (hone keeps_markupString))
      (.pure nofun)

theorem keeps_markupChildren (hg : g.Opened) :
    Keeps lower (markupChildren g) fun nodes => ∀ node ∈ nodes, node.Opened := by
  refine (Keeps.collect (P := fun nodes => ∀ node ∈ nodes, Node.Opened node)
    (.get fun cursor hcursor => ?_)).bind fun children hchildren => .pure fun node hnode => ?_
  · split
    · exact .failure
    · exact .ite (.pure nofun) <| (hg _ _).bind fun _ hphrase =>
        .found (Node.forall_opened_one hphrase.node)
    · exact (keeps_markupExpression hg).bind fun _ hnode =>
        .found (Node.forall_opened_one hnode)
    · split
      · exact (Keeps.advance hcursor _).bind fun _ _ => .found nofun
      · exact .failure
    · exact .guard <| (Keeps.advance hcursor _).bind fun _ _ => .found nofun
  · obtain ⟨nodes, hnodes, hmem⟩ := List.mem_flatten.mp hnode
    exact hchildren nodes hnodes node hmem

theorem keeps_closed (hg : g.Opened) {attributes : List Node}
    (hattributes : ∀ node ∈ attributes, node.Opened) :
    Keeps lower (markupElement.closed g start attributes) Phrase.Opened := by
  refine (keeps_markupChildren hg).bind fun children hchildren => (steady_expectChar _).bind fun _ =>
    (steady_expectChar _).bind fun _ => (steady_atChar _).bind fun _ => ?_
  extract_lets rest
  have hrest : Keeps lower (rest ()) Phrase.Opened := (steady_expectChar _).bind fun _ =>
    keeps_valueFrom nofun (List.forall_mem_append.mpr ⟨hattributes, hchildren⟩)
  exact .ite hrest (steady_markupName.bind fun _ => hrest)

theorem keeps_markupElement (hg : g.Opened) : Keeps lower (markupElement g) Phrase.Opened := by
  have hattributes : Keeps lower (collect do
      if (← atChar '>') || (← atChar '/') then return none
      return some (← markupAttribute g)) fun items => ∀ nodes ∈ items, ∀ node ∈ nodes, node.Opened :=
    .collect <| (steady_atChar _).bind fun _ => (steady_atChar _).bind fun _ => .ite (.pure nofun) <|
      (keeps_markupAttribute hg).bind fun _ hnodes =>
        .found hnodes
  refine steady_startOfNext.bind fun _ => (steady_expectChar _).bind fun _ =>
    (steady_atChar _).bind fun _ => .ite
      ((steady_expectChar _).bind fun _ => keeps_closed hg nofun) <|
    steady_markupName.bind fun _ => hattributes.bind fun items hitems => ?_
  have hflat : ∀ node ∈ items.flatten, node.Opened := fun node hnode => by
    obtain ⟨nodes, hnodes, hmem⟩ := List.mem_flatten.mp hnode
    exact hitems nodes hnodes node hmem
  exact (steady_atChar _).bind fun _ => .ite
    ((steady_expectChar _).bind fun _ => (steady_expectChar _).bind fun _ =>
      keeps_valueFrom nofun hflat)
    ((steady_expectChar _).bind fun _ => keeps_closed hg hflat)

/-! ## Statements -/

theorem keeps_initialValue (hg : g.Opened) {inAllowed : Bool} :
    Keeps lower (initialValue g inAllowed) fun nodes => ∀ node ∈ nodes, node.Opened :=
  (steady_accept _).bind fun _ => .ite
    ((keeps_assignmentValue hg).bind fun _ hvalue => .pure (Node.forall_opened_one hvalue))
    (.pure nofun)

theorem keeps_declarator (hg : g.Opened) {inAllowed : Bool} :
    Keeps lower (declarator g inAllowed) Node.Opened :=
  steady_startOfNext.bind fun _ => (hg _ _).bind fun _ hleft => (keeps_initialValue hg).bind
    fun _ hvalue => keeps_nodeFrom nofun (List.forall_mem_cons.mpr ⟨hleft.node, hvalue⟩)

theorem keeps_moreDeclarators (hg : g.Opened) {inAllowed : Bool} :
    Keeps lower (moreDeclarators g inAllowed) fun nodes => ∀ node ∈ nodes, node.Opened :=
  .collect (keeps_behind (keeps_declarator hg))

theorem keeps_declarationStatement (hg : g.Opened) :
    Keeps lower (declarationStatement g) Node.Opened :=
  steady_next.bind fun _ => (keeps_declarator hg).bind fun _ hfirst =>
    (keeps_moreDeclarators hg).bind fun _ hothers => steady_semicolon.bind fun _ =>
      keeps_nodeFrom nofun (List.forall_mem_cons.mpr ⟨hfirst, hothers⟩)

theorem steady_resourcePlace? : Steady resourcePlace? := fun _ =>
  .bind (.orElse (steady_peekThree _) (.pure trivial)) fun ⟨_, _, _⟩ _ =>
    .ite (.pure trivial) (.ite (.pure trivial) (.pure trivial))

theorem keeps_resourceStatement (hg : g.Opened) :
    Keeps lower (resourceStatement g start) Node.Opened :=
  (keeps_declarator hg).bind fun _ hfirst => (keeps_moreDeclarators hg).bind fun _ hothers =>
    steady_semicolon.bind fun _ => keeps_nodeFrom nofun (List.forall_mem_cons.mpr ⟨hfirst, hothers⟩)

theorem steady_atDeclaration : Steady atDeclaration := fun _ =>
  steady_peekTwo.bind fun ⟨_, _⟩ => by
    dsimp only
    split <;> exact .pure trivial

theorem keeps_overItems (hg : g.Opened) : Keeps lower (overItems g) Node.Opened :=
  steady_next.bind fun _ => (keeps_expression hg).bind fun _ hitems =>
    (steady_expectMark _).bind fun _ => .pure hitems

theorem steady_atItemsWord : Steady atItemsWord := fun _ => steady_peek.bind fun _ => .pure trivial

theorem keeps_optionalUntil (hg : g.Opened) {close : String} :
    Keeps lower (conditionAndStep.optionalUntil g close) fun nodes => ∀ node ∈ nodes, node.Opened :=
  (steady_accept _).bind fun _ => .ite (.pure nofun) <| (keeps_expression hg).bind fun _ hnode =>
    (steady_expectMark _).bind fun _ => .pure (Node.forall_opened_one hnode)

theorem keeps_conditionAndStep (hg : g.Opened) :
    Keeps lower (conditionAndStep g) fun nodes => ∀ node ∈ nodes, node.Opened :=
  (keeps_optionalUntil hg).bind fun _ htest => (keeps_optionalUntil hg).bind fun _ hstep =>
    .pure (List.forall_mem_append.mpr ⟨htest, hstep⟩)

theorem keeps_forHead (hg : g.Opened) :
    Keeps lower (forHead g) fun nodes => ∀ node ∈ nodes, node.Opened := by
  refine steady_peek.bind fun first => (steady_accept _).bind fun _ =>
    .ite (keeps_conditionAndStep hg) <| steady_atDeclaration.bind fun _ => .ite ?_ ?_
  · -- a declaration
    refine steady_next.bind fun _ => steady_startOfNext.bind fun start => (hg _ _).bind
      fun left hleft => .bind (keeps_nodeFrom nofun (Node.forall_opened_one hleft.node))
      fun item hitem => steady_atItemsWord.bind fun _ => .ite
        ((keeps_overItems hg).bind fun _ hitems => .pure (Node.forall_opened_two hitem hitems)) <|
      (keeps_initialValue hg).bind fun value hvalue => ?_
    extract_lets rest
    have hrest : Keeps lower (rest ()) fun nodes => ∀ node ∈ nodes, Node.Opened node :=
      .bind (keeps_nodeFrom nofun (List.forall_mem_cons.mpr ⟨hleft.node, hvalue⟩)) fun _ hdeclared =>
        (keeps_moreDeclarators hg).bind fun _ hothers => (steady_expectMark _).bind fun _ =>
          .bind (keeps_nodeFrom nofun (List.forall_mem_cons.mpr ⟨hdeclared, hothers⟩))
            fun _ hdeclaration => (keeps_conditionAndStep hg).bind fun _ hmore =>
              .pure (List.forall_mem_cons.mpr ⟨hdeclaration, hmore⟩)
    exact .ite (steady_atItemsWord.bind fun _ => .ite
      ((keeps_overItems hg).bind fun _ hitems => .pure (List.forall_mem_append.mpr
        ⟨List.forall_mem_cons.mpr ⟨hitem, hvalue⟩, Node.forall_opened_one hitems⟩)) hrest) hrest
  · -- an expression
    refine (hg _ _).bind fun left hleft => ?_
    extract_lets rest
    have hrest : Keeps lower (rest ()) fun nodes => ∀ node ∈ nodes, Node.Opened node :=
      (keeps_settle hleft).bind fun _ hvalue =>
        (Keeps.collect (keeps_behind (keeps_assignmentValue hg))).bind fun _ hothers =>
          (steady_expectMark _).bind fun _ => (keeps_conditionAndStep hg).bind fun _ hmore =>
            .pure (List.forall_mem_append.mpr
              ⟨List.forall_mem_cons.mpr ⟨hvalue, hothers⟩, hmore⟩)
    exact .ite (steady_atItemsWord.bind fun _ => .ite
      ((keeps_overItems hg).bind fun _ hitems =>
        .pure (Node.forall_opened_two hleft.node hitems)) hrest) hrest

theorem keeps_forStatement (hg : g.Opened) : Keeps lower (forStatement g) Node.Opened :=
  steady_startOfNext.bind fun _ => (steady_expectWord _).bind fun _ => (steady_accept _).bind fun _ =>
    (steady_expectMark _).bind fun _ => (keeps_forHead hg).bind fun _ hhead => (hg _ _).bind
      fun _ hbody => keeps_nodeFrom nofun
        (List.forall_mem_append.mpr ⟨hhead, Node.forall_opened_one hbody.node⟩)

theorem keeps_whileStatement (hg : g.Opened) : Keeps lower (whileStatement g) Node.Opened :=
  steady_startOfNext.bind fun _ => (steady_expectWord _).bind fun _ => (keeps_condition hg).bind
    fun _ htest => (hg _ _).bind fun _ hbody =>
      keeps_nodeFrom nofun (Node.forall_opened_two htest hbody.node)

theorem keeps_doStatement (hg : g.Opened) : Keeps lower (doStatement g) Node.Opened :=
  steady_startOfNext.bind fun _ => (steady_expectWord _).bind fun _ => (hg _ _).bind fun _ hbody =>
    (steady_expectWord _).bind fun _ => (keeps_condition hg).bind fun _ htest =>
      (steady_accept _).bind fun _ => keeps_nodeFrom nofun (Node.forall_opened_two hbody.node htest)

theorem keeps_ifStatement (hg : g.Opened) : Keeps lower (ifStatement g) Node.Opened :=
  steady_startOfNext.bind fun _ => (steady_expectWord _).bind fun _ => (keeps_condition hg).bind
    fun _ htest => (hg _ _).bind fun _ hpositive => steady_startOfNext.bind fun _ =>
      (steady_accept _).bind fun _ => .ite
        ((hg _ _).bind fun _ hnegative =>
          .bind (keeps_nodeFrom nofun (Node.forall_opened_one hnegative.node)) fun _ halternative =>
            keeps_nodeFrom nofun (List.forall_mem_cons.mpr
              ⟨htest, Node.forall_opened_two hpositive.node halternative⟩))
        (.pure (Node.opened_mk (Node.forall_opened_two htest hpositive.node) nofun))

theorem keeps_switchCase (hg : g.Opened) : Keeps lower (switchCase g) Node.Opened := by
  refine steady_startOfNext.bind fun start => (steady_accept _).bind fun _ => ?_
  extract_lets rest
  have hstatements : Keeps lower (collect do
      let token := (← peek).token
      if token = .mark "\x7d" || token = .name "case" || token = .name "default" then return none
      return some (← g .statement).node) fun nodes => ∀ node ∈ nodes, node.Opened :=
    .collect <| steady_peek.bind fun _ => .ite (.pure nofun) <| (hg _ _).bind fun _ hphrase =>
      .found hphrase.node
  have hrest : ∀ label, (∀ node ∈ label, Node.Opened node) → Keeps lower (rest label) Node.Opened :=
    fun label hlabel => (steady_expectMark _).bind fun _ => hstatements.bind fun _ hnodes =>
      keeps_nodeFrom nofun (List.forall_mem_append.mpr ⟨hlabel, hnodes⟩)
  exact .ite (hrest _ nofun) <| (steady_expectWord _).bind fun _ => (keeps_expression hg).bind
    fun _ hlabel => hrest _ (Node.forall_opened_one hlabel)

theorem keeps_switchStatement (hg : g.Opened) : Keeps lower (switchStatement g) Node.Opened :=
  steady_startOfNext.bind fun _ => (steady_expectWord _).bind fun _ => (keeps_condition hg).bind
    fun _ hvalue => steady_startOfNext.bind fun _ => (steady_expectMark _).bind fun _ =>
      (Keeps.itemsUntil (keeps_switchCase hg)).bind fun _ hcases =>
        .bind (keeps_nodeFrom nofun hcases) fun _ hbody =>
          keeps_nodeFrom nofun (Node.forall_opened_two hvalue hbody)

theorem keeps_catchClause (hg : g.Opened) : Keeps lower (catchClause g) Node.Opened := by
  refine steady_startOfNext.bind fun start => (steady_expectWord _).bind fun _ =>
    (steady_accept _).bind fun _ => ?_
  extract_lets rest
  have hrest : ∀ bound, (∀ node ∈ bound, Node.Opened node) → Keeps lower (rest bound) Node.Opened :=
    fun bound hbound => (keeps_block hg).bind fun _ hblock => keeps_nodeFrom nofun
      (List.forall_mem_append.mpr ⟨hbound, Node.forall_opened_one hblock⟩)
  exact .ite ((hg _ _).bind fun _ hleft => (steady_expectMark _).bind fun _ =>
    hrest _ (Node.forall_opened_one hleft.node)) (hrest _ nofun)

theorem keeps_tryStatement (hg : g.Opened) : Keeps lower (tryStatement g) Node.Opened := by
  refine steady_startOfNext.bind fun start => (steady_expectWord _).bind fun _ => (keeps_block hg).bind
    fun body hbody => steady_peek.bind fun _ => ?_
  extract_lets handled
  have hhandled : ∀ handler, (∀ node ∈ handler, Node.Opened node) →
      Keeps lower (handled handler) Node.Opened := fun handler hhandler => by
    refine steady_startOfNext.bind fun start => (steady_accept _).bind fun _ => ?_
    extract_lets rest
    have hrest : ∀ finalizer, (∀ node ∈ finalizer, Node.Opened node) →
        Keeps lower (rest finalizer) Node.Opened := fun finalizer hfinalizer =>
      .guard <| keeps_nodeFrom nofun <| List.forall_mem_append.mpr
        ⟨List.forall_mem_cons.mpr ⟨hbody, hhandler⟩, hfinalizer⟩
    exact .ite ((keeps_block hg).bind fun _ hblock =>
      .bind (keeps_nodeFrom nofun (Node.forall_opened_one hblock)) fun _ hnode =>
        hrest _ (Node.forall_opened_one hnode)) (hrest _ nofun)
  exact .ite ((keeps_catchClause hg).bind fun _ hclause =>
    hhandled _ (Node.forall_opened_one hclause)) (hhandled _ nofun)

theorem keeps_withStatement (hg : g.Opened) : Keeps lower (withStatement g) Node.Opened :=
  steady_startOfNext.bind fun _ => (steady_expectWord _).bind fun _ => (keeps_condition hg).bind
    fun _ hvalue => (hg _ _).bind fun _ hbody =>
      keeps_nodeFrom nofun (Node.forall_opened_two hvalue hbody.node)

theorem keeps_jumpStatement : Keeps lower jumpStatement Node.Opened := by
  refine steady_startOfNext.bind fun start => steady_next.bind fun _ => steady_peek.bind fun _ => ?_
  extract_lets rest
  have hrest : Keeps lower (rest ()) Node.Opened :=
    steady_semicolon.bind fun _ => keeps_nodeFrom nofun nofun
  exact .ite ((steady_moveTo _).bind fun _ => hrest) hrest

theorem keeps_loneWord : Keeps lower loneWord Node.Opened :=
  steady_startOfNext.bind fun _ => steady_next.bind fun _ => steady_semicolon.bind fun _ =>
    keeps_nodeFrom nofun nofun

theorem keeps_returnStatement (hg : g.Opened) : Keeps lower (returnStatement g) Node.Opened := by
  refine steady_startOfNext.bind fun start => steady_next.bind fun _ => steady_peek.bind fun _ => ?_
  extract_lets ended rest
  have hrest : ∀ value, (∀ node ∈ value, Node.Opened node) → Keeps lower (rest value) Node.Opened :=
    fun value hvalue => steady_semicolon.bind fun _ => keeps_nodeFrom nofun hvalue
  exact .ite (hrest _ nofun) <| (keeps_expression hg).bind fun _ hvalue =>
    hrest _ (Node.forall_opened_one hvalue)

theorem keeps_throwStatement (hg : g.Opened) : Keeps lower (throwStatement g) Node.Opened :=
  steady_startOfNext.bind fun _ => (steady_expectWord _).bind fun _ => steady_peek.bind fun _ =>
    .guard <| (keeps_expression hg).bind fun _ hvalue => steady_semicolon.bind fun _ =>
      keeps_nodeFrom nofun (Node.forall_opened_one hvalue)

theorem steady_moduleSource (hg : g.Opened) : Steady (moduleSource g) := fun _ =>
  (steady_expect _).bind fun _ => (steady_accept _).bind fun _ => .ite
    ((hg _ _).bind fun _ hphrase => (keeps_settle hphrase).bind fun _ _ => .pure trivial)
    (.pure trivial)

theorem steady_moduleName : Steady moduleName := fun _ => steady_next.bind fun lexeme => by
  split
  · exact .pure trivial
  · exact .pure trivial
  · exact .failure

theorem steady_moduleItem : Steady moduleItem := fun _ =>
  steady_moduleName.bind fun _ => (steady_accept _).bind fun _ =>
    .ite (steady_moduleName _) (.pure trivial)

theorem steady_importedNames : Steady importedNames := fun _ =>
  (steady_accept _).bind fun _ => .ite
    ((steady_expectWord _).bind fun _ => keeps_identifier.bind fun _ _ => .pure trivial)
    ((steady_expectMark _).bind fun _ => steady_moduleItem.commaList.bind fun _ => .pure trivial)

theorem keeps_importStatement (hg : g.Opened) : Keeps lower (importStatement g) Node.Opened := by
  refine steady_startOfNext.bind fun start => (steady_expectWord _).bind fun _ =>
    steady_peek.bind fun _ => ?_
  extract_lets rest named
  have hrest : Keeps lower (rest ()) Node.Opened := (steady_moduleSource hg).bind fun _ =>
    steady_semicolon.bind fun _ => keeps_nodeFrom nofun nofun
  have hnamed : Keeps lower (named ()) Node.Opened := (steady_expectWord _).bind fun _ => hrest
  exact .ite hrest <| steady_peek.bind fun _ => .ite
    (keeps_identifier.bind fun _ _ => (steady_accept _).bind fun _ =>
      .ite (steady_importedNames.bind fun _ => hnamed) hnamed)
    (steady_importedNames.bind fun _ => hnamed)

theorem keeps_exportedDefault (hg : g.Opened) : Keeps lower (exportedDefault g) Node.Opened :=
  steady_atFunction.bind fun _ => .ite (keeps_functionPhrase hg) <| steady_peek.bind fun _ =>
    .ite (keeps_classPhrase hg) <| (keeps_assignmentValue hg).bind fun _ hvalue =>
      steady_semicolon.bind fun _ => .pure hvalue

theorem keeps_exportStatement (hg : g.Opened) {before : List Node}
    (hbefore : ∀ node ∈ before, node.Opened) :
    Keeps lower (exportStatement g start before) Node.Opened := by
  refine (steady_expectWord _).bind fun _ => (steady_accept _).bind fun _ => ?_
  extract_lets rest all listed
  have hrest : ∀ given, (∀ node ∈ given, Node.Opened node) → Keeps lower (rest given) Node.Opened :=
    fun given hgiven => keeps_nodeFrom nofun (List.forall_mem_append.mpr ⟨hbefore, hgiven⟩)
  have hone {item : Parser Node} (h : Keeps lower item Node.Opened) :
      Keeps lower (do rest [← item]) Node.Opened :=
    h.bind fun _ hnode => hrest _ (Node.forall_opened_one hnode)
  have hall : Keeps lower (all ()) Node.Opened := (steady_expectWord _).bind fun _ =>
    (steady_moduleSource hg).bind fun _ => steady_semicolon.bind fun _ => hrest _ nofun
  have hlisted : Keeps lower (listed ()) Node.Opened :=
    steady_semicolon.bind fun _ => hrest _ nofun
  refine .ite (hone (keeps_exportedDefault hg)) <| (steady_accept _).bind fun _ => .ite ?_ <|
    (steady_accept _).bind fun _ => .ite ?_ <| steady_atDeclaration.bind fun _ =>
    .ite (hone (keeps_declarationStatement hg)) <| steady_atFunction.bind fun _ =>
    .ite (hone (keeps_functionPhrase hg)) (hone (keeps_classPhrase hg))
  · exact (steady_accept _).bind fun _ => .ite (steady_moduleName.bind fun _ => hall) hall
  · exact steady_moduleItem.commaList.bind fun _ => (steady_accept _).bind fun _ =>
      .ite ((steady_moduleSource hg).bind fun _ => hlisted) hlisted

theorem keeps_decoratedStatement (hg : g.Opened) :
    Keeps lower (decoratedStatement g) Node.Opened :=
  .get fun _ hcursor => steady_startOfNext.bind fun _ => (keeps_decorators hg).bind fun _ hbefore =>
    steady_peek.bind fun _ => .ite (keeps_exportStatement hg hbefore) <|
      (Keeps.set hcursor).bind fun _ _ => keeps_classPhrase hg

theorem keeps_expressionStatement (hg : g.Opened) :
    Keeps lower (expressionStatement g) Node.Opened :=
  steady_startOfNext.bind fun _ => (keeps_expression hg).bind fun _ hnode =>
    steady_semicolon.bind fun _ => keeps_nodeFrom nofun (Node.forall_opened_one hnode)

theorem keeps_labelledStatement (hg : g.Opened) : Keeps lower (labelledStatement g) Node.Opened :=
  steady_startOfNext.bind fun _ => keeps_identifier.bind fun _ _ => (steady_expectMark _).bind fun _ =>
    (hg _ _).bind fun _ hbody => keeps_nodeFrom nofun (Node.forall_opened_one hbody.node)

theorem keeps_wordStatement (hg : g.Opened) (word : String) :
    Keeps lower (wordStatement g word) Node.Opened := by
  refine steady_atDeclaration.bind fun _ => .ite (keeps_declarationStatement hg) <|
    steady_atFunction.bind fun _ => .ite (keeps_functionPhrase hg) <|
    steady_peekTwo.bind fun ⟨first, second⟩ => steady_resourcePlace?.bind fun place => ?_
  split
  · exact (steady_moveTo _).bind fun _ => keeps_resourceStatement hg
  · split
    · exact keeps_classPhrase hg
    · exact keeps_ifStatement hg
    · exact keeps_forStatement hg
    · exact keeps_whileStatement hg
    · exact keeps_doStatement hg
    · exact keeps_switchStatement hg
    · exact keeps_tryStatement hg
    · exact keeps_withStatement hg
    · exact keeps_returnStatement hg
    · exact keeps_throwStatement hg
    · exact keeps_jumpStatement
    · exact keeps_jumpStatement
    · exact keeps_loneWord
    · exact steady_startOfNext.bind fun _ => keeps_exportStatement hg nofun
    · exact .ite (keeps_expressionStatement hg) (keeps_importStatement hg)
    · exact .ite (keeps_labelledStatement hg) (keeps_expressionStatement hg)

theorem keeps_statement (hg : g.Opened) : Keeps lower (statement g) Node.Opened :=
  steady_peek.bind fun lexeme => by
    split
    · exact keeps_block hg
    · exact keeps_leaf nofun
    · exact keeps_decoratedStatement hg
    · exact keeps_wordStatement hg _
    · exact keeps_expressionStatement hg

/-! ## Sources -/

theorem opened_production (hg : g.Opened) : (production g).Opened := fun rule _ =>
  match rule with
  | .statement => keeps_value (keeps_statement hg)
  | .assignment _ => keeps_assignment hg
  | .unary => keeps_unary hg
  | .primary => keeps_primary hg
  | .binding => keeps_binding hg
  | .markup => keeps_markupElement hg

/-- Each rule of a grammar is read by way of those less deep. -/
theorem opened_ofDepth (depth : Nat) : (Grammar.ofDepth depth).Opened := by
  induction depth with
  | zero => exact fun _ _ => .failure
  | succ depth ih => exact fun rule lower => opened_production ih rule lower

theorem keeps_program (hg : g.Opened) : Keeps lower (program g) Node.Opened := by
  refine .get fun cursor hcursor => ?_
  extract_lets rest
  have hrest : Keeps lower (rest ()) Node.Opened :=
    .bind (.collect <| steady_peek.bind fun _ => .ite (.pure nofun) <| (hg _ _).bind
      fun _ hphrase => .found hphrase.node)
      fun _ hstatements => .pure (Node.opened_mk hstatements nofun)
  exact .ite ((Keeps.advance hcursor _).bind fun _ _ => hrest) hrest

/-- In the tree of a source every template literal begins before its substitutions. -/
theorem opened_of_parse? {source : List Char} {tree : Node} (h : parse? source = some tree) :
    tree.Opened := by
  obtain ⟨⟨read, after⟩, hrun, rfl⟩ := Option.map_eq_some_iff.mp h
  exact (keeps_program (opened_ofDepth _) _ (Nat.zero_le _) read after hrun).2

end ReleasePrompts.Script
