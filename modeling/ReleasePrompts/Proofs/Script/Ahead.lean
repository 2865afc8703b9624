import ReleasePrompts.Script.Program

/-!
# What readers keep

A reader of scripts moves the cursor ahead and builds nodes of those it has read. `Keeps lower p Q`
says so of a reader `p`: from a place not before `lower` it gets to one that is not before it either,
and what it has read is as `Q` says. Readers of a grammar are chains of others, and the lemmas here
follow such chains step by step (`Keeps.bind`, `Steady.bind`). A step that goes back does so to a
place it has been at.
-/

namespace ReleasePrompts.Script

namespace Parser

variable {α β : Type} {lower : Nat}

/-- Started at a place not before `lower`, a reader ends at such a place with something of which `Q`
is true. -/
def Keeps (lower : Nat) (p : Parser α) (Q : α → Prop) : Prop :=
  ∀ cursor : Cursor, lower ≤ cursor.place → ∀ read after, p.run cursor = some (read, after) →
    lower ≤ after.place ∧ Q read

/-- A reader that goes back behind no place, whatever it reads. -/
def Steady (p : Parser α) : Prop := ∀ lower, Keeps lower p fun _ => True

section

variable {p : Parser α} {f : α → Parser β} {P : α → Prop} {Q : β → Prop}

theorem Keeps.mono (h : Keeps lower p P) {P' : α → Prop} (hP : ∀ read, P read → P' read) :
    Keeps lower p P' := fun cursor hcursor read after hrun =>
  (h cursor hcursor read after hrun).imp_right (hP read)

theorem Keeps.pure {read : α} (h : P read) : Keeps lower (Pure.pure read : Parser α) P := by
  rintro cursor hcursor _ _ ⟨⟩
  exact ⟨hcursor, h⟩

theorem Keeps.found {one : α} (h : P one) :
    Keeps lower (Pure.pure (some one) : Parser (Option α)) fun read => ∀ one ∈ read, P one :=
  .pure fun _ hsome => Option.some.inj hsome ▸ h

theorem Keeps.bind (hp : Keeps lower p P) (hf : ∀ read, P read → Keeps lower (f read) Q) :
    Keeps lower (p >>= f) Q := by
  intro cursor hcursor read after hrun
  rw [StateT.run_bind] at hrun
  obtain ⟨⟨first, between⟩, hfirst, hrest⟩ := Option.bind_eq_some_iff.mp hrun
  obtain ⟨hbetween, hread⟩ := hp cursor hcursor first between hfirst
  exact hf first hread between hbetween read after hrest

theorem Keeps.failure : Keeps lower (failure : Parser α) P := fun _ _ _ _ hrun => nomatch hrun

theorem Keeps.ite {c : Prop} [Decidable c] {q : Parser α} (hp : Keeps lower p P)
    (hq : Keeps lower q P) : Keeps lower (if c then p else q) P := by
  split
  · exact hp
  · exact hq

/-- What follows a test that may fail. -/
theorem Keeps.guard {c : Prop} [Decidable c] {f : Unit → Parser β} (h : Keeps lower (f ()) Q) :
    Keeps lower (if c then (Alternative.failure : Parser Unit) >>= f else f ()) Q :=
  .ite (.bind .failure fun _ (hfalse : False) => hfalse.elim) h

theorem Keeps.unless {c : Prop} [Decidable c] {f : Unit → Parser β} (h : Keeps lower (f ()) Q) :
    Keeps lower (if c then f () else (Alternative.failure : Parser Unit) >>= f) Q :=
  .ite h (.bind .failure fun _ (hfalse : False) => hfalse.elim)

theorem Steady.keeps (h : Steady p) : Keeps lower p fun _ => True := h lower

theorem Steady.of_keeps (h : ∀ lower, Keeps lower p P) : Steady p :=
  fun lower => (h lower).mono fun _ _ => trivial

theorem Steady.bind (hp : Steady p) (hf : ∀ read, Keeps lower (f read) Q) :
    Keeps lower (p >>= f) Q := hp.keeps.bind fun read _ => hf read

theorem Keeps.get {f : Cursor → Parser β}
    (h : ∀ cursor, lower ≤ cursor.place → Keeps lower (f cursor) Q) :
    Keeps lower ((get : Parser Cursor) >>= f) Q := by
  intro cursor hcursor read after hrun
  exact h cursor hcursor cursor hcursor read after hrun

theorem Keeps.set {cursor : Cursor} (h : lower ≤ cursor.place) :
    Keeps lower (set cursor : Parser PUnit) fun _ => True := by
  rintro _ _ _ _ ⟨⟩
  exact ⟨h, trivial⟩

theorem Keeps.advance {cursor : Cursor} (h : lower ≤ cursor.place) (count : Nat) :
    Keeps lower (MonadStateOf.set (cursor.advance count) : Parser PUnit) fun _ => True :=
  .set (Nat.le_trans h (Nat.le_add_right _ _))

theorem Keeps.orElse {q : Parser α} (hp : Keeps lower p P) (hq : Keeps lower q P) :
    Keeps lower (p <|> q) P := by
  intro cursor hcursor read after hrun
  cases hfirst : p.run cursor with
  | some first =>
    have hsame : (p <|> q).run cursor = some first := by
      change (p.run cursor).orElse (fun _ => q.run cursor) = some first
      rw [hfirst]
      rfl
    exact hp cursor hcursor read after (by rw [hfirst, ← hsame, hrun])
  | none =>
    have hsame : (p <|> q).run cursor = q.run cursor := by
      change (p.run cursor).orElse (fun _ => q.run cursor) = q.run cursor
      rw [hfirst]
      rfl
    exact hq cursor hcursor read after (hsame ▸ hrun)

end

/-! ## Lexemes -/

theorem steady_moveTo (place : Nat) : Steady (moveTo place) := fun _ =>
  .get fun _ hcursor => .advance hcursor _

theorem steady_peek : Steady peek := fun _ => .get fun cursor _ => by
  cases cursor.lexeme? with
  | none => exact .failure
  | some lexeme => exact .pure trivial

theorem steady_next : Steady next := fun _ =>
  steady_peek.bind fun _ => (steady_moveTo _).bind fun _ => .pure trivial

theorem steady_peekTwo : Steady peekTwo := fun _ =>
  .get fun _ hcursor => steady_next.bind fun _ => steady_peek.bind fun _ =>
    (Keeps.set hcursor).bind fun _ _ => .pure trivial

theorem steady_peekThree : Steady peekThree := fun _ =>
  .get fun _ hcursor => steady_next.bind fun _ => steady_next.bind fun _ => steady_peek.bind fun _ =>
    (Keeps.set hcursor).bind fun _ _ => .pure trivial

theorem steady_accept (token : Token) : Steady (accept token) := fun _ =>
  steady_peek.bind fun _ =>
    .ite ((steady_moveTo _).bind fun _ => .pure trivial) (.pure trivial)

theorem steady_expect (token : Token) : Steady (expect token) := fun _ =>
  (steady_accept token).bind fun _ => .ite (.pure trivial) .failure

theorem steady_expectMark (text : String) : Steady (expectMark text) := steady_expect _

theorem steady_expectWord (text : String) : Steady (expectWord text) := steady_expect _

theorem steady_startOfNext : Steady startOfNext := fun _ => steady_peek.bind fun _ => .pure trivial

theorem steady_semicolon : Steady semicolon := fun _ =>
  steady_peek.bind fun _ => .ite (steady_moveTo _ _) (.ite (.pure trivial) .failure)

/-! ## Readings again and again -/

section

variable {P : α → Prop}

theorem Keeps.mapM {f : α → Parser β} {Q : β → Prop} : {items : List α} →
    (∀ item ∈ items, Keeps lower (f item) Q) →
      Keeps lower (items.mapM f) fun read => ∀ one ∈ read, Q one
  | [], _ => .pure nofun
  | item :: items, h => by
    obtain ⟨hitem, hitems⟩ := List.forall_mem_cons.mp h
    rw [List.mapM_cons]
    exact hitem.bind fun _ hone => (Keeps.mapM hitems).bind fun _ hmore =>
      .pure (List.forall_mem_cons.mpr ⟨hone, hmore⟩)

theorem keeps_collect_go {step : Parser (Option α)}
    (h : Keeps lower step fun read => ∀ item ∈ read, P item) (bound : Nat) :
    ∀ read : List α, (∀ item ∈ read, P item) →
      Keeps lower (collect.go step bound read) fun items => ∀ item ∈ items, P item := by
  induction bound with
  | zero => exact fun _ _ => .failure
  | succ bound ih =>
    refine fun read hread => h.bind fun next hnext => ?_
    cases next with
    | none => exact .pure fun item hitem => hread item (List.mem_reverse.mp hitem)
    | some item => exact ih (item :: read) (List.forall_mem_cons.mpr ⟨hnext item rfl, hread⟩)

/-- What is true of each item that a step reads is true of all that are collected. -/
theorem Keeps.collect {step : Parser (Option α)}
    (h : Keeps lower step fun read => ∀ item ∈ read, P item) :
    Keeps lower (collect step) fun items => ∀ item ∈ items, P item :=
  .get fun _ _ => keeps_collect_go h _ [] nofun

theorem Steady.collect {step : Parser (Option α)} (h : Steady step) : Steady (collect step) :=
  .of_keeps fun lower => ((h lower).mono fun _ _ _ _ => trivial).collect

theorem keeps_commaList_go {close : String} {item : Parser α} (h : Keeps lower item P)
    (bound : Nat) :
    ∀ read : List α, (∀ one ∈ read, P one) →
      Keeps lower (commaList.go close item bound read) fun items => ∀ one ∈ items.1, P one := by
  have hreverse {read : List α} (hread : ∀ one ∈ read, P one) : ∀ one ∈ read.reverse, P one :=
    fun one hone => hread one (List.mem_reverse.mp hone)
  induction bound with
  | zero => exact fun _ _ => .failure
  | succ bound ih =>
    refine fun read hread => (steady_accept _).bind fun _ => .ite (.pure (hreverse hread)) <|
      h.bind fun one hone => ?_
    have hmore := List.forall_mem_cons.mpr ⟨hone, hread⟩
    exact (steady_accept _).bind fun _ => .ite (.pure (hreverse hmore)) <|
      (steady_expectMark _).bind fun _ => ih _ hmore

theorem Keeps.commaList {close : String} {item : Parser α} (h : Keeps lower item P) :
    Keeps lower (commaList close item) fun items => ∀ one ∈ items.1, P one :=
  .get fun _ _ => keeps_commaList_go h _ [] nofun

theorem Steady.commaList {close : String} {item : Parser α} (h : Steady item) :
    Steady (commaList close item) :=
  .of_keeps fun lower => (h lower).commaList

theorem Keeps.itemsUntil {close : String} {item : Parser α} (h : Keeps lower item P) :
    Keeps lower (itemsUntil close item) fun items => ∀ one ∈ items, P one :=
  .collect ((steady_accept _).bind fun _ => .ite (.pure nofun) <|
    h.bind fun _ hone => .found hone)

theorem keeps_fold_go {step : α → Parser (Option α)}
    (h : ∀ value, P value → Keeps lower (step value) fun read => ∀ next ∈ read, P next)
    (bound : Nat) : ∀ value, P value → Keeps lower (fold.go step bound value) P := by
  induction bound with
  | zero => exact fun _ _ => .failure
  | succ bound ih =>
    refine fun value hvalue => (h value hvalue).bind fun next hnext => ?_
    cases next with
    | none => exact .pure hvalue
    | some next => exact ih next (hnext next rfl)

/-- What each step keeps true of a value is true of the last one. -/
theorem Keeps.fold {step : α → Parser (Option α)} {first : α} (hfirst : P first)
    (h : ∀ value, P value → Keeps lower (step value) fun read => ∀ next ∈ read, P next) :
    Keeps lower (fold step first) P :=
  .get fun _ _ => keeps_fold_go h _ first hfirst

end

end Parser

end ReleasePrompts.Script
