import ReleasePrompts.Proofs.Literal.Balance
import ReleasePrompts.Proofs.Scope.Chain
import ReleasePrompts.Proofs.Scope.Substitution

/-!
# The literal that is extracted

The template literal that is returned for a text is balanced if its pieces stand `Apart`, that is if
none that ends in a dollar sign has a brace behind it, and it holds the text unless the text overlaps
a substitution that is filled in. Failing a template literal, the literal is returned that is located
by its quotes (`extract_spec`).
-/

namespace ReleasePrompts.Scope

open Script Literal Text

variable {extent : List Char → Option Nat}

/-! ## Pieces that stand apart -/

/-- Whether a text ends in a dollar sign that no backslash escapes. -/
def endsInDollar : List Char → Bool
  | [] => false
  | '\\' :: _ :: rest => endsInDollar rest
  | c :: rest => (c == '$' && rest.isEmpty) || endsInDollar rest

/-- Whether no piece that ends in a dollar sign has a brace behind it. -/
def Apart : List Piece → Prop
  | [] => True
  | piece :: pieces =>
    ¬(endsInDollar piece.source = true ∧ (written pieces).head? = some '{') ∧ Apart pieces

instance decidableApart : (pieces : List Piece) → Decidable (Apart pieces)
  | [] => inferInstanceAs (Decidable True)
  | _ :: pieces =>
    have := decidableApart pieces
    inferInstanceAs (Decidable (¬(_ ∧ _) ∧ Apart pieces))

theorem endsInDollar_cons {c : Char} (h : c ≠ '\\') (rest : List Char) :
    endsInDollar (c :: rest) = ((c == '$' && rest.isEmpty) || endsInDollar rest) := by
  rw [endsInDollar]
  exact fun _ _ e => absurd e h

theorem endsInDollar_append {front : List Char} (h : ∀ c ∈ front, IsOrdinary c)
    (rest : List Char) : endsInDollar (front ++ rest) = endsInDollar rest := by
  induction front with
  | nil => rfl
  | cons c front ih =>
    obtain ⟨hc, hfront⟩ := List.forall_mem_cons.mp h
    rw [List.cons_append, endsInDollar_cons hc.1, ih hfront, beq_false_of_ne hc.2.2.1]
    rfl

theorem whole_of_ordinary {front : List Char} (h : ∀ c ∈ front, IsOrdinary c)
    (behind : List Char) : Whole extent '`' behind front := by
  induction front with
  | nil => exact .nil
  | cons c front ih =>
    obtain ⟨hc, hfront⟩ := List.forall_mem_cons.mp h
    exact .char hc.1 hc.2.1 (fun hd => hc.2.2.1 hd.2.1) (ih hfront)

theorem isOrdinary_of_mem_escape {c d : Char} {rest : List Char}
    (hd : d ∈ rest.take ((escape (c :: rest)).2 - 1)) : IsOrdinary d := by
  by_cases hc : c = '\r'
  · subst hc
    by_cases hn : rest.head? = some '\n'
    · obtain ⟨tail, rfl⟩ := List.head?_eq_some_iff.mp hn
      obtain rfl : d = '\n' := List.mem_singleton.mp hd
      exact isOrdinary_feed
    · rw [escape_return hn] at hd
      exact absurd hd List.not_mem_nil
  · exact isOrdinary_of_goesOn (goesOn_of_mem_escape hc hd)

theorem forall_isOrdinary {raw : List Char} (h : raw.all (fun c => decide (IsOrdinary c)) = true) :
    ∀ c ∈ raw, IsOrdinary c := fun c hc => of_decide_eq_true (List.all_eq_true.mp h c hc)

/-- Text of ordinary characters is text of a template literal. -/
theorem plain_of_ordinary {raw : List Char} (h : ∀ c ∈ raw, IsOrdinary c) : Plain raw := by
  induction raw with
  | nil => exact .nil
  | cons c raw ih =>
    obtain ⟨hc, hraw⟩ := List.forall_mem_cons.mp h
    exact .char hc.1 hc.2.1 (fun hd => hc.2.2.1 hd.1) (ih hraw)

/-- A character is no substitution where text does not end in a dollar sign before a brace. -/
theorem not_opens {c : Char} {rest behind : List Char} (hc : c ≠ '\\')
    (hd : ¬(c = '$' ∧ rest.head? = some '{'))
    (hapart : ¬(endsInDollar (c :: rest) = true ∧ behind.head? = some '{')) :
    ¬('`' = '`' ∧ c = '$' ∧ (rest ++ behind).head? = some '{') := by
  rintro ⟨-, rfl, hbrace⟩
  cases rest with
  | nil => exact hapart ⟨rfl, hbrace⟩
  | cons d rest => exact hd ⟨rfl, hbrace⟩

theorem apart_of_cons {c : Char} {rest behind : List Char} (hc : c ≠ '\\')
    (hapart : ¬(endsInDollar (c :: rest) = true ∧ behind.head? = some '{')) :
    ¬(endsInDollar rest = true ∧ behind.head? = some '{') := fun ⟨hends, hbrace⟩ =>
  hapart ⟨by rw [endsInDollar_cons hc, hends, Bool.or_true], hbrace⟩

/-- Text of a template literal is whole before anything but a brace that makes a dollar sign at its
end open a substitution. -/
theorem whole_of_plain {raw behind : List Char} (h : Plain raw)
    (hapart : ¬(endsInDollar raw = true ∧ behind.head? = some '{')) :
    Whole extent '`' behind raw := by
  induction h with
  | nil => exact .nil
  | @escape c rest _ ih =>
    -- What an escape takes behind its first character are characters of their own here.
    have hfront : ∀ d ∈ rest.take ((escape (c :: rest)).2 - 1), IsOrdinary d :=
      fun _ => isOrdinary_of_mem_escape
    have hrest := List.take_append_drop ((escape (c :: rest)).2 - 1) rest
    have hends : endsInDollar ('\\' :: c :: rest) =
        endsInDollar (rest.drop ((escape (c :: rest)).2 - 1)) := by
      rw [endsInDollar, ← endsInDollar_append hfront (rest.drop _), hrest]
    rw [hends] at hapart
    have := (whole_of_ordinary hfront _).append (ih hapart)
    rw [hrest] at this
    exact .escape this
  | char hb ht hd _ ih => exact .char hb ht (not_opens hb hd hapart) (ih (apart_of_cons hb hapart))

theorem head?_escapeTemplate {value : List Char} (h : (escapeTemplate value).head? = some '{') :
    value.head? = some '{' := by
  cases value with
  | nil => cases h
  | cons c rest =>
    rw [escapeTemplate] at h
    split at h
    · exact absurd (Option.some.inj h) (by decide)
    · exact h

/-- A value is written as text of its own. -/
theorem plain_escapeTemplate (value : List Char) : Plain (escapeTemplate value) := by
  induction value with
  | nil => exact .nil
  | cons c rest ih =>
    by_cases hm : IsMasked c rest
    · rw [escapeTemplate_masked hm]
      refine .escape ?_
      rw [escape_of_masked hm]
      exact ih
    · rw [escapeTemplate_bare hm]
      exact .char (fun e => hm (.inl e)) (fun e => hm (.inr (.inl e)))
        (fun ⟨e, hbrace⟩ => hm (.inr (.inr ⟨e, head?_escapeTemplate hbrace⟩))) ih

theorem written_eq (pieces : List Piece) :
    written pieces = pieces.flatMap Piece.source ++ ['`'] := by
  induction pieces with
  | nil => rfl
  | cons piece pieces ih => rw [written, ih, List.flatMap_cons, List.append_assoc]

/-- Pieces that stand apart are the inside of a balanced literal. -/
theorem whole_written {pieces : List Piece} (hparsed : ∀ piece ∈ pieces, piece.Parsed extent)
    (hapart : Apart pieces) : Whole extent '`' ['`'] (pieces.flatMap Piece.source) := by
  induction pieces with
  | nil => exact .nil
  | cons piece pieces ih =>
    obtain ⟨hpiece, hparsed⟩ := List.forall_mem_cons.mp hparsed
    obtain ⟨hdollar, hapart⟩ := hapart
    have hwhole : Whole extent '`' (written pieces) piece.source := by
      cases piece with
      | text raw => exact whole_of_plain hpiece hdollar
      | filled value => exact whole_of_plain (plain_escapeTemplate value) hdollar
      | kept code => exact .code rfl hpiece .nil
    rw [written_eq] at hwhole
    exact hwhole.append (ih hparsed hapart)

/-! ## The template literal that is returned -/

variable {source : List Char}

/-- The literal that is returned for a template literal is in backticks. -/
theorem substitute_quoted (chain : Chain) {template : Node}
    (h : ParsedTemplate extent source template) :
    substitute source chain template =
      '`' :: ((piecesOf source chain template).flatMap Piece.source ++ ['`']) := by
  rw [substitute_eq chain h, written_eq]

/-- It is balanced if its pieces stand apart. -/
theorem balanced_substitute {chain : Chain} {template : Node}
    (h : ParsedTemplate extent source template) (hapart : Apart (piecesOf source chain template)) :
    Balanced extent (substitute source chain template) :=
  ⟨'`', _, rfl, substitute_quoted chain h,
    whole_written (parsed_piecesFrom chain h.inside) hapart⟩

theorem getLast?_of_endsInDollar {text : List Char} (h : endsInDollar text = true) :
    text.getLast? = some '$' := by
  fun_induction endsInDollar text with
  | case1 => cases h
  | case2 d rest ih => rw [List.getLast?_cons, List.getLast?_cons, ih h]; rfl
  | case3 c rest _ ih =>
    rcases Bool.or_eq_true_iff.mp h with h | h
    · obtain ⟨hc, hrest⟩ := Bool.and_eq_true_iff.mp h
      rw [List.isEmpty_iff.mp hrest, beq_iff_eq.mp hc]
      rfl
    · rw [List.getLast?_cons, ih h]
      rfl

theorem getLast?_escapeTemplate (value : List Char) :
    (escapeTemplate value).getLast? = value.getLast? := by
  induction value with
  | nil => rfl
  | cons c rest ih =>
    rw [escapeTemplate]
    split
    · rw [List.getLast?_cons, List.getLast?_cons, ih, List.getLast?_cons]
      rfl
    · rw [List.getLast?_cons, ih, List.getLast?_cons]

/-- Whether a value forms no `$` before a brace with what stands beside it: it is not empty, begins
with no brace and ends in no dollar sign. -/
def StandsAlone (value : List Char) : Prop :=
  value ≠ [] ∧ value.head? ≠ some '{' ∧ value.getLast? ≠ some '$'

theorem StandsAlone.head?_written {value : List Char} (h : StandsAlone value)
    (pieces : List Piece) : (written (.filled value :: pieces)).head? ≠ some '{' := fun hbrace => by
  rw [written, Piece.source, List.head?_append] at hbrace
  cases hescaped : (escapeTemplate value).head? with
  | none =>
    have hlast := congrArg List.getLast? (List.head?_eq_none_iff.mp hescaped)
    rw [getLast?_escapeTemplate] at hlast
    exact h.1 (List.getLast?_eq_none_iff.mp hlast)
  | some c =>
    rw [hescaped] at hbrace
    exact h.2.1 (head?_escapeTemplate (hescaped.trans hbrace))

theorem StandsAlone.not_endsInDollar {value : List Char} (h : StandsAlone value) :
    endsInDollar (Piece.filled value).source = false := Bool.eq_false_iff.mpr fun hends =>
  h.2.2 (getLast?_escapeTemplate value ▸ getLast?_of_endsInDollar hends)

theorem endsInDollar_kept (code : List Char) : endsInDollar (Piece.kept code).source = false :=
  Bool.eq_false_iff.mpr fun hends => by
    have hlast := getLast?_of_endsInDollar hends
    simp [Piece.source, List.getLast?_cons] at hlast

/-- Pieces of a template literal stand apart where the values that are filled in stand alone. -/
theorem apart_piecesFrom {chain : Chain} {place stop : Nat} {nodes : List Node}
    (hvalues : ∀ node ∈ nodes, ∀ value, chain.lookup? (expressionText source node) = some value →
      StandsAlone value) :
    Apart (piecesFrom source chain place stop nodes) := by
  induction nodes generalizing place with
  | nil => exact ⟨fun h => absurd (Option.some.inj h.2) (by decide), trivial⟩
  | cons node nodes ih =>
    obtain ⟨hnode, hvalues⟩ := List.forall_mem_cons.mp hvalues
    cases hvalue : chain.lookup? (expressionText source node) with
    | some value =>
      have halone := hnode value hvalue
      simp only [piecesFrom, pieceOf, hvalue]
      exact ⟨fun h => halone.head?_written _ h.2,
        fun h => Bool.false_ne_true (halone.not_endsInDollar.symm.trans h.1), ih hvalues⟩
    | none =>
      simp only [piecesFrom, pieceOf, hvalue]
      exact ⟨fun h => absurd (Option.some.inj h.2) (by decide),
        fun h => Bool.false_ne_true ((endsInDollar_kept _).symm.trans h.1), ih hvalues⟩

/-- Whether a range overlaps no substitution that is filled in. -/
def KeepsClear (source : List Char) (chain : Chain) (nodes : List Node) (start stop : Nat) : Prop :=
  ∀ node ∈ nodes, chain.lookup? (expressionText source node) ≠ none →
    stop ≤ node.start ∨ node.stop ≤ start

instance (source : List Char) (chain : Chain) (nodes : List Node) (start stop : Nat) :
    Decidable (KeepsClear source chain nodes start stop) :=
  inferInstanceAs (Decidable (∀ node ∈ nodes, _ → _))

/-- What overlaps no substitution that is filled in stays as it is. -/
theorem slice_infix_substituteFrom {chain : Chain} {nodes : List Node}
    {place start stop finish : Nat} (hstart : place ≤ start) (hle : start ≤ stop)
    (hstop : stop ≤ finish) (hclear : KeepsClear source chain nodes start stop) :
    slice source start stop <:+: substituteFrom source chain place finish nodes := by
  induction nodes generalizing place with
  | nil => exact slice_infix_slice source hstart hle hstop
  | cons node nodes ih =>
    obtain ⟨hnode, hclear⟩ := List.forall_mem_cons.mp hclear
    cases hvalue : chain.lookup? (expressionText source node) with
    | none =>
      simp only [substituteFrom, hvalue]
      exact ih hstart hclear
    | some value =>
      simp only [substituteFrom, hvalue]
      rcases hnode (hvalue ▸ Option.some_ne_none value) with hbefore | hbehind
      · exact (slice_infix_slice source hstart hle hbefore).trans
          ((List.prefix_append _ _).trans (List.prefix_append _ _)).isInfix
      · exact (ih hbehind hclear).trans (List.suffix_append _ _).isInfix

/-- The template literal that holds a text, as it is returned with the layers of a chain, where the
text is found at a place in it. -/
structure Resolved (source target : List Char) (chain : Chain) (template : Node) (found : Nat)
    (literal : List Char) : Prop where
  isTemplate : template.kind = .template
  isFound : found ∈ occurrences target source
  covers : template.covers found (found + target.length) = true
  literal_eq : literal = substitute source chain template
  /-- The literal is in backticks. -/
  quoted : ∀ {extent}, ParsedTemplate extent source template →
    ∃ body, literal = '`' :: (body ++ ['`'])
  /-- It is balanced unless a dollar sign that ends a piece opens a substitution. -/
  balanced : ∀ {extent}, ParsedTemplate extent source template →
    Apart (piecesOf source chain template) → Balanced extent literal
  /-- None does so where the values that are filled in stand alone. -/
  apart : (∀ node ∈ substitutions template, ∀ value,
    chain.lookup? (expressionText source node) = some value → StandsAlone value) →
      Apart (piecesOf source chain template)
  /-- It holds the text unless part of the text is filled in. -/
  holds : KeepsClear source chain (substitutions template) found (found + target.length) →
    target <:+: literal

theorem resolved_of_covers {target : List Char} (chain : Chain) {template : Node} {found : Nat}
    (hkind : template.kind = .template) (hfound : found ∈ occurrences target source)
    (hcovers : template.covers found (found + target.length) = true) :
    Resolved source target chain template found (substitute source chain template) where
  isTemplate := hkind
  isFound := hfound
  covers := hcovers
  literal_eq := rfl
  quoted h := ⟨_, substitute_quoted chain h⟩
  balanced := balanced_substitute
  apart := apart_piecesFrom
  holds hclear := by
    obtain ⟨hstart, hstop⟩ := Bool.and_eq_true_iff.mp hcovers
    have := slice_infix_substituteFrom (of_decide_eq_true hstart) (Nat.le_add_right _ _)
      (of_decide_eq_true hstop) hclear
    rwa [slice_of_mem_occurrences hfound] at this

/-- What a fresh resolver answers: the template literal at the end of the path, or nothing. -/
theorem resolve_ofSource (source target : List Char) (reader : Reader) :
    (∃ parsed path template found, (Resolver.ofSource source reader).parsed = some parsed ∧
      pathToTarget? parsed.source parsed.tree target = some path ∧
      nodeAt? parsed.tree (addressOf path) = some template ∧
      ∃ literal, resolve? source target reader = some literal ∧
        Resolved parsed.source target (layersTo parsed.source parsed.tree (addressOf path)) template
          found literal) ∨
    (Resolver.ofSource source reader).resolve target =
      (none, Resolver.ofSource source reader) := by
  cases hparsed : (Resolver.ofSource source reader).parsed with
  | none => exact .inr (by simp [Resolver.resolve, Resolver.locateTemplate?, hparsed])
  | some parsed =>
    cases hpath : pathToTarget? parsed.source parsed.tree target with
    | none => exact .inr (by simp [Resolver.resolve, Resolver.locateTemplate?, hparsed, hpath])
    | some path =>
      obtain ⟨template, after, hat, hkind, hlocate, -⟩ :=
        locateTemplate?_spec (ofSource_sound source reader) hparsed hpath
      obtain ⟨-, other, hother, -, found, hfound, hcovers⟩ := pathToTarget?_spec hpath
      obtain rfl := Option.some.inj (hat.symm.trans hother)
      exact .inl ⟨parsed, path, template, found, rfl, hpath, hat, _,
        by simp only [resolve?, Resolver.resolve, hlocate],
        resolved_of_covers _ hkind hfound hcovers⟩

/-- The literal that is extracted is the template literal that holds the text, with the names in it
resolved, or where there is none the literal that is located by its quotes. -/
theorem extract_spec {source target literal : List Char} {reader : Reader}
    (h : extract? source target reader = some literal) :
    (∃ parsed path template found, (Resolver.ofSource source reader).parsed = some parsed ∧
      pathToTarget? parsed.source parsed.tree target = some path ∧
      nodeAt? parsed.tree (addressOf path) = some template ∧
      Resolved parsed.source target (layersTo parsed.source parsed.tree (addressOf path)) template
        found literal) ∨
    resolve? source target reader = none ∧
      ∃ place start quote, Located source target place start quote literal := by
  unfold extract? Resolver.extract at h
  rcases resolve_ofSource source target reader with
    ⟨parsed, path, template, found, hparsed, hpath, hat, other, hresolve, hresolved⟩ | hnone
  · rw [resolve?] at hresolve
    simp only [hresolve] at h
    obtain rfl := Option.some.inj h
    exact .inl ⟨parsed, path, template, found, hparsed, hpath, hat, hresolved⟩
  · rw [hnone] at h
    exact .inr ⟨by rw [resolve?, hnone], locate?_spec h⟩

/-- A script that begins with a template literal, with a brace behind its substitution. -/
def scriptSource : List Char := "`T $\x7bx\x7d\x7by\x7d`;const x=\"a\"".toList

theorem parsed_of_ranges {template : Node} (hrange : (template.start, template.stop) = (0, 11))
    (hnodes : (substitutions template).map (fun node => (node.start, node.stop)) = [(3, 7)]) :
    ParsedTemplate toBrace scriptSource template := by
  obtain ⟨hstart, hstop⟩ := Prod.mk.inj hrange
  obtain ⟨node, hnode, hpair⟩ := List.map_eq_singleton_iff.mp hnodes
  obtain ⟨hopen, hclose⟩ := Prod.mk.inj hpair
  refine ⟨by rw [hstart]; decide, by rw [hstop]; decide, ?_⟩
  rw [hnode, ParsedFrom, ParsedFrom, codeOf, hstart, hstop, hopen, hclose]
  exact ⟨⟨by decide, plain_of_ordinary (forall_isOrdinary (by decide))⟩,
    ⟨by decide, by decide, by decide, fun _ => rfl⟩, by decide,
    plain_of_ordinary (forall_isOrdinary (by decide))⟩

/-- The value is filled in, and what reads as a substitution is the one that was there before. -/
theorem extract_spec_filled :
    extract? scriptSource "T ".toList = some "`T a\x7by\x7d`".toList ∧
      ∃ source chain template found,
        Resolved source "T ".toList chain template found "`T a\x7by\x7d`".toList ∧
          ParsedTemplate toBrace source template ∧ Apart (piecesOf source chain template) ∧
          KeepsClear source chain (substitutions template) found (found + 2) := by
  have hextract : extract? scriptSource "T ".toList = some "`T a\x7by\x7d`".toList := by
    decide +kernel
  have hresolve : resolve? scriptSource "T ".toList ≠ none := by decide +kernel
  have hchecked : anyTemplate scriptSource "T ".toList
      (fun parsed place template =>
        let chain := layersTo parsed.source parsed.tree place
        decide (parsed.source = scriptSource ∧ (template.start, template.stop) = (0, 11) ∧
          (substitutions template).map (fun node => (node.start, node.stop)) = [(3, 7)] ∧
          Apart (piecesOf parsed.source chain template) ∧
          ∀ found ∈ occurrences "T ".toList parsed.source,
            KeepsClear parsed.source chain (substitutions template) found (found + 2))) = true := by
    decide +kernel
  obtain ⟨parsed, path, template, hparsed, hpath, hat, hchecked⟩ := exists_of_anyTemplate hchecked
  obtain ⟨hsource, hrange, hnodes, hapart, hclear⟩ := of_decide_eq_true hchecked
  obtain ⟨parsed', path', template', found, hparsed', hpath', hat', hresolved⟩ | ⟨hnone, -⟩ :=
    extract_spec hextract
  · obtain rfl := Option.some.inj (hparsed.symm.trans hparsed')
    obtain rfl := Option.some.inj (hpath.symm.trans hpath')
    obtain rfl := Option.some.inj (hat.symm.trans hat')
    exact ⟨hextract, parsed.source, _, template, found, hresolved,
      hsource ▸ parsed_of_ranges hrange hnodes, hapart, hclear found hresolved.isFound⟩
  · exact absurd hnone hresolve

/-- A substitution that opens behind ordinary text is closed. -/
theorem mem_of_whole_open {front rest behind : List Char} (hfront : ∀ c ∈ front, IsOrdinary c)
    (h : Whole extent '`' behind (front ++ '$' :: '{' :: rest)) : '}' ∈ rest := by
  induction front with
  | nil =>
    generalize htext : [] ++ '$' :: '{' :: rest = text at h
    cases h with
    | nil => cases htext
    | escape => exact absurd (List.cons.inj htext).1 (by decide)
    | code =>
      rw [(List.cons.inj (List.cons.inj htext).2).2]
      exact List.mem_append_right _ List.mem_cons_self
    | char _ _ hd =>
      obtain ⟨rfl, rfl⟩ := List.cons.inj htext
      exact absurd ⟨rfl, rfl, rfl⟩ hd
  | cons c front ih =>
    obtain ⟨hc, hfront⟩ := List.forall_mem_cons.mp hfront
    generalize htext : c :: front ++ '$' :: '{' :: rest = text at h
    cases h with
    | nil => cases htext
    | escape => exact absurd (List.cons.inj htext).1 hc.1
    | code => exact absurd (List.cons.inj htext).1 hc.2.2.1
    | char _ _ _ h =>
      obtain ⟨-, rfl⟩ := List.cons.inj htext
      exact ih hfront h

/-- A dollar sign that is filled in before a brace opens a substitution that nothing closes. -/
theorem extract_unbalanced :
    extract? "const x = \"$\"; const s = `T $\x7bx\x7d\x7by`;".toList "T ".toList =
        some "`T $\x7by`".toList ∧
      ∀ extent, ¬Balanced extent "`T $\x7by`".toList := by
  refine ⟨by decide +kernel, fun extent ⟨quote, body, hquote, heq, hwhole⟩ => ?_⟩
  obtain ⟨rfl, heq⟩ := List.cons_eq_cons.mp heq
  obtain rfl : body = "T ".toList ++ '$' :: '{' :: ['y'] := (List.append_inj' heq rfl).1.symm
  exact absurd (mem_of_whole_open (forall_isOrdinary (by decide)) hwhole) (by decide)

end ReleasePrompts.Scope
