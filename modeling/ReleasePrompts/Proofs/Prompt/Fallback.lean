import ReleasePrompts.Proofs.Literal.Location
import ReleasePrompts.Proofs.Prompt.Independence
import ReleasePrompts.Proofs.Scope.Extraction
import ReleasePrompts.Proofs.Script.Selection
import ReleasePrompts.Proofs.Script.Sources

/-!
# Two ways to fall back

A prompt is looked for twice over: `find` takes a template literal that is not empty and then a located
literal that is not empty, `extract?` takes what is returned first. They agree since neither a resolved
template literal (`resolve?_ne_some_nil`) nor a located one is empty. This is so as well where
resolutions fail (`Resolution`), which counts as if there were no template literal.
-/

namespace ReleasePrompts.Scope

open Script Text

/-! ## A resolved template literal is not empty -/

/-- A text that begins before all that is filled in keeps its first character. -/
theorem substituteFrom_ne_nil {source : List Char} {chain : Chain} {place stop : Nat}
    {nodes : List Node} (hlt : place < source.length) (hstop : place < stop)
    (hnodes : ∀ node ∈ nodes, place < node.start) :
    substituteFrom source chain place stop nodes ≠ [] := by
  induction nodes with
  | nil => exact slice_ne_nil hlt hstop
  | cons node nodes ih =>
    obtain ⟨hnode, hnodes⟩ := List.forall_mem_cons.mp hnodes
    cases hvalue : chain.lookup? (expressionText source node) with
    | none =>
      simp only [substituteFrom, hvalue]
      exact ih hnodes
    | some value =>
      simp only [substituteFrom, hvalue, ne_eq, List.append_eq_nil_iff]
      exact fun hnil => slice_ne_nil hlt hnode hnil.1.1

theorem mem_preorder_of_nodeAt? {tree node : Node} {place : Address}
    (h : nodeAt? tree place = some node) : node ∈ tree.preorder := by
  rw [← located_snd]
  exact List.mem_map.mpr ⟨(place, node), (mem_located tree place node).mpr h, rfl⟩

/-- Whether every template literal begins before its substitutions in all trees that a reader gives. -/
def OpensTemplates (reader : Reader) : Prop :=
  ∀ source tree, reader source = some tree → tree.Opened

theorem opensTemplates_parse? : OpensTemplates parse? := fun _ _ => opened_of_parse?

theorem resolve?_ne_some_nil {reader : Reader} (hreader : OpensTemplates reader)
    (source target : List Char) : resolve? source target reader ≠ some [] := by
  intro hempty
  obtain ⟨parsed, path, template, found, hparsed, hpath, hat, literal, hliteral, hresolved⟩ | hnone :=
    resolve_ofSource source target reader
  · obtain rfl : literal = [] := Option.some.inj (hliteral.symm.trans hempty)
    have hne : target ≠ [] := by
      rintro rfl
      cases hpath
    obtain ⟨hstart, hstop⟩ := Node.covers_iff.mp hresolved.covers
    have hfound := lt_of_mem_occurrences hresolved.isFound hne
    have hpos := List.length_pos_iff.mpr hne
    have hopened : parsed.tree.Opened :=
      hreader _ _ (readUnder?_eq_some_iff.mp hparsed).2.1
    refine substituteFrom_ne_nil (by omega) (by omega) (fun node hnode => ?_)
      hresolved.literal_eq.symm
    exact hopened template (mem_preorder_of_nodeAt? hat) hresolved.isTemplate node
      (List.mem_filter.mp hnode).1
  · rw [resolve?, hnone] at hempty
    cases hempty

end ReleasePrompts.Scope

namespace ReleasePrompts.Prompt

open Scope Literal Script

/-! ## Resolutions that may fail -/

/-- What an attempt gives: nothing if it failed. -/
def given? {ε : Type} : Except ε (Option (List Char)) → Option (List Char)
  | .ok text => text
  | .error _ => none

/-- A way to try to resolve templates in a source. An attempt may fail, and may leave the resolver in
any state that it is good to go on from; what it gives for a text is the same from all of these, and is
the template literal that holds the text or nothing. -/
structure Resolution (source : List Char) (reader : Reader) (ε : Type) where
  attempt : Resolver → List Char → Except ε (Option (List Char)) × Resolver
  /-- What is given for a text. -/
  found : List Char → Option (List Char)
  /-- The states to go on from. -/
  IsGood : Resolver → Prop
  start : IsGood (.ofSource source reader)
  source_eq : ∀ resolver, IsGood resolver → resolver.source = source
  given_eq : ∀ resolver target, IsGood resolver → given? (attempt resolver target).1 = found target
  after : ∀ resolver target, IsGood resolver → IsGood (attempt resolver target).2
  sound : ∀ target text, found target = some text →
    resolve? source target reader = some text

section

variable {ε : Type} (attempt : Resolver → List Char → Except ε (Option (List Char)) × Resolver)

/-- Looks for a marker, where the attempt to resolve it may fail. -/
def findBy (resolver : Resolver) (marker : List Char) : Finding × Resolver :=
  let (outcome, resolver) := attempt resolver marker
  let lexical := findingOr (locate? resolver.source marker) .lexical .absent
  (findingOr (given? outcome) .scope lexical, resolver)

/-- Looks for markers, one after the other. -/
def findAllBy (resolver : Resolver) : Markers → List (Name × Finding)
  | [] => []
  | (name, marker) :: markers =>
    let (finding, resolver) := findBy attempt resolver marker.toList
    (name, finding) :: findAllBy resolver markers

/-- The prompts of a source, unless it has no system prompt. -/
def extractSetBy? (source : List Char) (reader : Reader) (version path : String)
    (markers : Markers) : Option PromptSet :=
  let prompts : PromptSet := ⟨version, path, findAllBy attempt (.ofSource source reader) markers⟩
  if (prompts.finding .system).isPresent then some prompts else none

/-- What an attempt gives for a text, or else the literal that is located. -/
def extractBy? (source : List Char) (reader : Reader) (target : List Char) :
    Option (List Char) :=
  let (outcome, resolver) := attempt (.ofSource source reader) target
  given? outcome <|> locate? resolver.source target

end

/-- The resolution of a resolver, which does not fail. -/
def resolution (source : List Char) (reader : Reader) : Resolution source reader Empty where
  attempt resolver target := (.ok (resolver.resolve target).1, (resolver.resolve target).2)
  found target := resolve? source target reader
  IsGood := Resolver.Serves source reader
  start := Resolver.serves_ofSource source reader
  source_eq _ h := h.source_eq
  given_eq _ target h := (h.resolve target).1
  after _ target h := (h.resolve target).2
  sound _ _ h := h

/-- A resolution that always fails. -/
def broken (source : List Char) (reader : Reader) : Resolution source reader String where
  attempt resolver _ := (.error "boom", resolver)
  found _ := none
  IsGood resolver := resolver.source = source
  start := rfl
  source_eq _ h := h
  given_eq _ _ _ := rfl
  after _ _ h := h
  sound _ _ h := nomatch h

section

variable (source : List Char) (reader : Reader)

theorem findBy_resolution (resolver : Resolver) (marker : List Char) :
    findBy (resolution source reader).attempt resolver marker = find resolver marker := rfl

theorem findAllBy_resolution (resolver : Resolver) (markers : Markers) :
    findAllBy (resolution source reader).attempt resolver markers = findAll resolver markers := by
  induction markers generalizing resolver with
  | nil => rfl
  | cons entry markers ih => simp only [findAllBy, findAll, findBy_resolution, ih]

theorem extractSetBy?_resolution (version path : String) (markers : Markers) :
    extractSetBy? (resolution source reader).attempt source reader version path markers =
      extractSet? source version path markers reader := by
  rw [extractSetBy?, extractSet?, findAllBy_resolution]

end

/-! ## The fallbacks agree -/

/-- Whether the prompt that is found for a marker is the text that is extracted, with the strategy that
tells where it is from, and whether a table of markers is served in its order, unless nothing is
extracted for the marker of a system prompt. -/
structure Agree (source : List Char) (resolved : List Char → Option (List Char))
    (look : List Char → Finding) (extracted : List Char → Option (List Char))
    (extractSet : String → String → Markers → Option PromptSet) : Prop where
  text : ∀ marker, (look marker).text? = extracted marker
  scope : ∀ marker, (look marker).strategy? = some .scope ↔ ∃ text, resolved marker = some text
  lexical : ∀ marker, (look marker).strategy? = some .lexical ↔
    resolved marker = none ∧ ∃ text, locate? source marker = some text
  nonempty : ∀ marker, (look marker).text? ≠ some []
  findings : ∀ version path markers prompts, extractSet version path markers = some prompts →
    prompts.findings = markers.map fun entry => (entry.1, look entry.2.toList)
  missing : ∀ version path markers, (Pairs.keys markers).Nodup →
    (extractSet version path markers = none ↔ (∀ marker, (Name.system, marker) ∉ markers) ∨
      ∃ marker, (Name.system, marker) ∈ markers ∧ extracted marker.toList = none)

/-- Two texts that are not empty are found in turn. -/
theorem findingOr_cases {resolved located : Option (List Char)} (hresolved : resolved ≠ some [])
    (hlocated : located ≠ some []) :
    (∃ text, text ≠ [] ∧ resolved = some text ∧
      findingOr resolved .scope (findingOr located .lexical .absent) = .present text .scope) ∨
    (∃ text, text ≠ [] ∧ resolved = none ∧ located = some text ∧
      findingOr resolved .scope (findingOr located .lexical .absent) = .present text .lexical) ∨
    resolved = none ∧ located = none ∧
      findingOr resolved .scope (findingOr located .lexical .absent) = .absent := by
  match resolved, located, hresolved, hlocated with
  | some [], _, h, _ => exact absurd rfl h
  | some (c :: cs), _, _, _ => exact .inl ⟨_, List.cons_ne_nil c cs, rfl, rfl⟩
  | none, some [], _, h => exact absurd rfl h
  | none, some (c :: cs), _, _ => exact .inr (.inl ⟨_, List.cons_ne_nil c cs, rfl, rfl, rfl⟩)
  | none, none, _, _ => exact .inr (.inr ⟨rfl, rfl, rfl⟩)

namespace Resolution

variable {source : List Char} {reader : Reader} {ε : Type} (resolution : Resolution source reader ε)

theorem found_ne_some_nil (hreader : OpensTemplates reader) (target : List Char) :
    resolution.found target ≠ some [] :=
  fun h => resolve?_ne_some_nil hreader source target (resolution.sound target [] h)

theorem given_start (target : List Char) :
    given? (resolution.attempt (.ofSource source reader) target).1 = resolution.found target :=
  resolution.given_eq _ target resolution.start

/-- Every good state finds the same. -/
theorem findBy_eq {resolver : Resolver} (h : resolution.IsGood resolver) (marker : List Char) :
    (findBy resolution.attempt resolver marker).1 =
      findingOr (resolution.found marker) .scope
        (findingOr (locate? source marker) .lexical .absent) := by
  simp only [findBy, resolution.given_eq _ marker h,
    resolution.source_eq _ (resolution.after _ marker h)]

theorem extractBy?_eq (target : List Char) :
    extractBy? resolution.attempt source reader target =
      (resolution.found target <|> locate? source target) := by
  simp only [extractBy?, resolution.given_start,
    resolution.source_eq _ (resolution.after _ target resolution.start)]

theorem findAllBy_eq {resolver : Resolver} (h : resolution.IsGood resolver) (markers : Markers) :
    findAllBy resolution.attempt resolver markers = markers.map fun entry =>
      (entry.1, (findBy resolution.attempt (.ofSource source reader) entry.2.toList).1) := by
  induction markers generalizing resolver with
  | nil => rfl
  | cons entry markers ih =>
    have hafter : resolution.IsGood (findBy resolution.attempt resolver entry.2.toList).2 :=
      resolution.after resolver _ h
    simp only [findAllBy, List.map_cons, ih hafter, resolution.findBy_eq h,
      resolution.findBy_eq resolution.start]

/-- A marker finds what is given for it, or else the literal that is located, or nothing. -/
theorem findBy_cases (hreader : OpensTemplates reader) (marker : List Char) :
    (∃ text, text ≠ [] ∧ resolution.found marker = some text ∧
      (findBy resolution.attempt (.ofSource source reader) marker).1 = .present text .scope) ∨
    (∃ text, text ≠ [] ∧ resolution.found marker = none ∧ locate? source marker = some text ∧
      (findBy resolution.attempt (.ofSource source reader) marker).1 = .present text .lexical) ∨
    resolution.found marker = none ∧ locate? source marker = none ∧
      (findBy resolution.attempt (.ofSource source reader) marker).1 = .absent := by
  rw [resolution.findBy_eq resolution.start]
  exact findingOr_cases (resolution.found_ne_some_nil hreader marker)
    (locate?_ne_some_nil source marker)

theorem text?_findBy (hreader : OpensTemplates reader) (marker : List Char) :
    (findBy resolution.attempt (.ofSource source reader) marker).1.text? =
      extractBy? resolution.attempt source reader marker := by
  rw [resolution.extractBy?_eq]
  obtain ⟨text, -, hfound, hlook⟩ | ⟨text, -, hfound, hlocated, hlook⟩ | ⟨hfound, hlocated, hlook⟩ :=
    resolution.findBy_cases hreader marker
  · rw [hfound, hlook]
    rfl
  · rw [hfound, hlocated, hlook]
    rfl
  · rw [hfound, hlocated, hlook]
    rfl

theorem isPresent_findBy (hreader : OpensTemplates reader) (marker : List Char) :
    (findBy resolution.attempt (.ofSource source reader) marker).1.isPresent = true ↔
      extractBy? resolution.attempt source reader marker ≠ none := by
  rw [← resolution.text?_findBy hreader]
  cases (findBy resolution.attempt (.ofSource source reader) marker).1 <;>
    simp [Finding.isPresent, Finding.text?]

/-- The prompts of a source are those that each marker finds alone, if that of the system prompt finds
anything. -/
theorem extractSetBy?_eq_none_iff (hreader : OpensTemplates reader) (version path : String)
    {markers : Markers} (hnodup : (Pairs.keys markers).Nodup) :
    extractSetBy? resolution.attempt source reader version path markers = none ↔
      (∀ marker, (Name.system, marker) ∉ markers) ∨
        ∃ marker, (Name.system, marker) ∈ markers ∧
          extractBy? resolution.attempt source reader marker.toList = none := by
  have hsystem := @system_isPresent_map_iff version path markers
    (fun marker => (findBy resolution.attempt (.ofSource source reader) marker.toList).1) hnodup
  simp only [extractSetBy?, resolution.findAllBy_eq resolution.start, ite_eq_right_iff, reduceCtorEq,
    imp_false, hsystem, resolution.isPresent_findBy hreader, not_exists, not_and, ne_eq, not_not]
  constructor
  · intro hnone
    by_cases hmarker : ∃ marker, (Name.system, marker) ∈ markers
    · obtain ⟨marker, hmem⟩ := hmarker
      exact .inr ⟨marker, hmem, hnone marker hmem⟩
    · exact .inl (not_exists.mp hmarker)
  · rintro (hmissing | ⟨marker, hmem, hnone⟩) other hother
    · exact absurd hother (hmissing other)
    · -- a table has one marker for the system prompt
      have hsame := ((Pairs.get?_eq_some_iff hnodup).mpr hmem).symm.trans
        ((Pairs.get?_eq_some_iff hnodup).mpr hother)
      rwa [← Option.some.inj hsame]

/-- What is found agrees with what is extracted, whichever attempts fail. -/
theorem agree (hreader : OpensTemplates reader) : Agree source
    (fun marker => given? (resolution.attempt (.ofSource source reader) marker).1)
    (fun marker => (findBy resolution.attempt (.ofSource source reader) marker).1)
    (extractBy? resolution.attempt source reader)
    (extractSetBy? resolution.attempt source reader) where
  text := resolution.text?_findBy hreader
  scope marker := by
    rw [resolution.given_start]
    obtain ⟨text, -, hfound, hlook⟩ | ⟨text, -, hfound, -, hlook⟩ | ⟨hfound, -, hlook⟩ :=
      resolution.findBy_cases hreader marker <;> simp [hfound, hlook, Finding.strategy?]
  lexical marker := by
    rw [resolution.given_start]
    obtain ⟨text, -, hfound, hlook⟩ | ⟨text, -, hfound, hlocated, hlook⟩ | ⟨hfound, hlocated, hlook⟩ :=
      resolution.findBy_cases hreader marker
    · simp [hfound, hlook, Finding.strategy?]
    · simp [hfound, hlocated, hlook, Finding.strategy?]
    · simp [hfound, hlocated, hlook, Finding.strategy?]
  nonempty marker := by
    obtain ⟨text, hne, -, hlook⟩ | ⟨text, hne, -, -, hlook⟩ | ⟨-, -, hlook⟩ :=
      resolution.findBy_cases hreader marker <;> simp_all [Finding.text?]
  findings version path markers prompts h := by
    simp only [extractSetBy?, Option.ite_none_right_eq_some] at h
    obtain ⟨-, hprompts⟩ := h
    rw [← Option.some.inj hprompts]
    exact resolution.findAllBy_eq resolution.start markers
  missing version path markers hnodup :=
    resolution.extractSetBy?_eq_none_iff hreader version path hnodup

end Resolution

/-- Where every template literal begins before its substitutions, as in every tree that `parse?`
gives, what is found for a marker is the text that is extracted for it, and is not empty: the template
literal that is resolved, or where there is none the literal that is located in the source as it was
given. The prompts of a table of markers are found in its order, and there are none just if the table
has no marker for the system prompt or nothing is extracted for it. All this is so as well where
resolutions fail: a failure counts as if no template literal held the text. -/
theorem fallbacks_agree {reader : Reader} (hreader : OpensTemplates reader) (source : List Char) :
    Agree source (fun target => resolve? source target reader)
      (fun marker => (find (.ofSource source reader) marker).1)
      (fun target => extract? source target reader)
      (fun version path markers => extractSet? source version path markers reader) ∧
    ∀ {ε : Type} (resolution : Resolution source reader ε),
      Agree source (fun marker => given? (resolution.attempt (.ofSource source reader) marker).1)
        (fun marker => (findBy resolution.attempt (.ofSource source reader) marker).1)
        (extractBy? resolution.attempt source reader)
        (extractSetBy? resolution.attempt source reader) := by
  refine ⟨?_, fun resolution => resolution.agree hreader⟩
  have hset : extractSetBy? (resolution source reader).attempt source reader =
      fun version path markers => extractSet? source version path markers reader :=
    funext fun version => funext fun path => funext fun markers =>
      extractSetBy?_resolution source reader version path markers
  rw [← hset]
  exact (resolution source reader).agree hreader

/-- A template literal with a name in it is resolved, and is taken as it stands where resolutions fail.
A table without a marker for the system prompt gives no prompts, and neither does one whose marker is
nowhere. -/
theorem fallbacks_agree_template :
    let source := "const v=\"X\";f(`A $\x7bv\x7d`)".toList
    (find (.ofSource source) "A ".toList).1 = .present "`A X`".toList .scope ∧
    (findBy (broken source parse?).attempt (.ofSource source) "A ".toList).1 =
      .present "`A $\x7bv\x7d`".toList .lexical ∧
    extractSet? source "1.0.0" "cli.js" [(.todo, "A ")] = none ∧
    extractSet? source "1.0.0" "cli.js" [(.todo, "A "), (.system, "B ")] = none := by
  intro source
  obtain ⟨hagree, hall⟩ := fallbacks_agree opensTemplates_parse? source
  have hbroken := hall (broken source parse?)
  have hfinding {finding : Finding} {text : List Char} {strategy : Strategy}
      (htext : finding.text? = some text) (hstrategy : finding.strategy? = some strategy) :
      finding = .present text strategy := by
    cases finding with
    | absent => cases htext
    | present => cases htext; cases hstrategy; rfl
  have hresolve : resolve? source "A ".toList = some "`A X`".toList := by decide +kernel
  have hextract : extract? source "A ".toList = some "`A X`".toList := by decide +kernel
  have hlocate : locate? source "A ".toList = some "`A $\x7bv\x7d`".toList := by decide +kernel
  refine ⟨hfinding ((hagree.text _).trans hextract) ((hagree.scope _).mpr ⟨_, hresolve⟩),
    hfinding ((hbroken.text _).trans hlocate) ((hbroken.lexical _).mpr ⟨rfl, _, hlocate⟩),
    (hagree.missing _ _ _ (by decide)).mpr (.inl (by simp)),
    (hagree.missing _ _ _ (by decide)).mpr (.inr ⟨"B ", by decide, by decide +kernel⟩)⟩

end ReleasePrompts.Prompt
