import ReleasePrompts.Proofs.Scope.Chain

/-!
# Lookups that share what they collect

What a lookup leaves behind changes no later one: the layers that a resolver knows are those that it
would collect anew (`resolve_of_sound`), so lookups in any order give what each of them gives alone
(`answersBy_resolver`). The same is true of a resolver that reads its source when it is asked first
and knows the nodes by names of any kind (`Study`), as long as these tell the nodes of the tree apart
(`answersBy_study`).
-/

namespace ReleasePrompts.Scope

open Script Literal

/-! ## Lookups one after the other -/

/-- What a resolver is asked for. -/
inductive Lookup where
  | resolve (target : List Char)
  | extract (target : List Char)

/-- What a lookup gives that is the only one in a source. -/
def Lookup.alone (source : List Char) (reader : Reader) : Lookup → Option (List Char)
  | .resolve target => resolve? source target reader
  | .extract target => extract? source target reader

/-- What lookups give one after the other, with a state that goes from each to the next. -/
def answersBy {σ : Type} (act : σ → Lookup → Option (List Char) × σ) (state : σ) :
    List Lookup → List (Option (List Char))
  | [] => []
  | lookup :: lookups =>
    let (answer, state) := act state lookup
    answer :: answersBy act state lookups

/-- Where every good state gives the same answer to a lookup and stays good, so does every run. -/
theorem answersBy_eq_map {σ : Type} {act : σ → Lookup → Option (List Char) × σ}
    {answer : Lookup → Option (List Char)} {Good : σ → Prop}
    (hact : ∀ state lookup, Good state →
      (act state lookup).1 = answer lookup ∧ Good (act state lookup).2)
    {state : σ} (h : Good state) (lookups : List Lookup) :
    answersBy act state lookups = lookups.map answer := by
  induction lookups generalizing state with
  | nil => rfl
  | cons lookup lookups ih =>
    obtain ⟨hanswer, hgood⟩ := hact state lookup h
    simp only [answersBy, List.map_cons, hanswer, ih hgood]

/-- The template literal that holds a text, resolved with layers that are all collected anew. -/
def collected? (parsed : Option Parsed) (target : List Char) : Option (List Char) := do
  let parsed ← parsed
  let path ← pathToTarget? parsed.source parsed.tree target
  let last ← path.getLast?
  return substitute parsed.source (path.map fun step => layer parsed.source step.node) last.node

/-! ## A resolver -/

/-- A lookup gives what it gives anew, and leaves the resolver as sound as it was. -/
theorem resolve_of_sound {resolver : Resolver} (hsound : resolver.Sound) (target : List Char) :
    (resolver.resolve target).1 = collected? resolver.parsed target ∧
      (resolver.resolve target).2.Sound ∧
      (resolver.resolve target).2.parsed = resolver.parsed ∧
      (resolver.resolve target).2.source = resolver.source := by
  cases hparsed : resolver.parsed with
  | none =>
    have hnone : resolver.resolve target = (none, resolver) := by
      simp [Resolver.resolve, Resolver.locateTemplate?, hparsed]
    rw [hnone]
    exact ⟨rfl, hsound, hparsed, rfl⟩
  | some parsed =>
    cases hpath : pathToTarget? parsed.source parsed.tree target with
    | none =>
      have hnone : resolver.resolve target = (none, resolver) := by
        simp [Resolver.resolve, Resolver.locateTemplate?, hparsed, hpath]
      rw [hnone]
      exact ⟨by simp [collected?, hpath], hsound, hparsed, rfl⟩
    | some path =>
      obtain ⟨template, after, hat, -, hlocate, hafter, hkept, hsource⟩ :=
        locateTemplate?_spec hsound hparsed hpath
      have hway := (pathToTarget?_spec hpath).1
      have hend := getLast?_wayTo 0 hat
      rw [← hway] at hend
      obtain ⟨last, hlast, rfl⟩ := Option.map_eq_some_iff.mp hend
      simp only [Resolver.resolve, hlocate]
      refine ⟨?_, hafter, hkept, hsource⟩
      rw [layersTo, ← hway]
      simp [collected?, hpath, hlast]

theorem resolve?_eq (source target : List Char) (reader : Reader) :
    resolve? source target reader = collected? (Resolver.ofSource source reader).parsed target :=
  (resolve_of_sound (ofSource_sound source reader) target).1

theorem extract?_eq (source target : List Char) (reader : Reader) :
    extract? source target reader =
      (collected? (Resolver.ofSource source reader).parsed target <|> locate? source target) := by
  obtain ⟨hresolve, -, -, hsource⟩ := resolve_of_sound (ofSource_sound source reader) target
  simp only [extract?, Resolver.extract, hresolve, hsource]
  rfl

/-- Whether a resolver serves a source: it has read the source, and knows layers of it only. -/
structure Resolver.Serves (source : List Char) (reader : Reader) (resolver : Resolver) : Prop where
  sound : resolver.Sound
  parsed_eq : resolver.parsed = (Resolver.ofSource source reader).parsed
  source_eq : resolver.source = source

namespace Resolver

variable {source : List Char} {reader : Reader} {resolver : Resolver}

theorem serves_ofSource (source : List Char) (reader : Reader) :
    (ofSource source reader).Serves source reader :=
  ⟨ofSource_sound source reader, rfl, rfl⟩

theorem Serves.resolve (h : resolver.Serves source reader) (target : List Char) :
    (resolver.resolve target).1 = resolve? source target reader ∧
      (resolver.resolve target).2.Serves source reader := by
  obtain ⟨hresolve, hafter, hkept, hsame⟩ := resolve_of_sound h.sound target
  refine ⟨?_, hafter, hkept.trans h.parsed_eq, hsame.trans h.source_eq⟩
  rw [hresolve, resolve?_eq, h.parsed_eq]

theorem Serves.extract (h : resolver.Serves source reader) (target : List Char) :
    (resolver.extract target).1 = extract? source target reader ∧
      (resolver.extract target).2.Serves source reader := by
  obtain ⟨hresolve, hafter⟩ := h.resolve target
  refine ⟨?_, hafter⟩
  rw [extract?_eq, ← resolve?_eq]
  simp only [Resolver.extract, hresolve, hafter.source_eq]

/-- What a resolver answers to a lookup. -/
def answer (resolver : Resolver) : Lookup → Option (List Char) × Resolver
  | .resolve target => resolver.resolve target
  | .extract target => resolver.extract target

end Resolver

/-- A resolver that serves any lookups gives each what it gives alone. -/
theorem answersBy_resolver (source : List Char) (reader : Reader) (lookups : List Lookup) :
    answersBy Resolver.answer (.ofSource source reader) lookups =
      lookups.map (Lookup.alone source reader) := by
  refine answersBy_eq_map (fun resolver lookup h => ?_) (Resolver.serves_ofSource source reader)
    lookups
  cases lookup with
  | resolve target => exact h.resolve target
  | extract target => exact h.extract target

/-! ## A resolver that knows nodes by names -/

/-- A resolver at work: it reads its source when it is asked first, and keeps the layers that it
collects under the names of their nodes. -/
structure Study (ι : Type) where
  source : List Char
  reader : Reader := parse?
  /-- What reading the source gave, once it was tried. -/
  reading : Option (Option Parsed) := none
  known : List (ι × Layer) := []

/-- The nodes of a path with their addresses from the root. -/
def placed (path : Path) : List (Address × Node) := (addressed [] path).map (Prod.map List.tail id)

namespace Study

variable {ι : Type} [DecidableEq ι]

/-- Reads the source, unless that was done before. -/
def read (study : Study ι) : Option Parsed × Study ι :=
  match study.reading with
  | some reading => (reading, study)
  | none =>
    let reading := readUnder? defaultProfiles (preprocess study.source) study.reader
    (reading, { study with reading := some reading })

/-- The template literal that holds `target`, with the names in it resolved. -/
def resolve (name : Address → ι) (study : Study ι) (target : List Char) :
    Option (List Char) × Study ι :=
  let (parsed, study) := study.read
  match parsed with
  | none => (none, study)
  | some parsed =>
    match pathToTarget? parsed.source parsed.tree target with
    | none => (none, study)
    | some path =>
      let (chain, known) :=
        Resolver.chainAlong parsed.source study.known ((placed path).map (Prod.map name id))
      (path.getLast?.map fun last => substitute parsed.source chain last.node,
        { study with known })

/-- The resolved template literal that holds `target`, or else the literal there. -/
def extract (name : Address → ι) (study : Study ι) (target : List Char) :
    Option (List Char) × Study ι :=
  let (resolved, study) := study.resolve name target
  (resolved <|> locate? study.source target, study)

/-- What is answered to a lookup. -/
def answer (name : Address → ι) (study : Study ι) : Lookup → Option (List Char) × Study ι
  | .resolve target => study.resolve name target
  | .extract target => study.extract name target

end Study

/-- Whether the nodes of a tree go by different names. -/
def TellsApart {ι : Type} (name : Address → ι) (tree : Node) : Prop :=
  ∀ place other, (nodeAt? tree place).isSome → (nodeAt? tree other).isSome →
    name place = name other → place = other

/-- Whether a layer is that of the nodes that go by a name. -/
def IsLayerNamed {ι : Type} (name : Address → ι) (source : List Char) (tree : Node) (known : ι)
    (found : Layer) : Prop :=
  ∀ place node, nodeAt? tree place = some node → name place = known → found = layer source node

section

variable {ι : Type} {name : Address → ι} {source : List Char} {reader : Reader} {tree : Node}

theorem isLayerNamed_iff (hname : TellsApart name tree) {place : Address} {node : Node}
    {found : Layer} (hat : nodeAt? tree place = some node) :
    IsLayerNamed name source tree (name place) found ↔ found = layer source node := by
  constructor
  · exact fun h => h place node hat rfl
  · rintro rfl other rival hother hsame
    obtain rfl := hname other place (by rw [hother]; rfl) (by rw [hat]; rfl) hsame
    rw [Option.some.inj (hat.symm.trans hother)]

/-- The nodes on the way to a node stand at their addresses. -/
theorem nodeAt?_of_mem_placed {target : Node} {place : Address}
    (hat : nodeAt? tree place = some target) :
    ∀ entry ∈ placed (wayTo 0 tree place), nodeAt? tree entry.1 = some entry.2 := by
  refine List.forall_mem_map.mpr fun entry hentry => ?_
  obtain ⟨found, haddress, hnode⟩ :=
    mem_addressed_wayTo (show [] ++ [0] = 0 :: [] from rfl) rfl hat entry hentry
  rw [Prod.map_fst, haddress]
  exact hnode

variable [DecidableEq ι]

/-- The chain of a path holds the layers of its nodes, and what is known afterwards is right. -/
theorem chainAlong_placed (hname : TellsApart name tree) {target : Node} {place : Address}
    (hat : nodeAt? tree place = some target) {known : List (ι × Layer)}
    (hknown : Knows (IsLayerNamed name source tree) known) :
    (Resolver.chainAlong source known
        ((placed (wayTo 0 tree place)).map (Prod.map name id))).1 =
        (wayTo 0 tree place).map (fun step => layer source step.node) ∧
      Knows (IsLayerNamed name source tree) (Resolver.chainAlong source known
        ((placed (wayTo 0 tree place)).map (Prod.map name id))).2 := by
  have hentries : ∀ entry ∈ (placed (wayTo 0 tree place)).map (Prod.map name id), ∀ found,
      IsLayerNamed name source tree entry.1 found ↔ found = layer source entry.2 :=
    List.forall_mem_map.mpr fun entry hentry _ =>
      isLayerNamed_iff hname (nodeAt?_of_mem_placed hat entry hentry)
  obtain ⟨hchain, hafter⟩ := chainAlong_knows hentries hknown
  refine ⟨hchain.trans ?_, hafter⟩
  have hnodes := congrArg (List.map (layer source)) (snd_addressed [] (wayTo 0 tree place))
  rw [List.map_map, List.map_map] at hnodes
  rw [placed, List.map_map, List.map_map]
  exact hnodes

/-- Whether a resolver at work has read its source well, and knows layers by the right names. -/
structure Study.Sound (name : Address → ι) (study : Study ι) : Prop where
  reading : ∀ reading, study.reading = some reading →
    reading = (Resolver.ofSource study.source study.reader).parsed
  known : ∀ parsed, (Resolver.ofSource study.source study.reader).parsed = some parsed →
    Knows (IsLayerNamed name parsed.source parsed.tree) study.known

theorem Study.Sound.read {study : Study ι} (h : study.Sound name) :
    study.read.1 = (Resolver.ofSource study.source study.reader).parsed ∧ study.read.2.Sound name ∧
      study.read.2.source = study.source ∧ study.read.2.reader = study.reader := by
  unfold Study.read
  split
  · next reading hreading => exact ⟨h.reading reading hreading, h, rfl, rfl⟩
  · exact ⟨rfl, ⟨fun reading hreading => (Option.some.inj hreading).symm, h.known⟩, rfl, rfl⟩

theorem Study.Sound.resolve {study : Study ι} (h : study.Sound name)
    (hname : ∀ parsed, (Resolver.ofSource study.source study.reader).parsed = some parsed →
      TellsApart name parsed.tree) (target : List Char) :
    (study.resolve name target).1 = collected? (Resolver.ofSource study.source study.reader).parsed target ∧
      (study.resolve name target).2.Sound name ∧
      (study.resolve name target).2.source = study.source ∧
      (study.resolve name target).2.reader = study.reader := by
  obtain ⟨hread, hsound, hsource, hreader⟩ := h.read
  unfold Study.resolve
  rcases hr : study.read with ⟨_ | parsed, after⟩ <;>
    simp only [hr] at hread hsound hsource hreader ⊢ <;> rw [← hread]
  · exact ⟨rfl, hsound, hsource, hreader⟩
  · cases hpath : pathToTarget? parsed.source parsed.tree target with
    | none => exact ⟨by simp [collected?, hpath], hsound, hsource, hreader⟩
    | some path =>
      obtain ⟨hway, template, hat, -⟩ := pathToTarget?_spec hpath
      obtain ⟨hchain, hknown⟩ := chainAlong_placed (hname parsed hread.symm) hat
        (hsound.known parsed (hsource ▸ hreader ▸ hread.symm))
      rw [← hway] at hchain hknown
      refine ⟨?_, ⟨hsound.reading, fun other hother => ?_⟩, hsource, hreader⟩
      · simp only [hchain]
        cases hlast : path.getLast? <;> simp [collected?, hpath, hlast]
      · obtain rfl := Option.some.inj (hread.trans (hsource ▸ hreader ▸ hother))
        exact hknown

/-- A resolver at work gives each of any lookups what it gives alone, whatever the nodes are called. -/
theorem answersBy_study (hname : ∀ parsed, (Resolver.ofSource source reader).parsed = some parsed →
      TellsApart name parsed.tree) (lookups : List Lookup) :
    answersBy (Study.answer name) { source, reader } lookups =
      lookups.map (Lookup.alone source reader) := by
  have hempty : Study.Sound name { source, reader } := ⟨nofun, fun _ _ _ _ h => nomatch h⟩
  have hstart : Study.Sound name { source, reader } ∧ source = source ∧ reader = reader :=
    ⟨hempty, rfl, rfl⟩
  refine @answersBy_eq_map _ _ _
    (fun study => study.Sound name ∧ study.source = source ∧ study.reader = reader)
    (fun study lookup ⟨hsound, hsource, hreader⟩ => ?_) _ hstart lookups
  subst hsource hreader
  cases lookup with
  | resolve target =>
    obtain ⟨hresolve, hafter, hsame⟩ := hsound.resolve hname target
    exact ⟨hresolve.trans (resolve?_eq _ _ _).symm, hafter, hsame⟩
  | extract target =>
    obtain ⟨hresolve, hafter, hsame⟩ := hsound.resolve hname target
    refine ⟨?_, hafter, hsame⟩
    simp only [Study.answer, Study.extract, Lookup.alone, extract?_eq, hresolve, hsame]

end

end ReleasePrompts.Scope
