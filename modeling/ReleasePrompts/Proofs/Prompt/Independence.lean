import Mathlib.Logic.Equiv.List
import ReleasePrompts.Prompt.Extraction
import ReleasePrompts.Proofs.Cache.Store
import ReleasePrompts.Proofs.Scope.Reuse

/-!
# Every lookup for itself

A source may be searched for any texts with one resolver: each gets what it gets alone, whatever was
looked up before and whatever was found (`lookups_independent`). So the prompts of a release do not
depend on what other prompts are looked for, nor on their order (`findAll_eq`).
-/

namespace ReleasePrompts.Prompt

open Scope Script

/-- What is found for a marker that is the only one looked for in a source. -/
def findAlone (source : List Char) (reader : Reader) (marker : String) : Finding :=
  (find (Resolver.ofSource source reader) marker.toList).1

theorem find_of_serves {source : List Char} {reader : Reader} {resolver : Resolver}
    (h : resolver.Serves source reader) (marker : String) :
    (find resolver marker.toList).1 = findAlone source reader marker ∧
      (find resolver marker.toList).2.Serves source reader := by
  obtain ⟨hresolve, hafter⟩ := h.resolve marker.toList
  obtain ⟨halone, hsame⟩ := (Resolver.serves_ofSource source reader).resolve marker.toList
  refine ⟨?_, hafter⟩
  simp only [findAlone, find, hresolve, halone, hafter.source_eq, hsame.source_eq]

/-- What markers find in a source, each for itself. -/
def findings (source : List Char) (reader : Reader) (markers : Markers) : List (Name × Finding) :=
  markers.map fun entry => (entry.1, findAlone source reader entry.2)

/-- Every marker finds what it finds alone. -/
theorem findAll_eq (source : List Char) (reader : Reader) (markers : Markers) :
    findAll (.ofSource source reader) markers = findings source reader markers := by
  suffices hall : ∀ resolver : Resolver, resolver.Serves source reader →
      findAll resolver markers = findings source reader markers from
    hall _ (Resolver.serves_ofSource source reader)
  induction markers with
  | nil => exact fun _ _ => rfl
  | cons entry markers ih =>
    intro resolver h
    obtain ⟨hfind, hafter⟩ := find_of_serves h entry.2
    simp only [findAll, hfind, ih _ hafter, findings, List.map_cons]

theorem keys_map (look : String → Finding) (markers : Markers) :
    Pairs.keys (markers.map fun entry => (entry.1, look entry.2)) = Pairs.keys markers := by
  simp [Pairs.keys, Function.comp_def]

section

variable {source : List Char} {version path : String} {markers : Markers} {name : Name}

/-- A set that holds for each prompt what is found for its marker. -/
theorem finding_of_mem_map {look : String → Finding} (hnodup : (Pairs.keys markers).Nodup)
    {marker : String} (hmem : (name, marker) ∈ markers) :
    PromptSet.finding ⟨version, path, markers.map fun entry => (entry.1, look entry.2)⟩ name =
      look marker := by
  have hfound : (name, look marker) ∈ markers.map fun entry => (entry.1, look entry.2) :=
    List.mem_map.mpr ⟨(name, marker), hmem, rfl⟩
  have hkeys : (Pairs.keys (markers.map fun entry => (entry.1, look entry.2))).Nodup := by
    rwa [keys_map]
  rw [PromptSet.finding, (Pairs.get?_eq_some_iff hkeys).mpr hfound, Option.getD_some]

/-- A set holds nothing for a prompt without a marker. -/
theorem finding_of_not_mem_map {look : String → Finding} (hname : name ∉ Pairs.keys markers) :
    PromptSet.finding ⟨version, path, markers.map fun entry => (entry.1, look entry.2)⟩ name =
      .absent := by
  have hkeys : name ∉ Pairs.keys (markers.map fun entry => (entry.1, look entry.2)) := by
    rwa [keys_map]
  rw [PromptSet.finding, Pairs.get?_eq_none_iff.mpr hkeys, Option.getD_none]

/-- There is a system prompt just if something is found for its marker. -/
theorem system_isPresent_map_iff {look : String → Finding} (hnodup : (Pairs.keys markers).Nodup) :
    (PromptSet.finding ⟨version, path, markers.map fun entry => (entry.1, look entry.2)⟩
        .system).isPresent = true ↔
      ∃ marker, (Name.system, marker) ∈ markers ∧ (look marker).isPresent = true := by
  constructor
  · intro h
    by_cases hname : Name.system ∈ Pairs.keys markers
    · obtain ⟨⟨name, marker⟩, hmem, rfl⟩ := List.mem_map.mp hname
      exact ⟨marker, hmem, by rwa [finding_of_mem_map hnodup hmem] at h⟩
    · rw [finding_of_not_mem_map hname] at h
      cases h
  · rintro ⟨marker, hmem, h⟩
    rwa [finding_of_mem_map hnodup hmem]

/-- The prompts of a source are what each marker finds alone, if the marker of the system prompt
finds anything. -/
theorem extractSet?_eq (source : List Char) (reader : Reader) (version path : String)
    (markers : Markers) :
    extractSet? source version path markers reader =
      if (PromptSet.finding ⟨version, path, findings source reader markers⟩ .system).isPresent then
        some ⟨version, path, findings source reader markers⟩
      else none := by
  rw [extractSet?, findAll_eq]

end

/-- Lookups in a source that share a resolver give what each of them gives alone, however often and in
whatever order the texts are looked up. So does a resolver that reads the source at the first lookup
and knows the nodes by names, as long as no two nodes go by one name. Of a table of markers each
finds what it finds alone, and there are prompts just if the marker of the system prompt does. -/
theorem lookups_independent (source : List Char) (reader : Reader) :
    (∀ lookups, answersBy Resolver.answer (.ofSource source reader) lookups =
      lookups.map (Lookup.alone source reader)) ∧
    (∀ {ι : Type} [DecidableEq ι] (name : Address → ι),
      (∀ parsed, (Resolver.ofSource source reader).parsed = some parsed →
        TellsApart name parsed.tree) →
      ∀ lookups, answersBy (Study.answer name) { source, reader } lookups =
        lookups.map (Lookup.alone source reader)) ∧
    ∀ version path markers, (Pairs.keys markers).Nodup →
      ((extractSet? source version path markers reader).isSome ↔
        ∃ marker, (Name.system, marker) ∈ markers ∧
          (findAlone source reader marker).isPresent = true) ∧
      ∀ prompts, extractSet? source version path markers reader = some prompts →
        prompts.version = version ∧ prompts.path = path ∧
        prompts.findings = markers.map (fun entry => (entry.1, findAlone source reader entry.2)) ∧
        ∀ name marker, (name, marker) ∈ markers →
          prompts.finding name = findAlone source reader marker := by
  refine ⟨answersBy_resolver source reader, fun name hname => answersBy_study hname,
    fun version path markers hnodup => ?_⟩
  have hsystem := @system_isPresent_map_iff version path markers (findAlone source reader) hnodup
  rw [extractSet?_eq]
  split
  · next h =>
    refine ⟨⟨fun _ => hsystem.mp h, fun _ => rfl⟩, fun prompts hprompts => ?_⟩
    obtain rfl := Option.some.inj hprompts
    exact ⟨rfl, rfl, rfl, fun name marker hmem => finding_of_mem_map hnodup hmem⟩
  · next h => exact ⟨⟨nofun, fun hex => absurd (hsystem.mpr hex) h⟩, nofun⟩

/-- A script with three template literals, the last of which is inside a function. -/
def threeTemplates : List Char :=
  "const v=\"X\",a=`A $\x7bv\x7d`,b=`B $\x7bv\x7d`;function f(v)\x7breturn `C $\x7bv\x7d`\x7d".toList

/-- The nodes are known by numbers; texts are looked up again and again, one of them in vain. -/
theorem lookups_independent_numbered :
    answersBy (Study.answer (Encodable.encode : Address → Nat)) { source := threeTemplates }
        [.resolve "B ".toList, .extract "D".toList, .resolve "C ".toList, .extract "A ".toList,
          .resolve "B ".toList] =
      [some "`B X`".toList, none, some "`C $\x7bv\x7d`".toList, some "`A X`".toList,
        some "`B X`".toList] ∧
    ((extractSet? threeTemplates "1.0.0" "cli.js" [(.todo, "C "), (.system, "B ")]).map fun prompts =>
        (prompts.finding .system, prompts.finding .todo)) =
      some (.present "`B X`".toList .scope, .present "`C $\x7bv\x7d`".toList .scope) := by
  obtain ⟨-, hstudy, hset⟩ := lookups_independent threeTemplates parse?
  have hname : ∀ parsed, (Resolver.ofSource threeTemplates).parsed = some parsed →
      TellsApart (Encodable.encode : Address → Nat) parsed.tree :=
    fun _ _ _ _ _ _ h => Encodable.encode_injective h
  obtain ⟨hsome, hfound⟩ := hset "1.0.0" "cli.js" [(.todo, "C "), (.system, "B ")] (by decide)
  have hsystem : findAlone threeTemplates parse? "B " = .present "`B X`".toList .scope := by decide +kernel
  have htodo : findAlone threeTemplates parse? "C " = .present "`C $\x7bv\x7d`".toList .scope := by
    decide +kernel
  refine ⟨(hstudy Encodable.encode hname _).trans (by decide +kernel), ?_⟩
  obtain ⟨prompts, hprompts⟩ := Option.isSome_iff_exists.mp
    (hsome.mpr ⟨"B ", by decide, by rw [hsystem]; rfl⟩)
  obtain ⟨-, -, -, hfinding⟩ := hfound prompts hprompts
  rw [hprompts, Option.map_some, hfinding .system "B " (by decide),
    hfinding .todo "C " (by decide), hsystem, htodo]

end ReleasePrompts.Prompt
