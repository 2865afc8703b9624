import ReleasePrompts.Proofs.Archive.Stored
import ReleasePrompts.Proofs.Registry.Download
import ReleasePrompts.Proofs.Service.Batches

/-!
# Tabs say what can be compared

A comparison says for each prompt of the marker table whether both versions have it. That is also
whether a comparison of that prompt succeeds, for the system prompt too, which is never asked after:
no version is loaded without it (`system_isPresent_of_loadDirectly`). A comparison that fails names
the versions that lack the prompt (`tabs_predict`).
-/

namespace ReleasePrompts.Service

open Archive Prompt Registry Text Web

variable {config : Config} {world : World} {base compared tab version : String}
  {left right prompts : PromptSet} {name : Name}

/-! ## Comparisons of given prompts -/

/-- Whether two versions both have a prompt. -/
def haveBoth (left right : PromptSet) (name : Name) : Bool :=
  (left.finding name).isPresent && (right.finding name).isPresent

theorem lacking_isEmpty : (lacking name base compared left right).isEmpty = haveBoth left right name := by
  rw [lacking, haveBoth]
  cases (left.finding name).isPresent <;> cases (right.finding name).isPresent <;> rfl

/-- Prompts of versions that both have a system prompt are compared just if both have the prompt of
the tab. -/
theorem compareSets_eq (markers : Markers) (hsystem : haveBoth left right .system = true) :
    (haveBoth left right name = true → ∃ comparison : Comparison,
      compareSets markers base compared name left right = .ok comparison ∧
        comparison.tabs = markers.map fun entry => ⟨entry.1, haveBoth left right entry.1⟩) ∧
    (haveBoth left right name = false → compareSets markers base compared name left right =
      .error (.promptMissing name.key name.missing (lacking name base compared left right))) := by
  have hmissing : (if name = .system then [] else lacking name base compared left right).isEmpty =
      haveBoth left right name := by
    split
    · next hname => rw [hname, hsystem]; rfl
    · exact lacking_isEmpty
  refine ⟨fun h => ?_, fun h => ?_⟩
  · rw [compareSets, hmissing, h, if_pos rfl]
    exact ⟨_, rfl, rfl⟩
  · have hname : name ≠ .system := by
      rintro rfl
      rw [hsystem] at h
      cases h
    rw [compareSets, hmissing, h, if_neg Bool.false_ne_true, if_neg hname]

/-! ## Prompts that are loaded -/

theorem system_isPresent_of_extractSet? {source : List Char} {path : String} {markers : Markers}
    {reader : Script.Reader} (h : extractSet? source version path markers reader = some prompts) :
    (prompts.finding .system).isPresent = true := by
  simp only [extractSet?] at h
  split at h
  · next hsystem =>
      cases h
      exact hsystem
  · cases h

/-- No version is loaded without a system prompt. -/
theorem system_isPresent_of_loadDirectly (h : loadDirectly config world version = .ok prompts) :
    (prompts.finding .system).isPresent = true := by
  simp only [loadDirectly, bind, Except.bind] at h
  split at h
  · cases h
  split at h
  · cases h
  split at h
  · cases h
  split at h
  · cases h
  split at h
  · next hprompts =>
      cases h
      exact system_isPresent_of_extractSet? hprompts
  · cases h

/-- Whether a version is loaded without a prompt. -/
def lacks (config : Config) (world : World) (name : Name) (version : String) : Bool :=
  match loadDirectly config world version with
  | .ok prompts => !(prompts.finding name).isPresent
  | .error _ => false

theorem lacking_eq_filter (hleft : loadDirectly config world base = .ok left)
    (hright : loadDirectly config world compared = .ok right) :
    lacking name base compared left right = [base, compared].filter (lacks config world name) := by
  have hbase : lacks config world name base = !(left.finding name).isPresent := by rw [lacks, hleft]
  have hcompared : lacks config world name compared = !(right.finding name).isPresent := by
    rw [lacks, hright]
  rw [lacking, List.filter_cons, List.filter_cons, List.filter_nil, hbase, hcompared]
  cases (left.finding name).isPresent <;> cases (right.finding name).isPresent <;> rfl

/-! ## Comparisons by a service -/

/-- A service at rest answers a request so, at some time and among some others. -/
def Answered (config : Config) (world : World) (request : Request)
    (outcome : Except Problem Answer) : Prop :=
  ∃ (state : State) (requests : List Request) (i : Nat), AtRest config world state ∧
    requests[i]? = some request ∧ (serve config world state requests).1[i]? = some outcome

theorem Answered.eq_compareLoaded {outcome : Except Problem Answer}
    (h : Answered config world (.compare (some base) (some compared) tab) outcome)
    (hne : base ≠ compared) (hleft : loadDirectly config world base = .ok left)
    (hright : loadDirectly config world compared = .ok right) :
    outcome = compareLoaded config base compared tab left right := by
  obtain ⟨state, requests, i, hrest, hrequest, houtcome⟩ := h
  have hserved := (hrest.serve requests).2 hrequest hne hleft hright
  exact Option.some.inj (houtcome.symm.trans hserved)

theorem length_eachWith {σ α β : Type} (act : σ → α → β × σ) (state : σ) (values : List α) :
    (eachWith act state values).1.length = values.length := by
  induction values generalizing state with
  | nil => rfl
  | cons value values ih => exact congrArg Nat.succ (ih _)

/-- Every request is answered. -/
theorem length_serve (state : State) (requests : List Request) :
    (serve config world state requests).1.length = requests.length := by
  simp only [serve, List.length_map, length_eachWith]

/-- A comparison may come to a service that has answered nothing yet. -/
theorem answered_compareLoaded (tab : String) (hne : base ≠ compared)
    (hleft : loadDirectly config world base = .ok left)
    (hright : loadDirectly config world compared = .ok right) :
    Answered config world (.compare (some base) (some compared) tab)
      (compareLoaded config base compared tab left right) := by
  have hrest := (steady_fresh config world 0).toAtRest
  exact ⟨.fresh 0, [.compare (some base) (some compared) tab], 0, hrest, rfl,
    (hrest.serve _).2 rfl hne hleft hright⟩

theorem AtRest.eachWith_serve {state : State} (h : AtRest config world state)
    (batches : List (List Request)) :
    AtRest config world (eachWith (Service.serve config world) state batches).2 := by
  induction batches generalizing state with
  | nil => exact h
  | cons requests batches ih => exact ih (h.serve requests).1

theorem tabOf_key (name : Name) : tabOf name.key = .ok name := by
  rw [tabOf, Name.ofKey?_key]

/-- A comparison that succeeds shows for each prompt of the marker table whether both versions have
it. -/
theorem tabs_of_compareLoaded {comparison : Comparison} (hsystem : haveBoth left right .system = true)
    (h : compareLoaded config base compared tab left right = .ok (.comparison comparison)) :
    comparison.tabs = config.markers.map fun entry => ⟨entry.1, haveBoth left right entry.1⟩ := by
  rw [compareLoaded] at h
  split at h
  · cases h
  · next name _ =>
      obtain ⟨havailable, hmissing⟩ :=
        @compareSets_eq base compared left right name config.markers hsystem
      cases hboth : haveBoth left right name with
      | true =>
        obtain ⟨other, hother, htabs⟩ := havailable hboth
        rw [hother] at h
        cases h
        exact htabs
      | false =>
        rw [hmissing hboth] at h
        cases h

/-- A service that has answered whatever requests, any number of them at a time, is at rest: it is
true to the registry, and the loads that are left never end. It leaves no request out. For two
versions that can be loaded the tabs of a comparison are the prompts of the marker table, and a tab
is available just if a comparison of its prompt succeeds; otherwise that fails, naming the versions
that lack the prompt. -/
theorem tabs_predict (config : Config) (world : World) :
    (∀ limit batches, AtRest config world (eachWith (serve config world) (.fresh limit) batches).2) ∧
    (∀ state requests, (serve config world state requests).1.length = requests.length) ∧
    ∀ base compared left right, base ≠ compared → loadDirectly config world base = .ok left →
      loadDirectly config world compared = .ok right →
      ∀ tab comparison, Answered config world (.compare (some base) (some compared) tab)
          (.ok (.comparison comparison)) →
        comparison.tabs.map Tab.name = Pairs.keys config.markers ∧
        ∀ entry ∈ comparison.tabs, ∀ outcome,
          Answered config world (.compare (some base) (some compared) entry.name.key) outcome →
          (entry.available = true ↔ ∃ other, outcome = .ok (.comparison other)) ∧
          (entry.available = false → outcome = .error (.failure (.promptMissing entry.name.key
            entry.name.missing ([base, compared].filter (lacks config world entry.name))))) := by
  refine ⟨fun limit batches => (steady_fresh config world limit).eachWith_serve batches,
    length_serve, fun base compared left right hne hleft hright tab comparison hcomparison => ?_⟩
  have hsystem : haveBoth left right .system = true := by
    rw [haveBoth, system_isPresent_of_loadDirectly hleft, system_isPresent_of_loadDirectly hright]
    rfl
  rw [tabs_of_compareLoaded hsystem (hcomparison.eq_compareLoaded hne hleft hright).symm]
  refine ⟨by simp [Pairs.keys], fun entry hentry outcome houtcome => ?_⟩
  obtain ⟨⟨name, marker⟩, -, rfl⟩ := List.mem_map.mp hentry
  rw [houtcome.eq_compareLoaded hne hleft hright, compareLoaded, tabOf_key,
    ← lacking_eq_filter hleft hright]
  dsimp only
  obtain ⟨havailable, hmissing⟩ :=
    @compareSets_eq base compared left right name config.markers hsystem
  cases hboth : haveBoth left right name with
  | true =>
    obtain ⟨other, hother, -⟩ := havailable hboth
    rw [hother]
    exact ⟨⟨fun _ => ⟨other, rfl⟩, fun _ => rfl⟩, fun hfalse => by cases hfalse⟩
  | false =>
    rw [hmissing hboth]
    refine ⟨⟨fun htrue => ?_, ?_⟩, fun _ => rfl⟩
    · cases htrue
    · rintro ⟨other, hother⟩
      cases hother

/-! ### A version without one of the prompts -/

theorem loadDirectly_eq_ok {tarball : Document.Value} {data : Bytes} {path : String}
    {source : List Char} (hlocated : located config world version = .ok tarball)
    (hdownload : (config.client.download world.reply version tarball).outcome = .ok data)
    (hprogram : programOf? config version data = some (.ok (path, source)))
    (hextract : extractSet? source version path config.markers world.reader = some prompts) :
    loadDirectly config world version = .ok prompts := by
  simp only [loadDirectly, hlocated, Except.mapError, bind, Except.bind, hdownload, hprogram, hextract]

/-- A tarball with one file. -/
def tarballWith (m : Member) : Bytes := store (archive [.member m] .nothing)

theorem programOf_tarballWith {m : Member} (hregular : m.isRegular = true)
    (hlimit : config.archiveLimit = none) (hpath : String.ofList m.path ∈ config.programFiles)
    (hsize : (archive [.member m] .nothing).size ≤ storedSize) :
    programOf? config version (tarballWith m) = some (.ok (m.entry.path, m.entry.text.toList)) := by
  have hdata : decompress (tarballWith m) config.archiveLimit = .ok (archive [.member m] .nothing) := by
    rw [hlimit]
    exact decompress_store hsize
  have hunpack : unpack? (archive [.member m] .nothing) = some [m.entry] := by
    have h := unpackFrom?_items [.member m] .nothing [] []
      (show 1 < 2 * ((archive [.member m] .nothing).size / blockSize) + 4 by omega)
    have hentries : [Item.member m].filterMap Item.entry? = [m.entry] := by
      simp [Item.entry?, hregular]
    rw [List.nil_append, hentries] at h
    exact h
  have hfind : findEntry? [m.entry] config.programFiles = some m.entry := by
    simp [ findEntry?, Member.entry, hpath]
  rw [programOf?, hdata]
  simp only [hunpack, Option.map_some, hfind]

/-- A world that does not fail sends the tarball that an address names. -/
theorem download_eq {site : Site} {client : Client} {address : String} {body : Bytes}
    (hlimit : client.downloadLimit = none) (haddress : addressFault? address.toList = none)
    (hvisit : visitOf (Address.ofText address.toList).target = .tarball version)
    (hfaults : site.tarballFaults = []) (hbody : Pairs.get? site.tarballs version = some body) :
    (client.download site.reply version (.string address)).outcome = .ok body := by
  have hreact : site.react (Address.ofText address.toList).target = .response 200 none body := by
    simp only [Site.react, hvisit, Site.tarballFault, hfaults, hbody]
    rfl
  have hreply : (site.reply (Address.ofText address.toList).target).outcome = .ok ⟨200, body⟩ := by
    simp only [Site.reply, Site.follow.eq_def, hreact]
  have hwhole : client.tarballOf version ⟨200, body⟩ = .ok body :=
    tarballOf_of_le (by decide) (by simp [hlimit]) version
  simp [Client.download, haddress, hreply, hwhole, Except.mapError]

/-- A member that is the file `c` with a few bytes. -/
def shortMember (content : Bytes) (h : content.size < 8) : Member where
  path := ['c']
  content := content
  flag := 48
  sizeField := [content.size].map digitByte ++ List.replicate 11 0
  owner := List.replicate 24 0
  stamp := List.replicate 20 0
  others := List.replicate 355 0
  named := List.cons_ne_nil _ _
  no_zero := by decide
  path_le := by decide +kernel
  states := ⟨rfl, _, _, Spells.map_digitByte (by simpa using h), List.cons_ne_nil _ _, by simp,
    .inr ⟨_, rfl⟩⟩
  owner_length := List.length_replicate
  stamp_length := List.length_replicate
  others_length := List.length_replicate

theorem size_shortMember_le {content : Bytes} (h : content.size < 8) :
    (archive [.member (shortMember content h)] .nothing).size ≤ storedSize := by
  have hheader := (shortMember content h).length_header
  have hcontent : (shortMember content h).content.size < 8 := h
  simp only [archive, Item.bytes, Ending.bytes, Member.bytes, List.flatMap_cons, List.flatMap_nil,
    List.append_nil, List.size_toArray, List.length_append, hheader, Array.length_toList,
    blockPadding, Array.size_replicate, blockSize, storedSize]
  omega

/-- Two quoted texts and one of them. -/
def quotedBoth : Bytes := encode "'S''B'".toList

def quotedOne : Bytes := encode "'S'".toList

theorem size_quotedBoth_lt : quotedBoth.size < 8 := by decide +kernel

theorem size_quotedOne_lt : quotedOne.size < 8 := by decide +kernel

/-- A service for two versions, the second of which has no bash prompt. -/
def quotedConfig : Config where
  client := { package := "p" }
  programFiles := ["c"]
  markers := [(.system, "S"), (.bash, "B")]

def quotedSite : Site where
  package := "p"
  tarballs := [("1", tarballWith (shortMember quotedBoth size_quotedBoth_lt)),
    ("2", tarballWith (shortMember quotedOne size_quotedOne_lt))]

theorem located_quotedSite (h : version ∈ ["1", "2"]) :
    located quotedConfig quotedSite version = .ok (.string (tarballAddress version)) := by
  have hnamed : ∀ version ∈ ["1", "2"],
      (located quotedConfig quotedSite version).toOption.bind Document.Value.string? =
        some (tarballAddress version) := by
    decide +kernel
  have hversion := hnamed version h
  cases hlocated : located quotedConfig quotedSite version with
  | error failure =>
    rw [hlocated] at hversion
    cases hversion
  | ok value =>
    rw [hlocated] at hversion
    cases value with
    | string address =>
      cases hversion
      rfl
    | _ => cases hversion

theorem loadDirectly_quotedSite {content : Bytes} {h : content.size < 8} (hv : version ∈ ["1", "2"])
    (hbody : Pairs.get? quotedSite.tarballs version = some (tarballWith (shortMember content h)))
    (hextract : extractSet? (ofBytes content).toList version "c" quotedConfig.markers =
      some prompts) :
    loadDirectly quotedConfig quotedSite version = .ok prompts := by
  have haddress : ∀ version ∈ ["1", "2"], addressFault? (tarballAddress version).toList = none ∧
      visitOf (Address.ofText (tarballAddress version).toList).target = .tarball version := by
    decide +kernel
  have hdownload := @download_eq version quotedSite quotedConfig.client _ _ rfl
    (haddress version hv).1 (haddress version hv).2 rfl hbody
  have hprogram := @programOf_tarballWith quotedConfig version (shortMember content h) rfl rfl
    (List.mem_singleton.mpr rfl) (size_shortMember_le h)
  exact loadDirectly_eq_ok (located_quotedSite hv) hdownload hprogram hextract

/-- The prompts of the two versions. -/
def promptsBoth : PromptSet := ⟨"1", "c",
  [(.system, .present "'S'".toList .lexical), (.bash, .present "'B'".toList .lexical)]⟩

def promptsOne : PromptSet := ⟨"2", "c", [(.system, .present "'S'".toList .lexical), (.bash, .absent)]⟩

set_option maxRecDepth 100000 in
theorem extractSet?_quoted :
    extractSet? (ofBytes quotedBoth).toList "1" "c" quotedConfig.markers = some promptsBoth ∧
      extractSet? (ofBytes quotedOne).toList "2" "c" quotedConfig.markers = some promptsOne := by
  decide +kernel

/-- The tabs of a comparison with a version that has no bash prompt say so, and a comparison of the
bash prompts fails and names that version. -/
theorem tabs_predict_without_bash :
    loadDirectly quotedConfig quotedSite "1" = .ok promptsBoth ∧
    loadDirectly quotedConfig quotedSite "2" = .ok promptsOne ∧
    ∃ comparison, Answered quotedConfig quotedSite (.compare (some "1") (some "2") "system")
        (.ok (.comparison comparison)) ∧
      comparison.tabs = [⟨.system, true⟩, ⟨.bash, false⟩] ∧
      ∀ outcome, Answered quotedConfig quotedSite (.compare (some "1") (some "2") "bash") outcome →
        outcome = .error (.failure (.promptMissing "bash" "Bash tools prompt" ["2"])) := by
  have hleft : loadDirectly quotedConfig quotedSite "1" = .ok promptsBoth :=
    loadDirectly_quotedSite (by decide) rfl extractSet?_quoted.1
  have hright : loadDirectly quotedConfig quotedSite "2" = .ok promptsOne :=
    loadDirectly_quotedSite (by decide) rfl extractSet?_quoted.2
  have hne : "1" ≠ "2" := by decide
  obtain ⟨havailable, -⟩ :=
    @compareSets_eq "1" "2" promptsBoth promptsOne .system quotedConfig.markers rfl
  obtain ⟨comparison, hcomparison, htabs⟩ := havailable rfl
  have hanswered := answered_compareLoaded "system" hne hleft hright
  have hlacking := @lacking_eq_filter _ _ _ _ _ _ .bash hleft hright
  rw [compareLoaded, show tabOf "system" = .ok .system from rfl] at hanswered
  dsimp only at hanswered
  rw [hcomparison] at hanswered
  obtain ⟨-, -, hpredict⟩ := tabs_predict quotedConfig quotedSite
  obtain ⟨-, hentries⟩ := hpredict "1" "2" promptsBoth promptsOne hne hleft hright "system" comparison
    hanswered
  refine ⟨hleft, hright, comparison, hanswered, htabs, fun outcome houtcome => ?_⟩
  obtain ⟨-, hmissing⟩ := hentries ⟨.bash, false⟩ (by rw [htabs]; decide) outcome houtcome
  rw [hmissing rfl, ← hlacking]
  rfl

end ReleasePrompts.Service
