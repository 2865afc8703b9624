import Mathlib
import ReleasePrompts.Registry.Client

/-!
# What a document has to be

A document describes a package if it is an object with an object of versions
(`ofDocument?_eq_none_iff`). Of its versions those count that name a tarball which is neither null,
false, zero nor empty, in the order of the document (`mem_tarballs_iff`), and of its times those that
are strings. So the metadata is `Sound`, with strings where strings are meant, just if neither a
tarball nor the name is a value of another kind (`ofDocument?_sound_iff`).
-/

namespace ReleasePrompts.Registry

open Document Text

/-! ## The parts of a document -/

/-- Whether a value is an object with a given member. -/
def HasMember (value : Value) (name : String) (content : Value) : Prop :=
  ∃ members, value = .object members ∧ Pairs.get? members name = some content

theorem member?_eq_some_iff {value content : Value} {name : String} :
    value.member? name = some content ↔ HasMember value name content := by
  cases value with
  | object members =>
    exact ⟨fun h => ⟨members, rfl, h⟩, fun ⟨_, heq, h⟩ => by cases heq; exact h⟩
  | _ => exact ⟨nofun, fun ⟨_, heq, _⟩ => nomatch heq⟩

theorem members?_eq_some_iff {value : Value} {members : List (String × Value)} :
    value.members? = some members ↔ value = .object members := by
  cases value <;> simp [Value.members?]

theorem string?_eq_some_iff {value : Value} {text : String} :
    value.string? = some text ↔ value = .string text := by
  cases value <;> simp [Value.string?]

/-- The versions of a document. -/
def HasVersions (document : Value) (versions : List (String × Value)) : Prop :=
  HasMember document "versions" (.object versions)

/-- Whether the description of a version names a tarball, of whatever kind. -/
def Names (manifest tarball : Value) : Prop :=
  ∃ dist, HasMember manifest "dist" dist ∧ HasMember dist "tarball" tarball

/-- Whether a document gives a version a time. -/
def HasTime (document : Value) (version time : String) : Prop :=
  ∃ times, HasMember document "time" (.object times) ∧ (version, .string time) ∈ times

theorem tarballOf?_eq_some_iff {manifest tarball : Value} :
    tarballOf? manifest = some tarball ↔ Names manifest tarball ∧ tarball.isTruthy = true := by
  simp only [tarballOf?, Option.bind_eq_bind, Option.bind_eq_some_iff, member?_eq_some_iff, Names,
    Option.ite_none_right_eq_some, Option.some.injEq]
  constructor
  · rintro ⟨dist, hdist, _, htarball, htruthy, rfl⟩
    exact ⟨⟨dist, hdist, htarball⟩, htruthy⟩
  · rintro ⟨⟨dist, hdist, htarball⟩, htruthy⟩
    exact ⟨dist, hdist, tarball, htarball, htruthy, rfl⟩

section

variable {document : Value} {package : String} {metadata : Metadata}

theorem ofDocument?_eq_some_iff : Metadata.ofDocument? document package = some metadata ↔
    ∃ versions, HasVersions document versions ∧
      metadata.name = (document.member? "name").getD (.string package) ∧
      metadata.tarballs =
        versions.filterMap (fun entry => (tarballOf? entry.2).map (entry.1, ·)) ∧
      metadata.times = (((document.member? "time").bind Value.members?).getD []).filterMap
        fun entry => entry.2.string?.map (entry.1, ·) := by
  simp only [Metadata.ofDocument?, Option.bind_eq_bind, Option.bind_eq_some_iff,
    member?_eq_some_iff, members?_eq_some_iff, Option.pure_def, Option.some.injEq, HasVersions]
  constructor
  · rintro ⟨_, hversions, versions, rfl, rfl⟩
    exact ⟨versions, hversions, rfl, rfl, rfl⟩
  · rintro ⟨versions, hversions, hname, htarballs, htimes⟩
    refine ⟨_, hversions, versions, rfl, ?_⟩
    rw [← hname, ← htarballs, ← htimes]

/-- A document is refused just if it is no object with an object of versions. -/
theorem ofDocument?_eq_none_iff : Metadata.ofDocument? document package = none ↔
    ∀ versions, ¬HasVersions document versions := by
  rw [Option.eq_none_iff_forall_ne_some]
  constructor
  · exact fun h versions hversions =>
      h ⟨_, _, _⟩ (ofDocument?_eq_some_iff.mpr ⟨versions, hversions, rfl, rfl, rfl⟩)
  · intro h metadata hmetadata
    obtain ⟨versions, hversions, -⟩ := ofDocument?_eq_some_iff.mp hmetadata
    exact h versions hversions

/-- A document has one object of versions. -/
theorem HasVersions.unique {versions others : List (String × Value)}
    (h : HasVersions document versions) (h' : HasVersions document others) : versions = others := by
  rw [HasVersions, ← member?_eq_some_iff] at h h'
  simpa using h.symm.trans h'

variable {versions : List (String × Value)}

/-- The versions that count are those that name a tarball, with what they name. -/
theorem mem_tarballs_iff (h : Metadata.ofDocument? document package = some metadata)
    (hversions : HasVersions document versions) {version : String} {tarball : Value} :
    (version, tarball) ∈ metadata.tarballs ↔
      ∃ manifest, (version, manifest) ∈ versions ∧ Names manifest tarball ∧
        tarball.isTruthy = true := by
  obtain ⟨_, hsame, -, htarballs, -⟩ := ofDocument?_eq_some_iff.mp h
  obtain rfl := hversions.unique hsame
  simp only [htarballs, List.mem_filterMap, Option.map_eq_some_iff, Prod.mk.injEq,
    tarballOf?_eq_some_iff]
  constructor
  · rintro ⟨⟨_, manifest⟩, hmem, _, hnames, rfl, rfl⟩
    exact ⟨manifest, hmem, hnames⟩
  · rintro ⟨manifest, hmem, hnames⟩
    exact ⟨(version, manifest), hmem, tarball, hnames, rfl, rfl⟩

/-- The keys of what is kept of a list of pairs are keys of the list, in its order. -/
theorem keys_filterMap_sublist {α β : Type} (keep : α → Option β) (pairs : List (String × α)) :
    (Pairs.keys (pairs.filterMap fun pair => (keep pair.2).map (pair.1, ·))).Sublist
      (Pairs.keys pairs) := by
  induction pairs with
  | nil => exact .slnil
  | cons pair pairs ih =>
    cases hkeep : keep pair.2 with
    | none =>
      rw [List.filterMap_cons_none (by rw [hkeep]; rfl)]
      exact ih.cons _
    | some kept =>
      rw [List.filterMap_cons_some (by rw [hkeep]; rfl)]
      exact ih.cons_cons _

/-- The versions that count stand in the order of the document. -/
theorem keys_tarballs_sublist (h : Metadata.ofDocument? document package = some metadata)
    (hversions : HasVersions document versions) :
    (Pairs.keys metadata.tarballs).Sublist (Pairs.keys versions) := by
  obtain ⟨_, hsame, -, htarballs, -⟩ := ofDocument?_eq_some_iff.mp h
  obtain rfl := hversions.unique hsame
  rw [htarballs]
  exact keys_filterMap_sublist tarballOf? versions

/-- The times that count are those that are strings. -/
theorem mem_times_iff (h : Metadata.ofDocument? document package = some metadata)
    {version time : String} : (version, time) ∈ metadata.times ↔ HasTime document version time := by
  obtain ⟨_, -, -, -, htimes⟩ := ofDocument?_eq_some_iff.mp h
  have hkept {times : List (String × Value)} :
      (version, time) ∈ times.filterMap (fun entry => entry.2.string?.map (entry.1, ·)) ↔
        (version, .string time) ∈ times := by
    simp only [List.mem_filterMap, Option.map_eq_some_iff, Prod.mk.injEq, string?_eq_some_iff]
    constructor
    · rintro ⟨⟨_, _⟩, hmem, _, rfl, rfl, rfl⟩
      exact hmem
    · exact fun hmem => ⟨(version, .string time), hmem, time, rfl, rfl, rfl⟩
  rw [htimes, hkept, HasTime]
  simp only [← member?_eq_some_iff]
  cases hmember : document.member? "time" with
  | none => simp
  | some value => cases value <;> simp [Value.members?]

end

/-! ## Strings where strings are meant -/

/-- Whether a value is a string. -/
def IsString (value : Value) : Prop := ∃ text, value = .string text

/-- The tarball that the description of a version names, if it is a string that is not empty. -/
def namedText? (manifest : Value) : Option String := do
  let text ← (← (← manifest.member? "dist").member? "tarball").string?
  if text = "" then none else some text

/-- Whether metadata is what is meant by it: its name is a string, and of the versions exactly those
count that name a string that is not empty, each with that string. -/
structure Metadata.Sound (metadata : Metadata) (versions : List (String × Value)) : Prop where
  name : IsString metadata.name
  tarballs : metadata.tarballs = versions.filterMap fun entry =>
    (namedText? entry.2).map fun text => (entry.1, .string text)

theorem namedText?_eq_some_iff {manifest : Value} {text : String} :
    namedText? manifest = some text ↔ Names manifest (.string text) ∧ text ≠ "" := by
  simp only [namedText?, Option.bind_eq_bind, Option.bind_eq_some_iff, member?_eq_some_iff, Names,
    string?_eq_some_iff, Option.ite_none_left_eq_some, Option.some.injEq]
  constructor
  · rintro ⟨dist, hdist, _, htarball, _, rfl, hne, rfl⟩
    exact ⟨⟨dist, hdist, htarball⟩, hne⟩
  · rintro ⟨⟨dist, hdist, htarball⟩, hne⟩
    exact ⟨dist, hdist, _, htarball, text, rfl, hne, rfl⟩

theorem isTruthy_string_iff {text : String} :
    (Value.string text).isTruthy = true ↔ text ≠ "" := by
  simp [Value.isTruthy]

/-- Metadata is sound just if nothing but strings slips through: each tarball that a version names is
a string, or null, false, zero or empty, and so is the name, if there is one. -/
theorem sound_iff {document : Value} {package : String} {metadata : Metadata}
    {versions : List (String × Value)}
    (h : Metadata.ofDocument? document package = some metadata)
    (hversions : HasVersions document versions) :
    metadata.Sound versions ↔
      (∀ name, HasMember document "name" name → IsString name) ∧
        ∀ entry ∈ versions, ∀ tarball, Names entry.2 tarball → tarball.isTruthy = true →
          IsString tarball := by
  obtain ⟨_, hsame, hname, htarballs, -⟩ := ofDocument?_eq_some_iff.mp h
  obtain rfl := hversions.unique hsame
  have hnamed : IsString metadata.name ↔ ∀ name, HasMember document "name" name → IsString name := by
    simp only [hname, ← member?_eq_some_iff]
    cases document.member? "name" with
    | none => simp [IsString]
    | some name => simp
  constructor
  · intro hsound
    refine ⟨hnamed.mp hsound.name, fun entry hentry tarball hnames htruthy => ?_⟩
    have hmem : (entry.1, tarball) ∈ metadata.tarballs :=
      (mem_tarballs_iff h hversions).mpr ⟨entry.2, hentry, hnames, htruthy⟩
    rw [hsound.tarballs, List.mem_filterMap] at hmem
    obtain ⟨_, -, heq⟩ := hmem
    obtain ⟨text, -, heq⟩ := Option.map_eq_some_iff.mp heq
    exact ⟨text, (Prod.mk.inj heq).2.symm⟩
  · rintro ⟨hstring, hall⟩
    refine ⟨hnamed.mpr hstring, htarballs.trans (List.filterMap_congr fun entry hentry => ?_)⟩
    -- a tarball that is named is a string that is not empty, so both ways of reading keep the same
    refine Option.ext fun kept => ?_
    simp only [Option.map_eq_some_iff, tarballOf?_eq_some_iff, namedText?_eq_some_iff]
    constructor
    · rintro ⟨tarball, ⟨hnames, htruthy⟩, rfl⟩
      obtain ⟨text, rfl⟩ := hall entry hentry tarball hnames htruthy
      exact ⟨text, ⟨hnames, isTruthy_string_iff.mp htruthy⟩, rfl⟩
    · rintro ⟨text, ⟨hnames, hne⟩, rfl⟩
      exact ⟨.string text, ⟨hnames, isTruthy_string_iff.mpr hne⟩, rfl⟩

/-- The document that the body of a response holds, if it is a document at all. -/
def bodyDocument? (body : Bytes) : Option Value :=
  let text := decodeLossy body.toList
  (Value.read (if text.head? == some '\uFEFF' then text.drop 1 else text)).toOption

/-- A response whose document is refused is a failure of the metadata. -/
theorem readMetadata_eq {package : String} {body : Bytes} {document : Value}
    (h : bodyDocument? body = some document) :
    readMetadata package body =
      ((Metadata.ofDocument? document package).elim (.error (noVersions package)) .ok) := by
  simp only [bodyDocument?] at h
  simp only [readMetadata]
  split
  · next hread =>
    rw [hread] at h
    cases h
  · next read hread =>
    rw [hread] at h
    obtain rfl := Option.some.inj h
    cases Metadata.ofDocument? read package <;> rfl

/-- A document is refused, as a failure of the metadata, just if it is no object with an object of
versions. Of any other the metadata holds the versions that name a tarball which is neither null,
false, zero nor empty, and the times that are strings, in the order of the document. It is sound just
if no tarball that a version names and no name is of another kind than it should be. -/
theorem ofDocument?_sound_iff (document : Value) (package : String) :
    (Metadata.ofDocument? document package = none ↔ ∀ versions, ¬HasVersions document versions) ∧
    (∀ body, bodyDocument? body = some document →
      (readMetadata package body = .error (noVersions package) ↔
        ∀ versions, ¬HasVersions document versions)) ∧
    ∀ metadata, Metadata.ofDocument? document package = some metadata →
      ∃ versions, HasVersions document versions ∧
        (Pairs.keys metadata.tarballs).Sublist (Pairs.keys versions) ∧
        (∀ version tarball, (version, tarball) ∈ metadata.tarballs ↔
          ∃ manifest, (version, manifest) ∈ versions ∧ Names manifest tarball ∧
            tarball.isTruthy = true) ∧
        (∀ version time, (version, time) ∈ metadata.times ↔ HasTime document version time) ∧
        (∀ name, HasMember document "name" name → metadata.name = name) ∧
        ((∀ name, ¬HasMember document "name" name) → metadata.name = .string package) ∧
        (metadata.Sound versions ↔
          (∀ name, HasMember document "name" name → IsString name) ∧
            ∀ entry ∈ versions, ∀ tarball, Names entry.2 tarball → tarball.isTruthy = true →
              IsString tarball) := by
  refine ⟨ofDocument?_eq_none_iff, fun body hbody => ?_, fun metadata h => ?_⟩
  · rw [readMetadata_eq hbody, ← @ofDocument?_eq_none_iff document package]
    cases Metadata.ofDocument? document package with
    | none => simp
    | some metadata => simp
  · obtain ⟨versions, hversions, hname, -⟩ := ofDocument?_eq_some_iff.mp h
    refine ⟨versions, hversions, keys_tarballs_sublist h hversions,
      fun version tarball => mem_tarballs_iff h hversions, fun version time => mem_times_iff h,
      fun name hmember => ?_, fun hnone => ?_, sound_iff h hversions⟩
    · rw [hname, member?_eq_some_iff.mpr hmember, Option.getD_some]
    · have hmember : document.member? "name" = none :=
        Option.eq_none_iff_forall_ne_some.mpr fun name hmember =>
          hnone name (member?_eq_some_iff.mp hmember)
      rw [hname, hmember, Option.getD_none]

/-- A document without name, one version of which names an address, and others an empty text, a zero
and nothing. -/
def mixedDocument : Value :=
  .object [("versions", .object [
    ("1.0.0", .object [("dist", .object [("tarball", .string "")])]),
    ("1.0.1", .object [("dist", .object [("tarball", .string "u")])]),
    ("1.0.2", .object [("dist", .object [("tarball", .int 0)])]),
    ("1.0.3", .null)]),
    ("time", .object [("1.0.1", .string "t"), ("1.0.2", .int 5)])]

/-- A response with that document. -/
def mixedBody : Bytes :=
  ("\x7b\"versions\":\x7b\"1.0.0\":\x7b\"dist\":\x7b\"tarball\":\"\"\x7d\x7d," ++
    "\"1.0.1\":\x7b\"dist\":\x7b\"tarball\":\"u\"\x7d\x7d," ++
    "\"1.0.2\":\x7b\"dist\":\x7b\"tarball\":0\x7d\x7d," ++
    "\"1.0.3\":null\x7d," ++
    "\"time\":\x7b\"1.0.1\":\"t\",\"1.0.2\":5\x7d\x7d").toUTF8.data

set_option maxRecDepth 4000 in
theorem bodyDocument?_mixed : bodyDocument? mixedBody = some mixedDocument := by cbv

/-- Only the version with an address counts, and the metadata is sound. -/
theorem ofDocument?_sound_mixed :
    bodyDocument? mixedBody = some mixedDocument ∧
    readMetadata "p" mixedBody ≠ .error (noVersions "p") ∧
    ∃ metadata versions, Metadata.ofDocument? mixedDocument "p" = some metadata ∧
      HasVersions mixedDocument versions ∧ metadata.Sound versions ∧
      Pairs.keys metadata.tarballs = ["1.0.1"] ∧ metadata.name = .string "p" ∧
      metadata.times = [("1.0.1", "t")] := by
  obtain ⟨-, hbody, hsome⟩ := ofDocument?_sound_iff mixedDocument "p"
  obtain ⟨versions, hversions, -, -, -, -, hname, hsound⟩ := hsome _ rfl
  have hnone : ∀ name, ¬HasMember mixedDocument "name" name := fun name h =>
    nomatch member?_eq_some_iff.mpr h
  refine ⟨bodyDocument?_mixed,
    fun h => (hbody mixedBody bodyDocument?_mixed).mp h versions hversions, _, versions, rfl,
    hversions, hsound.mpr ⟨fun name h => absurd h (hnone name), ?_⟩, rfl, hname hnone, rfl⟩
  obtain rfl := hversions.unique ⟨_, rfl, rfl⟩
  intro entry hentry tarball hnames htruthy
  have hnamed := tarballOf?_eq_some_iff.mpr ⟨hnames, htruthy⟩
  simp only [List.mem_cons, List.not_mem_nil, or_false] at hentry
  rcases hentry with rfl | rfl | rfl | rfl <;> cases hnamed
  exact ⟨"u", rfl⟩

/-- A number that is not zero counts as a tarball, and null as a name. -/
theorem ofDocument?_unsound :
    ∃ metadata versions, Metadata.ofDocument? (.object [("name", .null),
        ("versions", .object [("1.0.0", .object [("dist", .object [("tarball", .int 7)])])])]) "p" =
        some metadata ∧
      HasVersions (.object [("name", .null),
        ("versions", .object [("1.0.0", .object [("dist", .object [("tarball", .int 7)])])])])
        versions ∧
      ¬IsString metadata.name ∧ metadata.tarballs = [("1.0.0", .int 7)] ∧
      versions.filterMap (fun entry => namedText? entry.2) = [] :=
  ⟨_, _, rfl, ⟨_, rfl, rfl⟩, nofun, rfl, rfl⟩

end ReleasePrompts.Registry
