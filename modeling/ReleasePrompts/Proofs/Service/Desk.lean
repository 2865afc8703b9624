import Mathlib.Data.List.Basic
import ReleasePrompts.Proofs.Service.Loading

/-!
# Inquiries for the metadata

Any number of callers may inquire for the metadata at a time. They come to a `Desk` that deals with
one of them after the other, in whatever order it lets them in: an inquiry that has entered finds the
metadata kept, or asks the registry for them and waits for the answer, and leaves with an outcome.
What holds of all desks (`Sound`) is kept by each step (`Sound.step`), so that the registry is asked
once at a time and no more often than need be (`metadata_shared`), and everyone leaves with what they
would get if they came one after the other (`Trace.serial`).
-/

namespace ReleasePrompts.Service

open Registry

/-- The metadata that an inquiry need not ask for. -/
def State.known? (state : State) (refresh : Bool) : Option Metadata :=
  if refresh then none else state.metadata

namespace Desk

/-- How far an inquiry has come. -/
inductive Progress where
  | waiting
  | inside
  | fetching
  | left (outcome : Except Failure Metadata)

/-- Whether an inquiry is being dealt with. -/
def Progress.isInside : Progress → Prop
  | inside | fetching => True
  | _ => False

/-- Someone's inquiry for the metadata. -/
structure Inquiry where
  refresh : Bool
  progress : Progress := .waiting

/-- What happens at a desk. Inquiries are known by their numbers, in the order in which they came. -/
inductive Event where
  | arrive (refresh : Bool)
  | enter (number : Nat)
  | find (number : Nat) (metadata : Metadata)
  | ask (number : Nat)
  | receive (number : Nat) (outcome : Except Failure Metadata)

namespace Event

/-- The inquiry that leaves, and what it leaves with. -/
def leaves? : Event → Option (Nat × Except Failure Metadata)
  | find number metadata => some (number, .ok metadata)
  | receive number outcome => some (number, outcome)
  | _ => none

/-- The metadata that the registry gave. -/
def fetched? : Event → Option Metadata
  | receive _ (.ok metadata) => some metadata
  | _ => none

end Event

/-- All metadata that the registry gave, in order. -/
def fetches (events : List Event) : List Metadata := events.filterMap Event.fetched?

/-- The metadata that the registry gave last. -/
def lastFetched? (events : List Event) : Option Metadata := (fetches events).getLast?

end Desk

/-- A service whose metadata are inquired for: the inquiry that has entered and has not left, if
there is one, and all that ever came. -/
structure Desk extends State where
  holder : Option Nat := none
  inquiries : List Desk.Inquiry := []

namespace Desk

/-- A desk to which no one came yet, and at which the metadata are not known. -/
def start (state : State) : Desk := { state with metadata := none }

/-- Lets an inquiry come to some point. -/
def place (desk : Desk) (number : Nat) (inquiry : Inquiry) (progress : Progress) : Desk :=
  { desk with inquiries := desk.inquiries.set number { inquiry with progress } }

/-- What may happen at a desk. No inquiry enters before the one inside has left, and each question to
the registry may be answered differently. -/
inductive Step (config : Config) : Desk → Event → Desk → Prop where
  | arrive (desk : Desk) (refresh : Bool) :
    Step config desk (.arrive refresh) { desk with inquiries := desk.inquiries ++ [⟨refresh, .waiting⟩] }
  | enter {desk : Desk} {number : Nat} {inquiry : Inquiry}
    (hi : desk.inquiries[number]? = some inquiry) (hp : inquiry.progress = .waiting)
    (hfree : desk.holder = none) :
    Step config desk (.enter number) { desk.place number inquiry .inside with holder := some number }
  | find {desk : Desk} {number : Nat} {inquiry : Inquiry} {metadata : Metadata}
    (hi : desk.inquiries[number]? = some inquiry) (hp : inquiry.progress = .inside)
    (hknown : desk.known? inquiry.refresh = some metadata) :
    Step config desk (.find number metadata)
      { desk.place number inquiry (.left (.ok metadata)) with holder := none }
  | ask {desk : Desk} {number : Nat} {inquiry : Inquiry}
    (hi : desk.inquiries[number]? = some inquiry) (hp : inquiry.progress = .inside)
    (hknown : desk.known? inquiry.refresh = none) :
    Step config desk (.ask number) (desk.place number inquiry .fetching)
  | receive {desk : Desk} {number : Nat} {inquiry : Inquiry} (world : World)
    (hi : desk.inquiries[number]? = some inquiry) (hp : inquiry.progress = .fetching) :
    Step config desk (.receive number (desk.getMetadata config world true).1)
      { desk.place number inquiry (.left (desk.getMetadata config world true).1) with
        toState := (desk.getMetadata config world true).2
        holder := none }

/-- What has happened at a desk. -/
inductive Trace (config : Config) (desk : Desk) : List Event → Desk → Prop where
  | nil : Trace config desk [] desk
  | snoc {events : List Event} {event : Event} {middle last : Desk}
    (h : Trace config desk events middle) (hstep : Step config middle event last) :
    Trace config desk (events ++ [event]) last

variable {config : Config} {desk next : Desk} {event : Event} {events : List Event}
  {number : Nat} {inquiry : Inquiry} {outcome : Except Failure Metadata}

/-- Whether an inquiry waits for the registry. -/
def IsFetching (desk : Desk) (number : Nat) : Prop :=
  ∃ inquiry, desk.inquiries[number]? = some inquiry ∧ inquiry.progress = .fetching

/-- Whether an inquiry has left with some outcome. -/
def HasLeft (desk : Desk) (number : Nat) (outcome : Except Failure Metadata) : Prop :=
  ∃ inquiry, desk.inquiries[number]? = some inquiry ∧ inquiry.progress = .left outcome

/-! ## What one step does -/

theorem inquiries_place (hi : desk.inquiries[number]? = some inquiry) (progress : Progress)
    (other : Nat) : (desk.place number inquiry progress).inquiries[other]? =
      if other = number then some { inquiry with progress } else desk.inquiries[other]? := by
  rw [place, List.getElem?_set]
  by_cases h : other = number
  · subst h
    simp [(List.getElem?_eq_some_iff.mp hi).choose]
  · simp [h, Ne.symm h]

theorem fst_getMetadata_true (state : State) (config : Config) (world : World) :
    (state.getMetadata config world true).1 = published config world := by
  simp only [State.getMetadata, if_true, published]
  cases (config.client.fetchMetadata world.reply).outcome <;> rfl

/-- What comes of a question to the registry. -/
theorem metadata_getMetadata_true (state : State) (config : Config) (world : World) :
    (state.getMetadata config world true).2.metadata =
      match (state.getMetadata config world true).1 with
      | .ok metadata => some metadata
      | .error _ => state.metadata := by
  simp only [State.getMetadata, if_true]
  cases (config.client.fetchMetadata world.reply).outcome <;> rfl

theorem fetches_append (events : List Event) (event : Event) :
    fetches (events ++ [event]) = fetches events ++ event.fetched?.toList := by
  rw [fetches, List.filterMap_append, fetches]
  cases hfetched : event.fetched? <;> simp [hfetched]

theorem lastFetched?_append (events : List Event) (event : Event) :
    lastFetched? (events ++ [event]) = event.fetched?.or (lastFetched? events) := by
  rw [lastFetched?, fetches_append]
  cases event.fetched? <;> simp [lastFetched?]

/-- The metadata change just as the registry gives them. -/
theorem Step.metadata_eq (h : Step config desk event next) :
    next.metadata = event.fetched?.or desk.metadata := by
  cases h with
  | arrive | enter | find | ask => rfl
  | receive world hi hp =>
    refine (metadata_getMetadata_true desk.toState config world).trans ?_
    cases (desk.getMetadata config world true).1 <;> rfl

/-! ## What holds of every inquiry -/

/-- How an inquiry stands to what has happened. -/
structure Fits (events : List Event) (desk : Desk) (number : Nat) (inquiry : Inquiry) : Prop where
  holder_eq : inquiry.progress.isInside → desk.holder = some number
  known?_eq : inquiry.progress = .fetching → desk.known? inquiry.refresh = none
  arrived : .arrive inquiry.refresh ∈ events
  entered : inquiry.progress ≠ .waiting → .enter number ∈ events
  left_iff : ∀ {outcome}, inquiry.progress = .left outcome ↔
    ∃ event ∈ events, event.leaves? = some (number, outcome)

/-- What holds of a desk at all times. -/
structure Sound (events : List Event) (desk : Desk) : Prop where
  metadata_eq : desk.metadata = lastFetched? events
  lt_of_left : ∀ {event number outcome}, event ∈ events → event.leaves? = some (number, outcome) →
    number < desk.inquiries.length
  fits : ∀ {number inquiry}, desk.inquiries[number]? = some inquiry →
    Fits events desk number inquiry

theorem sound_start (state : State) : Sound [] (start state) where
  metadata_eq := rfl
  lt_of_left := nofun
  fits := nofun

/-- What happens to others leaves an inquiry as it is, if it does not change what that relies on. -/
theorem Fits.append (h : Fits events desk number inquiry)
    (hleaves : ∀ outcome, event.leaves? ≠ some (number, outcome))
    (hkeeps : desk.holder = some number →
      next.holder = some number ∧ next.metadata = desk.metadata) :
    Fits (events ++ [event]) next number inquiry where
  holder_eq := fun hinside => (hkeeps (h.holder_eq hinside)).1
  known?_eq := fun hfetching => by
    have hinside : inquiry.progress.isInside := by rw [hfetching]; trivial
    rw [State.known?, (hkeeps (h.holder_eq hinside)).2]
    exact h.known?_eq hfetching
  arrived := List.mem_append_left _ h.arrived
  entered := fun hp => List.mem_append_left _ (h.entered hp)
  left_iff := fun {outcome} => by
    rw [h.left_iff]
    constructor
    · rintro ⟨event, hm, hl⟩
      exact ⟨event, List.mem_append_left _ hm, hl⟩
    · rintro ⟨other, hm, hl⟩
      rcases List.mem_append.mp hm with hm | hm
      · exact ⟨other, hm, hl⟩
      · obtain rfl := List.mem_singleton.mp hm
        exact absurd hl (hleaves outcome)

/-- An inquiry that comes to some point has not left before, and leaves only by this. -/
theorem Fits.advance (h : Fits events desk number inquiry)
    (hp : ∀ outcome, inquiry.progress ≠ .left outcome) {progress : Progress}
    (hholder : progress.isInside → next.holder = some number)
    (hknown : progress = .fetching → next.known? inquiry.refresh = none)
    (hentered : .enter number ∈ events ++ [event])
    (hleft : ∀ {outcome}, progress = .left outcome ↔ event.leaves? = some (number, outcome)) :
    Fits (events ++ [event]) next number { inquiry with progress } where
  holder_eq := hholder
  known?_eq := hknown
  arrived := List.mem_append_left _ h.arrived
  entered := fun _ => hentered
  left_iff := fun {outcome} => by
    refine hleft.trans ⟨fun hl => ⟨event, by simp, hl⟩, ?_⟩
    rintro ⟨other, hm, hl⟩
    rcases List.mem_append.mp hm with hm | hm
    · exact absurd (h.left_iff.mpr ⟨other, hm, hl⟩) (hp outcome)
    · exact List.mem_singleton.mp hm ▸ hl

/-- Someone new has only come. -/
theorem Sound.arrive (h : Sound events desk) (refresh : Bool) :
    Sound (events ++ [.arrive refresh])
      { desk with inquiries := desk.inquiries ++ [⟨refresh, .waiting⟩] } where
  metadata_eq := by
    rw [lastFetched?_append]
    exact h.metadata_eq
  lt_of_left := fun hm hl => by
    rcases List.mem_append.mp hm with hm | hm
    · have := h.lt_of_left hm hl
      simp only [List.length_append, List.length_singleton]
      omega
    · obtain rfl := List.mem_singleton.mp hm
      cases hl
  fits := fun {number inquiry} hi => by
    rcases getElem?_snoc.mp hi with hi | ⟨rfl, rfl⟩
    · exact (h.fits hi).append (fun _ => nofun) fun hholder => ⟨hholder, rfl⟩
    · refine ⟨nofun, nofun, by simp, fun hp => absurd rfl hp, fun {outcome} => ⟨nofun, ?_⟩⟩
      rintro ⟨event, hm, hl⟩
      rcases List.mem_append.mp hm with hm | hm
      · exact absurd (h.lt_of_left hm hl) (Nat.lt_irrefl _)
      · obtain rfl := List.mem_singleton.mp hm
        cases hl

/-- What an inquiry does keeps a desk sound if it fits that inquiry, and does not change what the one
inside relies on. -/
theorem Sound.place (h : Sound events desk) (hi : desk.inquiries[number]? = some inquiry)
    {progress : Progress} {state : State} {holder : Option Nat}
    (hmetadata : state.metadata = event.fetched?.or desk.metadata)
    (hsubject : ∀ {other outcome}, event.leaves? = some (other, outcome) → other = number)
    (hkeeps : ∀ other, other ≠ number → desk.holder = some other →
      holder = some other ∧ state.metadata = desk.metadata)
    (hfits : Fits (events ++ [event])
      { desk.place number inquiry progress with toState := state, holder } number
      { inquiry with progress }) :
    Sound (events ++ [event])
      { desk.place number inquiry progress with toState := state, holder } where
  metadata_eq := by
    rw [lastFetched?_append, ← h.metadata_eq]
    exact hmetadata
  lt_of_left := fun hm hl => by
    show _ < (desk.inquiries.set number _).length
    rw [List.length_set]
    rcases List.mem_append.mp hm with hm | hm
    · exact h.lt_of_left hm hl
    · obtain rfl := List.mem_singleton.mp hm
      rw [hsubject hl]
      exact (List.getElem?_eq_some_iff.mp hi).choose
  fits := fun {other found} hfound => by
    replace hfound := (inquiries_place hi progress other).symm.trans hfound
    split at hfound
    · next hother =>
      subst hother
      obtain rfl := Option.some.inj hfound
      exact hfits
    · next hother =>
      exact (h.fits hfound).append (fun _ hl => hother (hsubject hl)) (hkeeps other hother)

theorem Sound.step (h : Sound events desk) (hstep : Step config desk event next) :
    Sound (events ++ [event]) next := by
  have hmetadata := hstep.metadata_eq
  cases hstep with
  | arrive refresh => exact h.arrive refresh
  | @enter number inquiry hi hp hfree =>
    refine h.place hi hmetadata nofun (fun _ _ hholder => ?_) ?_
    · rw [hfree] at hholder
      cases hholder
    · exact (h.fits hi).advance (by simp [hp]) (fun _ => rfl) nofun (by simp) ⟨nofun, nofun⟩
  | @find number inquiry metadata hi hp hknown =>
    have hfits := h.fits hi
    have hholder := hfits.holder_eq (by rw [hp]; trivial)
    refine h.place hi hmetadata (fun hl => by cases hl; rfl) (fun other hother hothers => ?_) ?_
    · exact absurd (Option.some.inj (hothers.symm.trans hholder)) hother
    · refine hfits.advance (by simp [hp]) nofun nofun ?_ (by simp [Event.leaves?])
      exact List.mem_append_left _ (hfits.entered (by simp [hp]))
  | @ask number inquiry hi hp hknown =>
    have hfits := h.fits hi
    have hholder := hfits.holder_eq (by rw [hp]; trivial)
    refine h.place hi hmetadata nofun (fun _ _ hothers => ⟨hothers, rfl⟩) ?_
    refine hfits.advance (by simp [hp]) (fun _ => hholder) (fun _ => hknown) ?_ ⟨nofun, nofun⟩
    exact List.mem_append_left _ (hfits.entered (by simp [hp]))
  | @receive number inquiry world hi hp =>
    have hfits := h.fits hi
    have hholder := hfits.holder_eq (by rw [hp]; trivial)
    refine h.place hi hmetadata (fun hl => by cases hl; rfl) (fun other hother hothers => ?_) ?_
    · exact absurd (Option.some.inj (hothers.symm.trans hholder)) hother
    · refine hfits.advance (by simp [hp]) nofun nofun ?_ (by simp [Event.leaves?])
      exact List.mem_append_left _ (hfits.entered (by simp [hp]))

theorem Trace.sound {state : State} (h : Trace config (start state) events desk) :
    Sound events desk := by
  induction h with
  | nil => exact sound_start state
  | snoc _ hstep ih => exact ih.step hstep

/-! ## Looking back -/

/-- An inquiry stays what it is, however far it comes. -/
theorem Step.refresh_eq (h : Step config desk event next) (hi : desk.inquiries[number]? = some inquiry) :
    ∃ later, next.inquiries[number]? = some later ∧ later.refresh = inquiry.refresh := by
  have hplace {subject : Nat} {mover : Inquiry} (hm : desk.inquiries[subject]? = some mover)
      (progress : Progress) : ∃ later, (desk.place subject mover progress).inquiries[number]? =
        some later ∧ later.refresh = inquiry.refresh := by
    rw [inquiries_place hm]
    split
    · next hn =>
      obtain rfl := Option.some.inj ((hn ▸ hi).symm.trans hm)
      exact ⟨_, rfl, rfl⟩
    · exact ⟨inquiry, hi, rfl⟩
  cases h with
  | arrive refresh => exact ⟨inquiry, getElem?_snoc.mpr (.inl hi), rfl⟩
  | enter hm | find hm | ask hm | receive _ hm => exact hplace hm _

theorem Trace.refresh_eq (h : Trace config desk events next)
    (hi : desk.inquiries[number]? = some inquiry) :
    ∃ later, next.inquiries[number]? = some later ∧ later.refresh = inquiry.refresh := by
  induction h with
  | nil => exact ⟨inquiry, hi, rfl⟩
  | snoc _ hstep ih =>
    obtain ⟨middle, hm, hr⟩ := ih
    obtain ⟨later, hl, hr'⟩ := hstep.refresh_eq hm
    exact ⟨later, hl, hr'.trans hr⟩

/-- Every event is a step from what was to what came to be. -/
theorem Trace.split {before after : List Event} {last : Desk}
    (h : Trace config desk (before ++ event :: after) last) :
    ∃ middle next, Trace config desk before middle ∧ Step config middle event next ∧
      Trace config next after last := by
  generalize hall : before ++ event :: after = all at h
  induction h generalizing after with
  | nil => simp at hall
  | @snoc events final middle last h hstep ih =>
    rcases List.eq_nil_or_concat' after with rfl | ⟨rest, other, rfl⟩
    · obtain ⟨rfl, he⟩ := List.append_inj' hall rfl
      obtain rfl := List.singleton_inj.mp he
      exact ⟨middle, last, h, hstep, .nil⟩
    · have hsplit : before ++ event :: rest ++ [other] = events ++ [final] := by simpa using hall
      obtain ⟨rfl, he⟩ := List.append_inj' hsplit rfl
      obtain rfl := List.singleton_inj.mp he
      obtain ⟨first, second, hbefore, hevent, hrest⟩ := ih rfl
      exact ⟨first, second, hbefore, hevent, hrest.snoc hstep⟩

theorem fetches_eq_nil (h : Sound events desk) (hnone : desk.metadata = none) :
    fetches events = [] := by
  rw [h.metadata_eq, lastFetched?] at hnone
  exact List.getLast?_eq_none_iff.mp hnone

theorem Step.asker (h : Step config desk (.ask number) next) :
    ∃ inquiry, desk.inquiries[number]? = some inquiry := by
  cases h with
  | ask hi => exact ⟨_, hi⟩

/-- One who need not have new metadata asks for them only as long as the registry gave none. -/
theorem Sound.ask (h : Sound events desk) (hstep : Step config desk (.ask number) next)
    (hi : desk.inquiries[number]? = some inquiry) (hrefresh : inquiry.refresh = false) :
    .enter number ∈ events ∧ fetches events = [] := by
  cases hstep with
  | @ask _ asker hasker hp hknown =>
    obtain rfl := Option.some.inj (hasker.symm.trans hi)
    rw [State.known?, hrefresh] at hknown
    exact ⟨(h.fits hasker).entered (by simp [hp]), fetches_eq_nil h hknown⟩

/-- One who leaves with metadata leaves with those that the registry gave last. -/
theorem Sound.leaves (h : Sound events desk) (hstep : Step config desk event next)
    {metadata : Metadata} (hleaves : event.leaves? = some (number, .ok metadata)) :
    lastFetched? (events ++ [event]) = some metadata := by
  rw [lastFetched?_append]
  cases hstep with
  | arrive | enter | ask => cases hleaves
  | @find _ inquiry _ hi hp hknown =>
    cases hleaves
    rw [State.known?] at hknown
    split at hknown
    · cases hknown
    · exact h.metadata_eq.symm.trans hknown
  | receive world hi hp =>
    obtain ⟨-, houtcome⟩ := Prod.mk.inj (Option.some.inj hleaves)
    rw [houtcome]
    rfl

/-- An inquiry that fails is the only one to be told so, and the metadata stay. -/
theorem Step.failed {failure : Failure} (h : Step config desk (.receive number (.error failure)) next) :
    next.metadata = desk.metadata ∧ HasLeft next number (.error failure) ∧
      ∀ other, other ≠ number → next.inquiries[other]? = desk.inquiries[other]? := by
  refine ⟨h.metadata_eq, ?_⟩
  generalize hevent : Event.receive number (.error failure) = event at h
  cases h with
  | arrive | enter | find | ask => cases hevent
  | receive world hi hp =>
    obtain ⟨rfl, houtcome⟩ := Event.receive.inj hevent
    rw [← houtcome]
    exact ⟨⟨_, (inquiries_place hi _ number).trans (if_pos rfl), rfl⟩,
      fun other hother => (inquiries_place hi _ other).trans (if_neg hother)⟩

/-- Where no one must have new metadata the registry gives them once at most. -/
theorem Trace.length_fetches_le {state : State} (h : Trace config (start state) events desk)
    (hrefresh : .arrive true ∉ events) : (fetches events).length ≤ 1 := by
  induction h with
  | nil => exact Nat.zero_le 1
  | @snoc events event middle last h hstep ih =>
    have hsound := h.sound
    have hbefore : .arrive true ∉ events := fun hm => hrefresh (List.mem_append_left _ hm)
    rw [fetches_append]
    cases hstep with
    | arrive | enter | find | ask => simpa [Event.fetched?] using ih hbefore
    | @receive number inquiry world hi hp =>
      -- who waits for the registry still knows nothing, so it gave nothing yet
      have hfits := hsound.fits hi
      have hplain : inquiry.refresh = false :=
        Bool.eq_false_iff.mpr fun hr => hbefore (hr ▸ hfits.arrived)
      have hunknown := hfits.known?_eq hp
      rw [State.known?, hplain] at hunknown
      rw [fetches_eq_nil hsound hunknown, List.nil_append]
      exact Option.length_toList_le

theorem Sound.hasLeft_iff (h : Sound events desk) :
    HasLeft desk number outcome ↔ ∃ event ∈ events, event.leaves? = some (number, outcome) := by
  constructor
  · rintro ⟨inquiry, hi, hp⟩
    exact (h.fits hi).left_iff.mp hp
  · rintro ⟨event, hm, hl⟩
    have hi := List.getElem?_eq_getElem (h.lt_of_left hm hl)
    exact ⟨_, hi, (h.fits hi).left_iff.mpr ⟨event, hm, hl⟩⟩

/-! ## One inquiry after the other -/

/-- The inquiries that have left, in order, and what they left with. -/
def leavings (events : List Event) : List (Nat × Except Failure Metadata) :=
  events.filterMap Event.leaves?

theorem getMetadata_of_known {state : State} {refresh : Bool} {metadata : Metadata}
    (h : state.known? refresh = some metadata) (world : World) :
    state.getMetadata config world refresh = (.ok metadata, state) := by
  rw [State.known?] at h
  rw [State.getMetadata, h]

theorem getMetadata_of_unknown {state : State} {refresh : Bool}
    (h : state.known? refresh = none) (world : World) :
    state.getMetadata config world refresh = state.getMetadata config world true := by
  rw [State.known?] at h
  rw [State.getMetadata, State.getMetadata, h, if_pos rfl]

theorem eachWith_append {σ α β : Type} (act : σ → α → β × σ) (state : σ) (values : List α)
    (value : α) : eachWith act state (values ++ [value]) =
      ((eachWith act state values).1 ++ [(act (eachWith act state values).2 value).1],
        (act (eachWith act state values).2 value).2) := by
  induction values generalizing state with
  | nil => rfl
  | cons first values ih => simp only [List.cons_append, eachWith, ih]

/-- Inquiries that come at any time leave with what they would get one after the other, in the order
in which they leave, and so the service keeps what it would keep then. -/
theorem Trace.serial {state : State} (h : Trace config (start state) events desk) :
    ∃ calls : List (World × Bool),
      calls.map (fun call => some call.2) =
        (leavings events).map (fun leaving => desk.inquiries[leaving.1]?.map Inquiry.refresh) ∧
      eachWith (fun state call => state.getMetadata config call.1 call.2) (start state).toState calls =
        ((leavings events).map Prod.snd, desk.toState) := by
  induction h with
  | nil => exact ⟨[], rfl, rfl⟩
  | @snoc events event middle last h hstep ih =>
    obtain ⟨calls, hrefresh, hcalls⟩ := ih
    have hsame : (leavings events).map (fun leaving => last.inquiries[leaving.1]?.map Inquiry.refresh) =
        (leavings events).map fun leaving => middle.inquiries[leaving.1]?.map Inquiry.refresh := by
      refine List.map_congr_left fun leaving hm => ?_
      obtain ⟨event, hm, hl⟩ := List.mem_filterMap.mp hm
      have hi := List.getElem?_eq_getElem (h.sound.lt_of_left hm hl)
      obtain ⟨later, hlater, hr⟩ := hstep.refresh_eq hi
      rw [hi, hlater, Option.map_some, Option.map_some, hr]
    have hleavings : leavings (events ++ [event]) = leavings events ++ event.leaves?.toList := by
      cases hleaves : event.leaves? <;> simp [leavings, hleaves]
    rw [hleavings]
    cases hstep with
    | arrive | enter | ask =>
      simp only [Event.leaves?, Option.toList_none, List.append_nil]
      exact ⟨calls, hrefresh.trans hsame.symm, hcalls⟩
    | @find number inquiry metadata hi hp hknown =>
      have hlast := (inquiries_place hi (.left (.ok metadata)) number).trans (if_pos rfl)
      refine ⟨calls ++ [({ reply := fun _ => ⟨[], .error ""⟩ }, inquiry.refresh)], ?_, ?_⟩
      · simp only [List.map_append, hrefresh, hsame]
        simp [Event.leaves?, hlast]
      · rw [eachWith_append, hcalls, getMetadata_of_known hknown]
        simp [Event.leaves?, place]
    | @receive number inquiry world hi hp =>
      have hunknown := (h.sound.fits hi).known?_eq hp
      have hlast := (inquiries_place hi (.left (middle.getMetadata config world true).1) number).trans
        (if_pos rfl)
      refine ⟨calls ++ [(world, inquiry.refresh)], ?_, ?_⟩
      · simp only [List.map_append, hrefresh, hsame]
        simp [Event.leaves?, hlast]
      · rw [eachWith_append, hcalls, getMetadata_of_unknown hunknown]
        simp [Event.leaves?]

/-! ## All of it -/

/-- Whatever happens at a desk, no two inquiries ask the registry at the same time, and one that need
not have new metadata asks only if the registry gave none before it entered. One that leaves with
metadata leaves with those that the registry gave last, which are the ones that are kept. A question
that fails is told to the one who asked it and changes nothing else; and if no one must have new
metadata, the registry gives them once at most. -/
theorem metadata_shared (config : Config) (state : State) {events : List Event} {desk : Desk}
    (h : Trace config (start state) events desk) :
    (∀ number other, desk.IsFetching number → desk.IsFetching other → number = other) ∧
    (∀ before after number, ∀ inquiry : Inquiry, events = before ++ .ask number :: after →
      desk.inquiries[number]? = some inquiry → inquiry.refresh = false →
      .enter number ∈ before ∧ fetches before = []) ∧
    (∀ before after event number metadata, events = before ++ event :: after →
      event.leaves? = some (number, .ok metadata) →
      lastFetched? (before ++ [event]) = some metadata) ∧
    desk.metadata = lastFetched? events ∧
    (∀ number outcome, desk.HasLeft number outcome ↔
      ∃ event ∈ events, event.leaves? = some (number, outcome)) ∧
    (∀ number failure next, Step config desk (.receive number (.error failure)) next →
      next.metadata = desk.metadata ∧ next.HasLeft number (.error failure) ∧
      ∀ other, other ≠ number → next.inquiries[other]? = desk.inquiries[other]?) ∧
    (.arrive true ∉ events → (fetches events).length ≤ 1) := by
  have hsound := h.sound
  refine ⟨?_, ?_, ?_, hsound.metadata_eq, fun _ _ => hsound.hasLeft_iff, fun _ _ _ => Step.failed,
    h.length_fetches_le⟩
  · rintro number other ⟨inquiry, hi, hp⟩ ⟨rival, hr, hp'⟩
    have hholder := (hsound.fits hi).holder_eq (by rw [hp]; trivial)
    have hholder' := (hsound.fits hr).holder_eq (by rw [hp']; trivial)
    exact Option.some.inj (hholder.symm.trans hholder')
  · rintro before after number inquiry rfl hi hrefresh
    obtain ⟨middle, next, hbefore, hstep, hafter⟩ := h.split
    obtain ⟨asker, hasker⟩ := hstep.asker
    obtain ⟨later, hlater, hr⟩ := hstep.refresh_eq hasker
    obtain ⟨last, hlast, hr'⟩ := hafter.refresh_eq hlater
    obtain rfl := Option.some.inj (hlast.symm.trans hi)
    exact hbefore.sound.ask hstep hasker (hr.symm.trans (hr'.symm.trans hrefresh))
  · rintro before after event number metadata rfl hleaves
    obtain ⟨middle, next, hbefore, hstep, -⟩ := h.split
    exact hbefore.sound.leaves hstep hleaves

/-! ### Four inquiries -/

def inquiryConfig : Config := { client := { package := "p" }, programFiles := [] }

/-- A registry that cannot be reached, and one that has the metadata of a package without versions. -/
def brokenSite : Site := { package := "p", metadataFault := { error := some "down" } }

def bareSite : Site := { package := "p" }

theorem isOk_published : (published inquiryConfig brokenSite).isOk = false ∧
    (published inquiryConfig bareSite).isOk = true := by
  decide +kernel

/-- An inquiry that may enter and needs an answer of the registry gets it, if no other comes between. -/
theorem Trace.ask {first : Desk} (h : Trace config first events desk) (world : World) (number : Nat)
    (refresh : Bool) (hi : desk.inquiries[number]? = some ⟨refresh, .waiting⟩) (hfree : desk.holder = none)
    (hunknown : desk.known? refresh = none) :
    ∃ last, Trace config first
        (events ++ [.enter number, .ask number, .receive number (published config world)]) last ∧
      last.holder = none ∧
      last.inquiries = desk.inquiries.set number ⟨refresh, .left (published config world)⟩ := by
  have hentered := h.snoc (.enter hi rfl hfree)
  have hinside := (inquiries_place hi .inside number).trans (if_pos rfl)
  have hasked := hentered.snoc (.ask hinside rfl hunknown)
  have hfetching := (inquiries_place hinside .fetching number).trans (if_pos rfl)
  have hreceived := hasked.snoc (.receive world hfetching rfl)
  rw [fst_getMetadata_true] at hreceived
  refine ⟨_, by simpa using hreceived, rfl, ?_⟩
  simp [place]

/-- What happens while two wait, of whom the first fails, and two more come later: the third, who must
have new metadata, fails as well, and the fourth finds those that the second was given. -/
def inquiryEvents (failure : Failure) (metadata : Metadata) : List Event :=
  [.arrive false, .arrive false, .enter 0, .ask 0, .receive 0 (.error failure), .enter 1, .ask 1,
    .receive 1 (.ok metadata), .arrive true, .arrive false, .enter 2, .ask 2,
    .receive 2 (.error failure), .enter 3, .find 3 metadata]

/-- The fourth leaves with what the registry gave last, and of the two failures only those are told who
asked. -/
theorem metadata_shared_by_four : ∃ failure metadata desk,
    Trace inquiryConfig (start { results := .unbounded [] }) (inquiryEvents failure metadata) desk ∧
      desk.metadata = some metadata ∧ desk.HasLeft 0 (.error failure) ∧
      desk.HasLeft 3 (.ok metadata) ∧ ¬desk.HasLeft 1 (.error failure) := by
  obtain ⟨failure, hfailure⟩ : ∃ failure, published inquiryConfig brokenSite = .error failure := by
    have hbroken := isOk_published.1
    cases h : published inquiryConfig brokenSite with
    | error failure => exact ⟨failure, rfl⟩
    | ok metadata => rw [h] at hbroken; cases hbroken
  obtain ⟨metadata, hmetadata⟩ : ∃ metadata, published inquiryConfig bareSite = .ok metadata := by
    have hbare := isOk_published.2
    cases h : published inquiryConfig bareSite with
    | ok metadata => exact ⟨metadata, rfl⟩
    | error failure => rw [h] at hbare; cases hbare
  have hstart : Trace inquiryConfig (start { results := .unbounded [] }) [] _ := .nil
  have hcome := (hstart.snoc (.arrive _ false)).snoc (.arrive _ false)
  obtain ⟨first, hfirst, hfree, hinquiries⟩ := hcome.ask brokenSite 0 false rfl rfl rfl
  rw [hfailure] at hfirst hinquiries
  obtain ⟨second, hsecond, hfree, hinquiries'⟩ := hfirst.ask bareSite 1 false
    (by rw [hinquiries]; rfl) hfree hfirst.sound.metadata_eq
  rw [hmetadata, hinquiries] at hinquiries'
  rw [hmetadata] at hsecond
  have hcome' := (hsecond.snoc (.arrive _ true)).snoc (.arrive _ false)
  obtain ⟨third, hthird, hfree, hinquiries⟩ := hcome'.ask brokenSite 2 true
    (by rw [hinquiries']; rfl) hfree rfl
  rw [hfailure] at hthird hinquiries
  have hwaits : third.inquiries[3]? = some ⟨false, .waiting⟩ := by
    rw [hinquiries, hinquiries']
    rfl
  have hentered := hthird.snoc (.enter hwaits rfl hfree)
  have hinside := (inquiries_place hwaits .inside 3).trans (if_pos rfl)
  have hfound : Trace inquiryConfig (start { results := .unbounded [] })
      (inquiryEvents failure metadata) _ :=
    hentered.snoc (.find hinside rfl hthird.sound.metadata_eq)
  obtain ⟨-, -, -, hmetadata, hleft, -⟩ := metadata_shared inquiryConfig { results := .unbounded [] }
    hfound
  refine ⟨failure, metadata, _, hfound, hmetadata, ?_, ?_, ?_⟩
  · exact (hleft 0 _).mpr ⟨.receive 0 (.error failure), by simp [inquiryEvents], rfl⟩
  · exact (hleft 3 _).mpr ⟨.find 3 metadata, by simp [inquiryEvents], rfl⟩
  · rw [hleft]
    simp [inquiryEvents, Event.leaves?]

end Desk

end ReleasePrompts.Service
