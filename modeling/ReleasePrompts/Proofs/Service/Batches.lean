import Mathlib.Data.List.Forall2
import ReleasePrompts.Proofs.Service.Answers
import ReleasePrompts.Proofs.Service.Rounds

/-!
# Requests side by side

A service at rest is so again behind whatever requests it answers, any number of them at a time
(`AtRest.serve`). While they begin it is `Opening`: the loads that are not stuck have not taken a
step yet, and what the tickets for them give is what can be found of the versions (`Ticket.Gives`).
So a comparison of versions that can both be loaded is answered with that of their prompts, among
whatever other requests it comes.
-/

namespace ReleasePrompts.Service

open Registry Prompt

variable {config : Config} {world : World} {state : State} {stuck : List Load} {versions : List String}
  {base compared tab version : String} {left right : PromptSet}

/-! ## What keeps a service true -/

namespace Truthful

theorem getMetadata (h : Truthful config world state) (refresh : Bool) :
    Truthful config world (state.getMetadata config world refresh).2 := by
  simp only [State.getMetadata]
  split
  · exact h
  · have hfetch : (config.client.fetchMetadata world.reply).outcome = published config world := rfl
    rw [hfetch]
    cases hpublished : published config world with
    | error failure => exact ⟨h.metadata_sound, h.results_sound⟩
    | ok metadata =>
      refine ⟨?_, h.results_sound⟩
      rintro _ ⟨⟩
      exact hpublished

theorem versionsToCompare (h : Truthful config world state) (base compared : Option String) :
    Truthful config world (state.versionsToCompare config world base compared).2 := by
  rcases base with _ | base <;> rcases compared with _ | compared
  · exact h.getMetadata false
  · exact h.getMetadata false
  · exact h.getMetadata false
  · exact h

theorem checkComparison (h : Truthful config world state) (base compared tab : String) :
    Truthful config world (state.checkComparison config world base compared tab).2 := by
  simp only [State.checkComparison]
  split
  · exact h
  · split
    · exact h
    · exact h.getMetadata false

theorem fetchTarball (h : Truthful config world state) (version : String)
    (address : Option String) :
    Truthful config world (state.fetchTarball config world version address).2 := by
  cases address with
  | some address => exact ⟨h.metadata_sound, h.results_sound⟩
  | none =>
    have hm := h.getMetadata false
    simp only [State.fetchTarball]
    split
    · exact hm
    · exact ⟨hm.metadata_sound, hm.results_sound⟩

theorem get (h : Truthful config world state) (version : String) :
    Truthful config world { state with results := (state.results.get version).2 } :=
  ⟨h.metadata_sound, fun hm => h.results_sound (Cache.Store.mem_of_mem_get hm)⟩

end Truthful

/-! ## Loads that have not taken a step -/

/-- A service that is true to the registry, with loads that are stuck and loads of some versions that
have just begun. -/
structure Opening (config : Config) (world : World) (stuck : List Load) (versions : List String)
    (state : State) : Prop extends Truthful config world state where
  isStuck : Stuck config world stuck
  loads_eq : state.loads = stuck ++ loadsAfter config world versions 0

/-- What a ticket gives once loads of some versions have come as far as they can is what can be found
of a version. -/
def Ticket.Gives (config : Config) (world : World) (stuck : List Load) (versions : List String)
    (version : String) : Ticket → Prop
  | .ready prompts => loadDirectly config world version = .ok prompts
  | .waiting other => other = version ∧ (version ∈ stuck.map Load.version ∨ version ∈ versions)

theorem Ticket.Gives.append {ticket : Ticket} (h : ticket.Gives config world stuck versions version)
    (more : List String) : ticket.Gives config world stuck (versions ++ more) version := by
  cases ticket with
  | ready prompts => exact h
  | waiting other => exact ⟨h.1, h.2.imp_right (List.mem_append_left _)⟩

theorem Ticket.Gives.redeem {ticket : Ticket} {prompts : PromptSet}
    (h : ticket.Gives config world stuck versions version)
    (hstuck : Stuck config world stuck)
    (hloads : state.loads = stuck ++ loadsAfter config world versions 4)
    (hload : loadDirectly config world version = .ok prompts) : state.redeem ticket = .ok prompts := by
  cases ticket with
  | ready kept => exact h.symm.trans hload |> Except.ok.inj |> congrArg Except.ok
  | waiting other =>
    obtain ⟨rfl, hm⟩ := h
    -- no load that is stuck is of a version that can be loaded
    have hnot : other ∉ stuck.map Load.version := by
      intro hother
      obtain ⟨load, hmem, rfl⟩ := List.mem_map.mp hother
      rw [(hstuck load hmem).2] at hload
      cases hload
    rw [State.redeem, hloads, endOf_append_of_not_mem hnot, endOf_loadsAfter (hm.resolve_left hnot),
      hload]
    rfl

namespace Opening

/-- One who asks for the prompts of a version is given what is kept, or joins a load of the version,
which may begin only then. -/
theorem join (h : Opening config world stuck versions state) (version : String) :
    ∃ more, Opening config world stuck (versions ++ more) (state.join version).2 ∧
      (state.join version).1.Gives config world stuck (versions ++ more) version := by
  have hget := h.get version
  rcases hresults : state.results.get version with ⟨_ | prompts, results⟩
  · rw [hresults] at hget
    have hany : (state.loads.any fun load => load.version == version) = true ↔
        version ∈ stuck.map Load.version ∨ version ∈ versions := by
      simp [h.loads_eq, loadsAfter]
    simp only [State.join, hresults]
    split
    · next hin =>
        refine ⟨[], ?_, rfl, ?_⟩
        · rw [List.append_nil]
          exact ⟨hget, h.isStuck, h.loads_eq⟩
        · rw [List.append_nil]
          exact hany.mp hin
    · refine ⟨[version], ⟨⟨hget.metadata_sound, hget.results_sound⟩, h.isStuck, ?_⟩, rfl, by simp⟩
      rw [h.loads_eq, loadsAfter, loadsAfter, List.map_append, List.append_assoc]
      rfl
  · rw [hresults] at hget
    simp only [State.join, hresults]
    refine ⟨[], ⟨⟨hget.metadata_sound, hget.results_sound⟩, h.isStuck, ?_⟩, ?_⟩
    · rw [List.append_nil]
      exact h.loads_eq
    · exact h.results_sound (Cache.Store.mem_entries_of_get (congrArg Prod.fst hresults))

/-- A request that begins may begin a load. -/
theorem begin (h : Opening config world stuck versions state) (request : Request) :
    ∃ more, Opening config world stuck (versions ++ more) (begin config world state request).2 := by
  have hsame : ∀ {after : State}, Truthful config world after → after.loads = state.loads →
      ∃ more, Opening config world stuck (versions ++ more) after := fun ht hl =>
    ⟨[], ht, h.isStuck, by rw [List.append_nil, hl, h.loads_eq]⟩
  cases request with
  | listVersions refresh =>
    exact hsame (h.getMetadata refresh) (asks_getMetadata state refresh).loads_eq
  | defaultPair => exact hsame (h.getMetadata false) (asks_latestPair state).loads_eq
  | loadVersion version =>
    obtain ⟨more, hj, -⟩ := h.join version
    exact ⟨more, hj⟩
  | compare base compared tab =>
    have hv := h.versionsToCompare base compared
    have hl : (state.versionsToCompare config world base compared).2.loads = state.loads :=
      (asks_versionsToCompare state base compared).loads_eq
    simp only [Service.begin]
    split
    · exact hsame hv hl
    · next left right _ =>
        have hc := hv.checkComparison left right tab
        have hl' := (@asks_checkComparison config world _ left right tab).loads_eq.trans hl
        split
        · exact hsame hc hl'
        · exact hsame hc hl'
  | isKept version => exact hsame (h.get version) rfl
  | download version address =>
    exact hsame (h.fetchTarball version address) (asks_fetchTarball state version address).loads_eq
  | close => exact hsame h.toTruthful rfl

end Opening

/-- What becomes of a request once it may ask for prompts: a comparison that was checked waits for
those of its versions, and what is answered stays so. -/
structure Prepared (config : Config) (world : World) (stuck : List Load) (versions : List String)
    (before after : Pending) : Prop where
  answered : ∀ {outcome}, before = .answered outcome → after = .answered outcome
  checked : ∀ {base compared name}, before = .checked base compared name →
    ∃ left right, after = .comparing base compared name left right ∧
      left.Gives config world stuck versions base ∧ right.Gives config world stuck versions compared

theorem Prepared.append {before after : Pending} (h : Prepared config world stuck versions before after)
    (more : List String) : Prepared config world stuck (versions ++ more) before after where
  answered := h.answered
  checked := fun hb => by
    obtain ⟨left, right, ha, hleft, hright⟩ := h.checked hb
    exact ⟨left, right, ha, hleft.append more, hright.append more⟩

namespace Opening

theorem joinBoth (h : Opening config world stuck versions state) (pending : Pending) :
    ∃ more, Opening config world stuck (versions ++ more) (joinBoth state pending).2 ∧
      Prepared config world stuck (versions ++ more) pending (joinBoth state pending).1 := by
  cases pending with
  | checked base compared name =>
    obtain ⟨first, hfirst, hleft⟩ := h.join base
    obtain ⟨second, hsecond, hright⟩ := hfirst.join compared
    rw [List.append_assoc] at hsecond hright
    have hleft' := hleft.append second
    rw [List.append_assoc] at hleft'
    refine ⟨first ++ second, hsecond, nofun, ?_⟩
    rintro _ _ _ ⟨⟩
    exact ⟨_, _, rfl, hleft', hright⟩
  | answered | loading | comparing =>
    refine ⟨[], by rwa [List.append_nil], fun he => he, ?_⟩
    rintro _ _ _ ⟨⟩

/-- What holds of each of some requests, whatever loads begin behind it, holds of all of them. -/
theorem eachWith {α β : Type} {act : State → α → β × State} {R : List String → α → β → Prop}
    (hact : ∀ {versions state}, Opening config world stuck versions state → ∀ value, ∃ more,
      Opening config world stuck (versions ++ more) (act state value).2 ∧
        R (versions ++ more) value (act state value).1)
    (happend : ∀ {versions value result} (more : List String), R versions value result →
      R (versions ++ more) value result)
    (h : Opening config world stuck versions state) (values : List α) :
    ∃ more, Opening config world stuck (versions ++ more) (eachWith act state values).2 ∧
      List.Forall₂ (R (versions ++ more)) values (eachWith act state values).1 := by
  induction values generalizing versions state with
  | nil => exact ⟨[], by rwa [List.append_nil], .nil⟩
  | cons value values ih =>
    obtain ⟨first, hfirst, hfits⟩ := hact h value
    obtain ⟨others, hothers, hall⟩ := ih hfirst
    have hfits' := happend others hfits
    rw [List.append_assoc] at hothers hall hfits'
    exact ⟨first ++ others, hothers, .cons hfits' hall⟩

end Opening

/-! ## All requests that come at a time -/

/-- The outcome of a comparison of versions that can be loaded, and their prompts. -/
def compareLoaded (config : Config) (base compared tab : String) (left right : PromptSet) :
    Except Problem Answer :=
  match tabOf tab with
  | .error failure => .error (.failure failure)
  | .ok name =>
    ((compareSets config.markers base compared name left right).mapError .failure).map .comparison

/-- What becomes of a request that begins: a comparison of two versions that can be loaded passes all
checks, if there is its tab. -/
def Checked (config : Config) (world : World) (request : Request) (pending : Pending) : Prop :=
  ∀ {base compared tab : String} {left right : PromptSet},
    request = .compare (some base) (some compared) tab → base ≠ compared →
    loadDirectly config world base = .ok left → loadDirectly config world compared = .ok right →
    pending = match tabOf tab with
      | .error failure => .answered (.error (.failure failure))
      | .ok name => .checked base compared name

theorem Truthful.checked_begin (h : Truthful config world state) (request : Request) :
    Checked config world request (begin config world state request).1 := by
  rintro base compared tab left right rfl hne hleft hright
  simp only [begin, State.versionsToCompare]
  cases htab : tabOf tab with
  | error failure => simp only [State.checkComparison, htab]
  | ok name =>
    have hlocated {version : String} {prompts : PromptSet}
        (hload : loadDirectly config world version = .ok prompts) :
        ∃ tarball, located config world version = .ok tarball :=
      located_ok_of_loadDirectly fun failure => by simp [hload]
    obtain ⟨tarball, hbase⟩ := hlocated hleft
    obtain ⟨other, hcompared⟩ := hlocated hright
    have hcheck : state.checkComparison config world base compared tab =
        (.ok name, state.informed config world) := by
      rw [h.checkComparison_eq htab hne, hbase, hcompared]
      rfl
    simp only [hcheck]

/-- Once all loads have come as far as they can, a comparison of versions that can be loaded is that of
their prompts. -/
theorem Checked.answer_eq {request : Request} {begun pending : Pending}
    (h : Checked config world request begun) (hstuck : Stuck config world stuck)
    (hp : Prepared config world stuck versions begun pending)
    (hloads : state.loads = stuck ++ loadsAfter config world versions 4)
    (hrequest : request = .compare (some base) (some compared) tab) (hne : base ≠ compared)
    (hleft : loadDirectly config world base = .ok left)
    (hright : loadDirectly config world compared = .ok right) :
    answer config state pending = compareLoaded config base compared tab left right := by
  have hbegun := h hrequest hne hleft hright
  rw [compareLoaded]
  cases htab : tabOf tab with
  | error failure =>
    rw [htab] at hbegun
    rw [hp.answered hbegun]
    rfl
  | ok name =>
    rw [htab] at hbegun
    obtain ⟨ticket, other, rfl, hticket, hother⟩ := hp.checked hbegun
    simp only [answer, hticket.redeem hstuck hloads hleft, hother.redeem hstuck hloads hright]

theorem forall₂_getElem? {α β : Type} {R : α → β → Prop} {xs : List α} {ys : List β}
    (h : List.Forall₂ R xs ys) {i : Nat} {x : α} (hx : xs[i]? = some x) :
    ∃ y, ys[i]? = some y ∧ R x y := by
  obtain ⟨hi, rfl⟩ := List.getElem?_eq_some_iff.mp hx
  have hi' : i < ys.length := h.length_eq ▸ hi
  exact ⟨ys[i], List.getElem?_eq_getElem hi', h.get hi hi'⟩

/-- Whatever requests a service at rest answers, it is at rest behind them; and a comparison among them,
of versions that can be loaded, has the outcome that their prompts decide. -/
theorem AtRest.serve (h : AtRest config world state) (requests : List Request) :
    AtRest config world (serve config world state requests).2 ∧
      ∀ {base compared tab : String} {left right : PromptSet} {i : Nat},
        requests[i]? = some (.compare (some base) (some compared) tab) → base ≠ compared →
        loadDirectly config world base = .ok left → loadDirectly config world compared = .ok right →
        (Service.serve config world state requests).1[i]? =
          some (compareLoaded config base compared tab left right) := by
  have hopening : Opening config world state.loads [] state :=
    ⟨h.toTruthful, h.stuck, (List.append_nil _).symm⟩
  obtain ⟨first, hbegun, hchecked⟩ := hopening.eachWith
    (R := fun _ => Checked config world)
    (fun {_ state} h request => by
      obtain ⟨more, hmore⟩ := h.begin request
      exact ⟨more, hmore, h.checked_begin request⟩)
    (fun _ => id) requests
  obtain ⟨second, hjoined, hprepared⟩ := hbegun.eachWith (R := Prepared config world state.loads)
    (fun h pending => h.joinBoth pending) (fun more hp => hp.append more)
    (Service.eachWith (begin config world) state requests).1
  have hsettled := hjoined.settled h.stuck hjoined.loads_eq
  refine ⟨hsettled.atRest h.stuck,
    fun {base compared tab left right i} hrequest hne hleft hright => ?_⟩
  obtain ⟨begun, hi, hbegun⟩ := forall₂_getElem? hchecked hrequest
  obtain ⟨pending, hi', hpending⟩ := forall₂_getElem? hprepared hi
  have hanswer := hbegun.answer_eq h.stuck hpending hsettled.loads_eq rfl hne hleft hright
  simp only [Service.serve, List.getElem?_map, hi', Option.map_some, hanswer]

end ReleasePrompts.Service
