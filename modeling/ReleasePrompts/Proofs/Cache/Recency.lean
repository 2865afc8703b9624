import Mathlib.Data.List.Dedup
import Mathlib.Data.List.DropRight
import ReleasePrompts.Proofs.Cache.Store

/-!
# What a bounded cache holds

After any operations a bounded cache holds the keys that were used last, in the order of their last
use, with the values that they were given last (`Reflects`, which every operation keeps:
`Reflects.perform`). So whether a key is held can be read off the history of the cache alone: it was
set, and not too many other keys were used since its last use (`held_iff_recent`).
-/

namespace ReleasePrompts.Cache

variable {κ α : Type}

/-! ## Histories -/

/-- What a cache is asked to do. -/
inductive Operation (κ α : Type) where
  | get (key : κ)
  | set (key : κ) (value : α)
  | contains (key : κ)
  | clear

/-- An operation and what it gave. -/
inductive Event (κ α : Type) where
  | got (key : κ) (found : Option α)
  | set (key : κ) (value : α)
  | asked (key : κ) (held : Bool)
  | cleared
  deriving DecidableEq

namespace Event

def isCleared : Event κ α → Bool
  | cleared => true
  | _ => false

/-- The key that is used: one that is set, or found. -/
def used? : Event κ α → Option κ
  | got key (some _) => some key
  | set key _ => some key
  | _ => none

/-- The value that a key is given. -/
def given? [DecidableEq κ] (key : κ) : Event κ α → Option α
  | set other value => if other = key then some value else none
  | _ => none

end Event

/-- What happened since the last clearing. -/
def sinceClear (history : List (Event κ α)) : List (Event κ α) :=
  history.rtakeWhile fun event => !event.isCleared

/-- The keys that were used since the last clearing, in order. -/
def uses (history : List (Event κ α)) : List κ := (sinceClear history).filterMap Event.used?

/-- The other keys that were used since the last use of a key. -/
def usedSince [DecidableEq κ] (history : List (Event κ α)) (key : κ) : List κ :=
  (uses history).rtakeWhile fun other => other ≠ key

/-- The last value that a key was given since the last clearing. -/
def lastGiven? [DecidableEq κ] (history : List (Event κ α)) (key : κ) : Option α :=
  (sinceClear history).reverse.findSome? (Event.given? key)

namespace Lru

variable [DecidableEq κ]

/-- Does one operation. -/
def perform (cache : Lru κ α) : Operation κ α → Event κ α × Lru κ α
  | .get key =>
    let (found, cache) := cache.get key
    (.got key found, cache)
  | .set key value => (.set key value, cache.set key value)
  | .contains key => (.asked key (cache.contains key), cache)
  | .clear => (.cleared, cache.clear)

/-- Does operations one after the other. -/
def run (cache : Lru κ α) : List (Operation κ α) → List (Event κ α) × Lru κ α
  | [] => ([], cache)
  | operation :: operations =>
    let (event, cache) := cache.perform operation
    let (events, cache) := cache.run operations
    (event :: events, cache)

end Lru

theorem sinceClear_concat (history : List (Event κ α)) {event : Event κ α}
    (h : event.isCleared = false) : sinceClear (history ++ [event]) = sinceClear history ++ [event] := by
  simp [sinceClear, h]

theorem sinceClear_cleared (history : List (Event κ α)) :
    sinceClear (history ++ [.cleared]) = [] := by
  simp [sinceClear, Event.isCleared]

theorem uses_concat (history : List (Event κ α)) {event : Event κ α}
    (h : event.isCleared = false) : uses (history ++ [event]) = uses history ++ event.used?.toList := by
  rw [uses, sinceClear_concat history h, List.filterMap_append, uses]
  cases hused : event.used? <;> simp [hused]

theorem lastGiven?_concat [DecidableEq κ] (history : List (Event κ α)) {event : Event κ α}
    (h : event.isCleared = false) (key : κ) :
    lastGiven? (history ++ [event]) key = (event.given? key).or (lastGiven? history key) := by
  rw [lastGiven?, sinceClear_concat history h, List.reverse_append, List.findSome?_append, lastGiven?]
  cases hgiven : event.given? key <;> simp [hgiven]

/-- A value was given just if the key was set. -/
theorem isSome_lastGiven?_iff [DecidableEq κ] {history : List (Event κ α)} {key : κ} :
    (lastGiven? history key).isSome ↔ ∃ value, Event.set key value ∈ sinceClear history := by
  rw [lastGiven?, List.isSome_findSome?, List.any_reverse, List.any_eq_true]
  constructor
  · rintro ⟨event, hevent, hgiven⟩
    cases event with
    | set other value =>
      by_cases hkey : other = key
      · exact ⟨value, hkey ▸ hevent⟩
      · simp [Event.given?, hkey] at hgiven
    | got | asked | cleared => cases hgiven
  · rintro ⟨value, hset⟩
    exact ⟨_, hset, by simp [Event.given?]⟩

/-! ## Keys in the order of their last occurrence -/

theorem rtake_append {front back : List κ} {limit : Nat} (h : limit ≤ back.length) :
    (front ++ back).rtake limit = back.rtake limit := by
  have hdrop : (front ++ back).length - limit = front.length + (back.length - limit) := by
    rw [List.length_append]
    omega
  rw [List.rtake, hdrop, List.drop_length_add_append, List.rtake]

section

variable [DecidableEq κ]

/-- Whoever occurs again goes to the end. -/
theorem dedup_concat (keys : List κ) (key : κ) :
    (keys ++ [key]).dedup = keys.dedup.filter (fun other => other ≠ key) ++ [key] := by
  induction keys with
  | nil => rfl
  | cons first keys ih =>
    by_cases hkey : first = key
    · subst hkey
      rw [List.cons_append, List.dedup_cons_of_mem (by simp), ih]
      by_cases hmem : first ∈ keys
      · rw [List.dedup_cons_of_mem hmem]
      · rw [List.dedup_cons_of_notMem hmem, List.filter_cons_of_neg (by simp)]
    · by_cases hmem : first ∈ keys
      · rw [List.cons_append, List.dedup_cons_of_mem (by simp [hmem]), ih,
          List.dedup_cons_of_mem hmem]
      · rw [List.cons_append, List.dedup_cons_of_notMem (by simp [hmem, hkey]), ih,
          List.dedup_cons_of_notMem hmem, List.filter_cons_of_pos (by simpa using hkey),
          List.cons_append]

/-- Behind a key stand those that occur behind its last occurrence. -/
theorem dedup_split {keys : List κ} {key : κ} (h : key ∈ keys) :
    ∃ before, keys.dedup = before ++ key :: (keys.rtakeWhile fun other => other ≠ key).dedup := by
  obtain ⟨back, front, heq, hback⟩ := List.eq_append_cons_of_mem (List.mem_reverse.mpr h)
  have hsince : (keys.rtakeWhile fun other => other ≠ key) = back.reverse := by
    have hall : ∀ other ∈ back, decide (other ≠ key) = true := fun other hother =>
      decide_eq_true fun e => hback (e ▸ hother)
    rw [List.rtakeWhile, heq, List.takeWhile_append_of_pos hall, List.takeWhile_cons_of_neg (by simp),
      List.append_nil]
  have hkeys : keys = front.reverse ++ key :: back.reverse := by
    rw [← List.reverse_reverse keys, heq]
    simp
  have hlast : key ∉ back.reverse := fun hmem => hback (List.mem_reverse.mp hmem)
  obtain ⟨before, hbefore⟩ := List.suffix_union_right front.reverse (key :: back.reverse.dedup)
  refine ⟨before, ?_⟩
  rw [hsince, hbefore, ← List.dedup_cons_of_notMem hlast, ← List.dedup_append, ← hkeys]

/-- Each key occurs behind the last occurrence of those before it. -/
theorem pairwise_dedup (keys : List κ) :
    keys.dedup.Pairwise fun a b => b ∈ keys.rtakeWhile fun other => other ≠ a := by
  induction keys using List.reverseRecOn with
  | nil => exact .nil
  | append_singleton keys key ih =>
    rw [dedup_concat, List.pairwise_append]
    refine ⟨(ih.filter _).imp_of_mem fun ha hb h => ?_, List.pairwise_singleton _ _,
      fun a ha b hb => ?_⟩
    · have hne : key ≠ _ := fun e => of_decide_eq_true (List.mem_filter.mp ha).2 e.symm
      rw [List.rtakeWhile_concat, if_pos (decide_eq_true hne)]
      exact List.mem_append_left _ h
    · have hne : key ≠ a := fun e => of_decide_eq_true (List.mem_filter.mp ha).2 e.symm
      rw [List.rtakeWhile_concat, if_pos (decide_eq_true hne)]
      exact List.mem_append_right _ hb

/-- A key is among the last ones just if not too many others occur behind it. -/
theorem mem_rtake_dedup_iff {keys : List κ} {key : κ} {limit : Nat} :
    key ∈ keys.dedup.rtake limit ↔
      key ∈ keys ∧ (keys.rtakeWhile fun other => other ≠ key).dedup.length < limit := by
  constructor
  · intro h
    have hmem : key ∈ keys := List.mem_dedup.mp (List.mem_of_mem_drop h)
    obtain ⟨before, hsplit⟩ := dedup_split hmem
    refine ⟨hmem, Nat.lt_of_not_le fun hle => ?_⟩
    have hnodup := List.nodup_dedup keys
    rw [hsplit] at h hnodup
    rw [List.append_cons, rtake_append hle] at h
    exact (List.nodup_middle.mp hnodup).notMem (List.mem_append_right _ (List.mem_of_mem_drop h))
  · rintro ⟨hmem, hlt⟩
    obtain ⟨before, hsplit⟩ := dedup_split hmem
    have hdrop : (before ++ key :: (keys.rtakeWhile fun other => other ≠ key).dedup).length - limit ≤
        before.length := by
      rw [List.length_append, List.length_cons]
      omega
    rw [hsplit, List.rtake, List.drop_append_of_le_length hdrop]
    exact List.mem_append_right _ List.mem_cons_self

/-- To take out a key makes keys that differ fewer by one at most. -/
theorem length_le_filter_ne {keys : List κ} (hnodup : keys.Nodup) (key : κ) :
    keys.length ≤ (keys.filter fun other => other ≠ key).length + 1 := by
  induction keys with
  | nil => simp
  | cons first keys ih =>
    obtain ⟨hnot, hnodup⟩ := List.nodup_cons.mp hnodup
    by_cases hkey : first = key
    · have hrest : (keys.filter fun other => other ≠ key) = keys :=
        List.filter_eq_self.mpr fun other hother => decide_eq_true fun e => hnot (hkey ▸ e ▸ hother)
      rw [List.filter_cons_of_neg (by simpa using hkey), hrest, List.length_cons]
    · rw [List.filter_cons_of_pos (by simpa using hkey), List.length_cons, List.length_cons]
      exact Nat.succ_le_succ (ih hnodup)

/-- To use a key among the last ones is the same as to use it among all, as far as the last ones go. -/
theorem rtake_use {keys : List κ} (hnodup : keys.Nodup) (key : κ) (limit : Nat) :
    ((keys.rtake limit).filter (fun other => other ≠ key) ++ [key]).rtake limit =
      (keys.filter (fun other => other ≠ key) ++ [key]).rtake limit := by
  by_cases hlen : keys.length ≤ limit
  · have hall : keys.rtake limit = keys := by
      rw [List.rtake, Nat.sub_eq_zero_of_le hlen, List.drop_zero]
    rw [hall]
  · have hrtake : (keys.rtake limit).length = limit := by
      rw [List.rtake, List.length_drop]
      omega
    have hlast : limit ≤ ((keys.rtake limit).filter (fun other => other ≠ key) ++ [key]).length := by
      have hnodup' : (keys.rtake limit).Nodup := (List.drop_sublist _ _).nodup hnodup
      have := length_le_filter_ne hnodup' key
      rw [List.length_append, List.length_singleton]
      omega
    have hsplit : keys = keys.take (keys.length - limit) ++ keys.rtake limit :=
      (List.take_append_drop _ _).symm
    conv_rhs => rw [hsplit, List.filter_append, List.append_assoc]
    exact (rtake_append hlast).symm

end

/-! ## What operations keep -/

section

variable [DecidableEq κ] {history : List (Event κ α)} {cache : Lru κ α}

theorem Lru.keys_use (cache : Lru κ α) (key : κ) (value : α) :
    Pairs.keys (cache.use key value).entries =
      ((Pairs.keys cache.entries).filter (fun other => other ≠ key) ++ [key]).rtake
        cache.capacity := by
  rw [← Pairs.keys_erase, Lru.use, Pairs.keys, List.map_drop, List.map_append, List.rtake, Pairs.keys]
  simp

/-- Whether a cache holds what a history says: the keys used last, in the order of their last use,
with the values given last. -/
structure Reflects (history : List (Event κ α)) (cache : Lru κ α) : Prop where
  keys_eq : Pairs.keys cache.entries = (uses history).dedup.rtake cache.capacity
  given : ∀ entry ∈ cache.entries, lastGiven? history entry.1 = some entry.2
  /-- What was used since the last clearing was given a value since then. -/
  used : ∀ key ∈ uses history, (lastGiven? history key).isSome

theorem reflects_nil (hempty : cache.entries = []) : Reflects [] cache where
  keys_eq := by simp [hempty, Pairs.keys, uses, sinceClear]
  given := by simp [hempty]
  used := by simp [uses, sinceClear]

/-- The history goes on with a use of a key, whose value is the one given last. -/
theorem Reflects.use (h : Reflects history cache) {event : Event κ α} {key : κ} {value : α}
    (hused : event.used? = some key) (hvalue : lastGiven? (history ++ [event]) key = some value)
    (hothers : ∀ other, other ≠ key → event.given? other = none) :
    Reflects (history ++ [event]) (cache.use key value) := by
  have hclear : event.isCleared = false := by
    cases event <;> first | rfl | cases hused
  have huses : uses (history ++ [event]) = uses history ++ [key] := by
    rw [uses_concat history hclear, hused]
    rfl
  have hsame : ∀ other, other ≠ key →
      lastGiven? (history ++ [event]) other = lastGiven? history other := fun other hne => by
    rw [lastGiven?_concat history hclear, hothers other hne, Option.none_or]
  constructor
  · rw [Lru.keys_use, h.keys_eq, rtake_use (List.nodup_dedup _), huses, dedup_concat]
    rfl
  · intro entry hentry
    rcases Lru.mem_use_cases hentry with rfl | hentry
    · exact hvalue
    · obtain ⟨hmem, hne⟩ := Pairs.mem_erase.mp hentry
      rw [hsame entry.1 hne, h.given entry hmem]
  · intro other hother
    by_cases hne : other = key
    · rw [hne, hvalue]
      rfl
    · rw [huses] at hother
      rw [hsame other hne]
      exact h.used other ((List.mem_append.mp hother).resolve_right fun e =>
        hne (List.mem_singleton.mp e))

/-- The history goes on with what neither uses a key nor gives one a value. -/
theorem Reflects.idle (h : Reflects history cache) {event : Event κ α}
    (hclear : event.isCleared = false) (hused : event.used? = none)
    (hgiven : ∀ key, event.given? key = none) : Reflects (history ++ [event]) cache := by
  have huses : uses (history ++ [event]) = uses history := by
    simp [uses_concat history hclear, hused]
  have hsame : ∀ key, lastGiven? (history ++ [event]) key = lastGiven? history key := fun key => by
    rw [lastGiven?_concat history hclear, hgiven, Option.none_or]
  constructor
  · rw [huses]
    exact h.keys_eq
  · intro entry hentry
    rw [hsame]
    exact h.given entry hentry
  · intro key hkey
    rw [hsame]
    exact h.used key (huses ▸ hkey)

theorem reflects_clear (history : List (Event κ α)) (cache : Lru κ α) :
    Reflects (history ++ [.cleared]) cache.clear where
  keys_eq := by simp [Lru.clear, Pairs.keys, uses, sinceClear_cleared]
  given := by simp [Lru.clear]
  used := by simp [uses, sinceClear_cleared]

/-- Every operation keeps what a cache holds true to its history. -/
theorem Reflects.perform (h : Reflects history cache) (operation : Operation κ α) :
    Reflects (history ++ [(cache.perform operation).1]) (cache.perform operation).2 := by
  cases operation with
  | get key =>
    simp only [Lru.perform, Lru.get]
    split
    · exact h.idle rfl rfl fun _ => rfl
    · next value hvalue =>
      refine h.use rfl ?_ fun _ _ => rfl
      rw [lastGiven?_concat history rfl]
      exact h.given _ (Pairs.mem_of_get? hvalue)
  | set key value =>
    refine h.use rfl ?_ fun other hne => ?_
    · rw [Lru.perform, lastGiven?_concat history rfl]
      simp [Event.given?]
    · simp [Lru.perform, Event.given?, hne.symm]
  | contains key => exact h.idle rfl rfl fun _ => rfl
  | clear => exact reflects_clear history cache

theorem Reflects.run (h : Reflects history cache) (operations : List (Operation κ α)) :
    Reflects (history ++ (cache.run operations).1) (cache.run operations).2 := by
  induction operations generalizing history cache with
  | nil => simpa [Lru.run] using h
  | cons operation operations ih =>
    have := ih (h.perform operation)
    rwa [List.append_assoc] at this

theorem Lru.capacity_perform (cache : Lru κ α) (operation : Operation κ α) :
    (cache.perform operation).2.capacity = cache.capacity := by
  cases operation with
  | get key => simp only [perform, get]; split <;> rfl
  | set | contains | clear => rfl

theorem Lru.capacity_run (cache : Lru κ α) (operations : List (Operation κ α)) :
    (cache.run operations).2.capacity = cache.capacity := by
  induction operations generalizing cache with
  | nil => rfl
  | cons operation operations ih => exact (ih _).trans (cache.capacity_perform operation)

theorem Lru.contains_iff {key : κ} : cache.contains key = true ↔ key ∈ Pairs.keys cache.entries := by
  rw [contains, List.contains_iff_mem]

/-- A key that is held was set since the last clearing, and fewer others than there is room for were
used since its last use. -/
theorem Reflects.contains_iff (h : Reflects history cache) {key : κ} :
    cache.contains key = true ↔ (∃ value, Event.set key value ∈ sinceClear history) ∧
      (usedSince history key).dedup.length < cache.capacity := by
  rw [Lru.contains_iff, h.keys_eq, mem_rtake_dedup_iff, ← isSome_lastGiven?_iff, usedSince]
  refine and_congr_left fun _ => ⟨h.used key, fun hgiven => ?_⟩
  obtain ⟨value, hset⟩ := isSome_lastGiven?_iff.mp hgiven
  exact List.mem_filterMap.mpr ⟨_, hset, rfl⟩

/-- A key that is held has the value that it was given last. -/
theorem Reflects.get_eq (h : Reflects history cache) (key : κ) :
    (cache.get key).1 = if cache.contains key then lastGiven? history key else none := by
  rw [Lru.get_fst]
  cases hvalue : Pairs.get? cache.entries key with
  | none =>
    have hnot : ¬cache.contains key = true := fun hheld =>
      Pairs.get?_eq_none_iff.mp hvalue (Lru.contains_iff.mp hheld)
    rw [if_neg hnot]
  | some value =>
    have hmem := Pairs.mem_of_get? hvalue
    have hheld : cache.contains key = true :=
      Lru.contains_iff.mpr (List.mem_map_of_mem (f := Prod.fst) hmem)
    rw [if_pos hheld, h.given _ hmem]

end

/-- After any operations on a cache that was empty a key is held just if it was set since the last
clearing and fewer other keys than there is room for were used since its own last use. The keys stand
in the order of their last use, and a key that is held has the value it was given last. To ask for a
key changes nothing, and there are never too many entries. -/
theorem held_iff_recent [DecidableEq κ] {size : Int} (hsize : 1 ≤ size)
    (operations : List (Operation κ α)) :
    ∃ empty : Lru κ α, Lru.ofCapacity? size = some empty ∧
      let history := (empty.run operations).1
      let cache := (empty.run operations).2
      (∀ key, cache.contains key = true ↔
        (∃ value, Event.set key value ∈ sinceClear history) ∧
          ((usedSince history key).dedup.length : Int) < size) ∧
      (Pairs.keys cache.entries).Pairwise (fun a b => b ∈ usedSince history a) ∧
      (∀ key, (cache.get key).1 = if cache.contains key then lastGiven? history key else none) ∧
      (∀ key, cache.perform (.contains key) = (.asked key (cache.contains key), cache)) ∧
      (cache.entries.length : Int) ≤ size := by
  refine ⟨⟨size.toNat, [], by omega, Nat.zero_le _⟩, dif_pos (by omega), ?_⟩
  intro history cache
  have hcapacity : cache.capacity = size.toNat := Lru.capacity_run _ operations
  have h : Reflects history cache := (reflects_nil rfl).run operations
  refine ⟨fun key => ?_, ?_, h.get_eq, fun _ => rfl, ?_⟩
  · rw [h.contains_iff, hcapacity]
    exact and_congr_right fun _ => by omega
  · rw [h.keys_eq]
    exact (pairwise_dedup (uses history)).sublist (List.drop_sublist _ _)
  · have := cache.length_entries_le
    omega

/-- In a cache of two entries the third key drives out the one that was not asked for. -/
theorem held_iff_recent_of_three :
    ∃ empty : Lru Nat Char, Lru.ofCapacity? 2 = some empty ∧
      let cache := (empty.run [.set 1 'a', .set 2 'b', .get 1, .set 3 'c', .get 2]).2
      cache.contains 1 = true ∧ cache.contains 2 = false ∧ (cache.get 1).1 = some 'a' := by
  obtain ⟨empty, hempty, hheld, -, hget, -⟩ := held_iff_recent (show (1 : Int) ≤ 2 by decide)
    [.set 1 'a', .set 2 'b', .get 1, .set 3 'c', .get (2 : Nat)]
  refine ⟨empty, hempty, ?_⟩
  obtain rfl := Option.some.inj ((dif_pos (by decide)).symm.trans hempty)
  have hone := (hheld 1).mpr ⟨⟨'a', by decide⟩, by decide⟩
  refine ⟨hone, Bool.eq_false_iff.mpr fun htwo => ?_, ?_⟩
  · exact absurd ((hheld 2).mp htwo).2 (by decide)
  · rw [hget, if_pos hone]
    decide

end ReleasePrompts.Cache
