/-!
# Occurrences and cuts

Where a text occurs in another (`indexOf?`, `occurrences`), and what lies between two places of a
text (`slice`).
-/

namespace ReleasePrompts.Text

/-- The part of a text from the place `start` up to the place `stop`. -/
def slice {α : Type} (text : List α) (start stop : Nat) : List α :=
  (text.drop start).take (stop - start)

theorem slice_append_slice {α : Type} (text : List α) {a b c : Nat} (hab : a ≤ b) (hbc : b ≤ c) :
    slice text a b ++ slice text b c = slice text a c := by
  have hb : text.drop b = (text.drop a).drop (b - a) := by rw [List.drop_drop]; congr 1; omega
  have hc : c - a = (b - a) + (c - b) := by omega
  rw [slice, slice, slice, hb, hc, List.take_add]

variable {α : Type} [DecidableEq α]

/-- The first place at which `needle` occurs. -/
def indexOf? (needle : List α) : List α → Option Nat
  | [] => if needle.isPrefixOf [] then some 0 else none
  | c :: rest =>
    if needle.isPrefixOf (c :: rest) then some 0 else (indexOf? needle rest).map (· + 1)

/-- The places from `place` on at which `needle` occurs, where `text` stands at `place`. -/
def occurrencesFrom (needle : List α) (place : Nat) : List α → List Nat
  | [] => if needle.isPrefixOf [] then [place] else []
  | c :: rest =>
    if needle.isPrefixOf (c :: rest) then place :: occurrencesFrom needle (place + 1) rest
    else occurrencesFrom needle (place + 1) rest

/-- Every place at which `needle` occurs, overlapping ones included, in order. -/
def occurrences (needle text : List α) : List Nat := occurrencesFrom needle 0 text

/-- Whether `needle` occurs in `text`. -/
def contains (text needle : List α) : Bool := (indexOf? needle text).isSome

/-- The pieces between the occurrences of a separator, one more than there are of them. -/
def splitAt (separator : α) : List α → List (List α)
  | [] => [[]]
  | c :: rest =>
    if c = separator then [] :: splitAt separator rest
    else match splitAt separator rest with
      | [] => [[c]]
      | piece :: pieces => (c :: piece) :: pieces

/-- The pieces, joined by a separator. -/
def joinWith (separator : List α) : List (List α) → List α
  | [] => []
  | [piece] => piece
  | piece :: pieces => piece ++ separator ++ joinWith separator pieces

theorem splitAt_ne_nil (separator : α) (text : List α) : splitAt separator text ≠ [] := by
  cases text with
  | nil => simp [splitAt]
  | cons c rest =>
    simp only [splitAt]
    split
    · simp
    · split <;> simp

end ReleasePrompts.Text
