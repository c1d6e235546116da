import Mathlib.Data.List.Basic

/-!
# Splitting at the last separator

A text whose last fields have no separator, and whose first one may have any, is read from behind.

* `splitLast`: what stands in front of the last separator and what stands behind it;
* `splitLast_append`: the last separator is where it is put.
-/

namespace LastSplit

variable {α : Type*} [DecidableEq α]

def splitLast (sep : α) : List α → Option (List α × List α)
  | [] => none
  | x :: l =>
    match splitLast sep l with
    | some (front, last) => some (x :: front, last)
    | none => if x = sep then some ([], l) else none

section Split

variable {sep x : α} {l front last : List α}

theorem splitLast_eq_none_iff : splitLast sep l = none ↔ sep ∉ l := by
  induction l with
  | nil => exact iff_of_true rfl List.not_mem_nil
  | cons x l ih =>
    rw [splitLast]
    cases h : splitLast sep l with
    | some parts =>
      have hmem : sep ∈ l := by
        by_contra hnot
        rw [ih.mpr hnot] at h
        cases h
      exact iff_of_false (Option.some_ne_none _) fun hnot => hnot (List.mem_cons_of_mem x hmem)
    | none =>
      have hnot : sep ∉ l := ih.mp h
      dsimp only
      split
      · next heq =>
        exact iff_of_false (Option.some_ne_none _) fun h => h (heq ▸ List.mem_cons_self)
      · next hne =>
        refine iff_of_true rfl fun hmem => ?_
        rcases List.mem_cons.mp hmem with heq | hmem
        · exact hne heq.symm
        · exact hnot hmem

/-- The last separator is where it is put. -/
theorem splitLast_append (front : List α) (hlast : sep ∉ last) :
    splitLast sep (front ++ sep :: last) = some (front, last) := by
  induction front with
  | nil =>
    show splitLast sep (sep :: last) = _
    rw [splitLast, splitLast_eq_none_iff.mpr hlast]
    exact if_pos rfl
  | cons x front ih =>
    show splitLast sep (x :: (front ++ sep :: last)) = _
    rw [splitLast, ih]

end Split

end LastSplit
