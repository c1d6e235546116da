import Mathlib.Algebra.BigOperators.Group.Finset.Basic
import Mathlib.Algebra.Order.BigOperators.Group.Finset
import Mathlib.Data.List.Count

/-!
# Reference counting

Objects with several references to each, some in a shared list and the others with owners. A counter
says how many there are; when the last one is dropped the object is deleted.

* `Counters`: the count of references and of deletions of each object; `drop`, `dropAll`;
* `Counters.Sound`: an object is deleted, once, exactly when no reference is left;
* `Tally`: the counts are the references there are. `Tally.update` is the rule for a step of one
  owner, with what it takes from the list or puts there; `Tally.clear` the one for an emptied list.
-/

namespace RefCount

variable {α T : Type*} [DecidableEq α]

theorem count_cons_add (a : α) (l : List α) (b : α) :
    (a :: l).count b = [a].count b + l.count b := by
  rw [← List.count_append]
  rfl

theorem count_single_of_ne {a b : α} (h : b ≠ a) : [a].count b = 0 :=
  List.count_eq_zero_of_not_mem fun hb => h (List.mem_singleton.mp hb)

/-- One occurrence is erased. -/
theorem count_erase_add {a : α} {l : List α} (h : a ∈ l) (b : α) :
    (l.erase a).count b + [a].count b = l.count b := by
  rw [(List.perm_cons_erase h).count_eq b, count_cons_add a (l.erase a), Nat.add_comm]

/-! ## Counters -/

structure Counters (α : Type*) where
  use : α → Nat
  deleted : α → Nat

namespace Counters

/-- One more reference. -/
def share (c : Counters α) (a : α) : Counters α :=
  { c with use := Function.update c.use a (c.use a + 1) }

/-- One reference less. The last one deletes the object. -/
def drop (c : Counters α) (a : α) : Counters α where
  use := Function.update c.use a (c.use a - 1)
  deleted := if c.use a = 1 then Function.update c.deleted a (c.deleted a + 1) else c.deleted

def dropAll (c : Counters α) (as : List α) : Counters α := as.foldl drop c

/-- The object is deleted once if no reference is left, and not otherwise. -/
def Sound (c : Counters α) (a : α) : Prop := c.deleted a = if c.use a = 0 then 1 else 0

section Drop

variable {c : Counters α} {a b : α} {as : List α}

theorem share_use (c : Counters α) (a b : α) : (c.share a).use b = c.use b + [a].count b := by
  show Function.update c.use a (c.use a + 1) b = _
  by_cases h : b = a
  · subst h
    rw [Function.update_self, List.count_singleton_self]
  · rw [Function.update_of_ne h, count_single_of_ne h, Nat.add_zero]

theorem drop_use (c : Counters α) (a b : α) : (c.drop a).use b = c.use b - [a].count b := by
  show Function.update c.use a (c.use a - 1) b = _
  by_cases h : b = a
  · subst h
    rw [Function.update_self, List.count_singleton_self]
  · rw [Function.update_of_ne h, count_single_of_ne h, Nat.sub_zero]

/-- A reference is copied. -/
theorem Sound.share (h : c.Sound b) (hlive : 0 < c.use a) : (c.share a).Sound b := by
  unfold Sound at h ⊢
  rw [share_use]
  show c.deleted b = _
  by_cases hb : b = a
  · subst hb
    rw [h, if_neg hlive.ne', if_neg (by omega)]
  · rw [count_single_of_ne hb, Nat.add_zero]
    exact h

theorem Sound.drop (h : c.Sound b) (hlive : 0 < c.use a) : (c.drop a).Sound b := by
  unfold Sound at h ⊢
  rw [drop_use]
  show (if c.use a = 1 then Function.update c.deleted a (c.deleted a + 1) else c.deleted) b = _
  by_cases hb : b = a
  · subst hb
    rw [List.count_singleton_self]
    split
    · next hlast => rw [Function.update_self, h, if_neg hlive.ne', if_pos (by omega)]
    · next hmore => rw [h, if_neg hlive.ne', if_neg (by omega)]
  · rw [count_single_of_ne hb, Nat.sub_zero, ← h]
    split
    · exact Function.update_of_ne hb _ _
    · rfl

theorem dropAll_use (c : Counters α) (as : List α) (b : α) :
    (c.dropAll as).use b = c.use b - as.count b := by
  induction as generalizing c with
  | nil => rfl
  | cons a as ih =>
    show ((c.drop a).dropAll as).use b = _
    rw [ih, drop_use, Nat.sub_sub, ← count_cons_add]

/-- As many references are dropped as there are, at most. -/
theorem Sound.dropAll (h : c.Sound b) (hlive : ∀ a, as.count a ≤ c.use a) :
    (c.dropAll as).Sound b := by
  induction as generalizing c with
  | nil => exact h
  | cons a as ih =>
    have hmem : 0 < (a :: as).count a := List.count_pos_iff.mpr List.mem_cons_self
    have hpos : 0 < c.use a := Nat.lt_of_lt_of_le hmem (hlive a)
    refine ih (h.drop hpos) fun x => ?_
    have hx := hlive x
    rw [count_cons_add] at hx
    rw [drop_use]
    omega

end Drop

end Counters

/-! ## The references there are

What makes the counters right: `use` is the number of references, in the shared list and in the
hands of finitely many owners. -/

/-- The counts are the references in the shared list and those of the owners, of whom finitely many
have some. -/
def Tally (shared : List α) (refs : T → List α) (use : α → Nat) : Prop :=
  ∃ owners : Finset T, (∀ t ∉ owners, refs t = []) ∧
    ∀ a, use a = shared.count a + ∑ t ∈ owners, (refs t).count a

namespace Tally

variable {shared shared' : List α} {refs : T → List α} {use use' : α → Nat} {a : α}

theorem start (shared : List α) : Tally shared (fun _ : T => []) fun a => shared.count a :=
  ⟨∅, fun _ _ => rfl, fun _ => rfl⟩

variable [DecidableEq T]

/-- Any one owner can be among those that are counted. -/
theorem among (h : Tally shared refs use) (t : T) : ∃ owners : Finset T, t ∈ owners ∧
    (∀ t ∉ owners, refs t = []) ∧
      ∀ a, use a = shared.count a + ∑ t ∈ owners, (refs t).count a := by
  obtain ⟨owners, hnone, hcount⟩ := h
  refine ⟨insert t owners, Finset.mem_insert_self t owners, fun u hu => ?_, fun a => ?_⟩
  · exact hnone u fun hmem => hu (Finset.mem_insert_of_mem hmem)
  · rw [hcount, Finset.sum_insert_of_eq_zero_if_notMem]
    intro ht
    rw [hnone t ht]
    rfl

theorem count_le (h : Tally shared refs use) (t : T) (a : α) :
    shared.count a + (refs t).count a ≤ use a := by
  obtain ⟨owners, ht, -, hcount⟩ := h.among t
  rw [hcount a]
  exact Nat.add_le_add_left (Finset.single_le_sum_of_canonicallyOrdered
    (f := fun t => (refs t).count a) ht) _

/-- The references of two owners. -/
theorem count_pair_le (h : Tally shared refs use) {t t' : T} (hne : t ≠ t') (a : α) :
    (refs t).count a + (refs t').count a ≤ use a := by
  obtain ⟨owners, ht, hnone, hcount⟩ := h.among t
  by_cases ht' : t' ∈ owners
  · have hsub : {t, t'} ⊆ owners :=
      Finset.insert_subset ht (Finset.singleton_subset_iff.mpr ht')
    rw [hcount a, ← Finset.sum_pair (f := fun u => (refs u).count a) hne]
    exact Nat.le_trans (Finset.sum_le_sum_of_subset hsub) (Nat.le_add_left _ _)
  · have hle := h.count_le t a
    rw [hnone t' ht', List.count_nil]
    omega

omit [DecidableEq T] in
theorem shared_le (h : Tally shared refs use) (a : α) : shared.count a ≤ use a := by
  obtain ⟨owners, -, hcount⟩ := h
  rw [hcount a]
  exact Nat.le_add_right _ _

omit [DecidableEq T] in
/-- No reference is left. -/
theorem use_eq_zero (h : Tally shared refs use) (hshared : a ∉ shared)
    (hrefs : ∀ t, a ∉ refs t) : use a = 0 := by
  obtain ⟨owners, -, hcount⟩ := h
  rw [hcount a, List.count_eq_zero_of_not_mem hshared, Nat.zero_add]
  exact Finset.sum_eq_zero fun t _ => List.count_eq_zero_of_not_mem (hrefs t)

/-- **A step of one owner.** What the counts gain is what the list and the owner gain. -/
theorem update (h : Tally shared refs use) (t : T) {r : List α}
    (hstep : ∀ a, use' a + (shared.count a + (refs t).count a)
      = use a + (shared'.count a + r.count a)) :
    Tally shared' (Function.update refs t r) use' := by
  obtain ⟨owners, ht, hnone, hcount⟩ := h.among t
  refine ⟨owners, fun u hu => ?_, fun a => ?_⟩
  · have hne : u ≠ t := fun heq => hu (heq ▸ ht)
    rw [Function.update_of_ne hne]
    exact hnone u hu
  · have hrest : ∑ u ∈ owners.erase t, (Function.update refs t r u).count a
        = ∑ u ∈ owners.erase t, (refs u).count a := by
      refine Finset.sum_congr rfl fun u hu => ?_
      rw [Function.update_of_ne (Finset.ne_of_mem_erase hu)]
    have hsum := hcount a
    have hgain := hstep a
    rw [← Finset.add_sum_erase owners _ ht] at hsum ⊢
    rw [hrest, Function.update_self]
    omega

omit [DecidableEq T] in
/-- The references of the list are dropped. -/
theorem clear (h : Tally shared refs use) (hstep : ∀ a, use' a + shared.count a = use a) :
    Tally [] refs use' := by
  obtain ⟨owners, hnone, hcount⟩ := h
  refine ⟨owners, hnone, fun a => ?_⟩
  have hsum := hcount a
  have hgain := hstep a
  rw [List.count_nil]
  omega

end Tally

end RefCount
