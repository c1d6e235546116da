import Mathlib.Data.Finmap

/-!
# The reference LFU cache

A least-frequently-used cache with least-recently-used tie-break, as a relation between a
request, its answer and the next cache. An entry has its value, the number of hits since it
was inserted, and the time of its last access; the clock counts requests.

* `IsVictim`: the entry of fewest hits and, among those, of the oldest access;
* `Step`: a hit, a miss with room, a miss on a full cache, which removes the victim first;
* `Run`: the requests one after the other, with their answers.

The relation is a function (`Run.functional`): the victim is unique. `Step.lookup_value` says
where the values come from, and `Run.size_le` bounds the number of entries.
-/

namespace ReferenceLfu

variable {κ ν : Type*} [DecidableEq κ]

structure Entry (ν : Type*) where
  value : ν
  hits : Nat
  last : Nat

/-- Fewer hits, or as many and an older access. -/
def Entry.Before (e e' : Entry ν) : Prop :=
  e.hits < e'.hits ∨ (e.hits = e'.hits ∧ e.last < e'.last)

structure Cache (κ ν : Type*) where
  entries : Finmap fun _ : κ => Entry ν
  clock : Nat

namespace Cache

def empty : Cache κ ν where
  entries := ∅
  clock := 0

def size (s : Cache κ ν) : Nat := s.entries.keys.card

/-- The cache after an access that leaves the entry `⟨v, hits, now⟩` for `k`. -/
def put (s : Cache κ ν) (k : κ) (v : ν) (hits : Nat) : Cache κ ν where
  entries := s.entries.insert k ⟨v, hits, s.clock⟩
  clock := s.clock + 1

def drop (s : Cache κ ν) (k : κ) : Cache κ ν := { s with entries := s.entries.erase k }

end Cache

def IsVictim (s : Cache κ ν) (k : κ) : Prop :=
  ∃ e, s.entries.lookup k = some e ∧
    ∀ k' e', s.entries.lookup k' = some e' → k' ≠ k → e.Before e'

/-- A request for `k`, which brings `v` if it misses, and what it is answered. -/
inductive Step (capacity : Nat) (s : Cache κ ν) (k : κ) (v : ν) :
    Option ν → Cache κ ν → Prop where
  | hit (e : Entry ν) (hk : s.entries.lookup k = some e) :
      Step capacity s k v (some e.value) (s.put k e.value (e.hits + 1))
  | room (hk : s.entries.lookup k = none) (hroom : s.size < capacity) :
      Step capacity s k v none (s.put k v 0)
  | full (hk : s.entries.lookup k = none) (hfull : s.size = capacity) (victim : κ)
      (hvictim : IsVictim s victim) : Step capacity s k v none ((s.drop victim).put k v 0)

inductive Run (capacity : Nat) : List (κ × ν) → List (Option ν) → Cache κ ν → Prop where
  | nil : Run capacity [] [] Cache.empty
  | snoc (rs : List (κ × ν)) (outs : List (Option ν)) (s s' : Cache κ ν) (k : κ) (v : ν)
      (out : Option ν) (hrun : Run capacity rs outs s) (hstep : Step capacity s k v out s') :
      Run capacity (rs ++ [(k, v)]) (outs ++ [out]) s'

/-! ## The reference is a function

The relation is stated with `IsVictim`, and there is one victim at most: two entries cannot each
come before the other. -/

section Functional

variable {capacity : Nat} {s s' s'' : Cache κ ν} {k k' : κ} {v : ν} {out out' : Option ν}

theorem Entry.Before.asymm {e e' : Entry ν} (h : e.Before e') : ¬ e'.Before e := by
  unfold Entry.Before at *
  omega

theorem IsVictim.unique (h : IsVictim s k) (h' : IsVictim s k') : k = k' := by
  obtain ⟨e, he, hmin⟩ := h
  obtain ⟨e', he', hmin'⟩ := h'
  by_contra hne
  exact (hmin k' e' he' (Ne.symm hne)).asymm (hmin' k e he hne)

theorem Step.functional (h : Step capacity s k v out s') (h' : Step capacity s k v out' s'') :
    out = out' ∧ s' = s'' := by
  cases h with
  | hit e hk =>
      cases h' with
      | hit e' hk' =>
          cases Option.some.inj (hk.symm.trans hk')
          exact ⟨rfl, rfl⟩
      | room hk' _ => rw [hk] at hk'; cases hk'
      | full hk' _ _ _ => rw [hk] at hk'; cases hk'
  | room hk hroom =>
      cases h' with
      | hit e' hk' => rw [hk] at hk'; cases hk'
      | room _ _ => exact ⟨rfl, rfl⟩
      | full _ hfull _ _ => omega
  | full hk hfull victim hvictim =>
      cases h' with
      | hit e' hk' => rw [hk] at hk'; cases hk'
      | room _ hroom => omega
      | full _ _ victim' hvictim' =>
          rw [hvictim.unique hvictim']
          exact ⟨rfl, rfl⟩

theorem Run.functional {rs : List (κ × ν)} {outs outs' : List (Option ν)}
    (h : Run capacity rs outs s) (h' : Run capacity rs outs' s') : outs = outs' ∧ s = s' := by
  induction h generalizing outs' s' with
  | nil =>
      generalize hrs : ([] : List (κ × ν)) = rs at h'
      cases h' with
      | nil => exact ⟨rfl, rfl⟩
      | snoc rs outs s _ k v out _ _ => exact absurd hrs.symm (by simp)
  | snoc rs outs s t k v out _ hstep ih =>
      generalize hrs : rs ++ [(k, v)] = rs' at h'
      cases h' with
      | nil => exact absurd hrs (by simp)
      | snoc rs₂ outs₂ s₂ _ k₂ v₂ out₂ hrun₂ hstep₂ =>
          obtain ⟨rfl, hkv⟩ := List.append_inj' hrs rfl
          cases hkv
          obtain ⟨rfl, rfl⟩ := ih hrun₂
          obtain ⟨rfl, rfl⟩ := hstep.functional hstep₂
          exact ⟨rfl, rfl⟩

end Functional

/-! ## The values -/

section Values

variable {capacity : Nat} {s s' : Cache κ ν} {k k' : κ} {v : ν} {out : Option ν} {e' : Entry ν}
  {hits : Nat}

theorem put_lookup (h : (s.put k v hits).entries.lookup k' = some e') :
    (k' = k ∧ e'.value = v) ∨ (k' ≠ k ∧ s.entries.lookup k' = some e') := by
  rcases eq_or_ne k' k with rfl | hne
  · cases (Finmap.lookup_insert _).symm.trans h
    exact .inl ⟨rfl, rfl⟩
  · exact .inr ⟨hne, (Finmap.lookup_insert_of_ne _ hne).symm.trans h⟩

/-- An entry has the value that a miss brought now, or the one it had. -/
theorem Step.lookup_value (h : Step capacity s k v out s')
    (he : s'.entries.lookup k' = some e') :
    (k' = k ∧ out = none ∧ e'.value = v) ∨
      ∃ e, s.entries.lookup k' = some e ∧ e.value = e'.value := by
  cases h with
  | hit e hk =>
      rcases put_lookup he with ⟨rfl, hv⟩ | ⟨-, hold⟩
      · exact .inr ⟨e, hk, hv.symm⟩
      · exact .inr ⟨e', hold, rfl⟩
  | room _ _ =>
      rcases put_lookup he with ⟨rfl, hv⟩ | ⟨-, hold⟩
      · exact .inl ⟨rfl, rfl, hv⟩
      · exact .inr ⟨e', hold, rfl⟩
  | full _ _ victim _ =>
      rcases put_lookup he with ⟨rfl, hv⟩ | ⟨-, hold⟩
      · exact .inl ⟨rfl, rfl, hv⟩
      · -- the entry is not the victim's, which is gone
        have hne : k' ≠ victim := by
          rintro rfl
          cases (Finmap.lookup_erase _ _).symm.trans hold
        exact .inr ⟨e', (Finmap.lookup_erase_ne hne).symm.trans hold, rfl⟩

end Values

/-! ## The size of the cache

At most the capacity, along every run. -/

section Size

variable {capacity : Nat} {s s' : Cache κ ν} {k : κ} {v : ν} {out : Option ν} {hits : Nat}

theorem keys_put : (s.put k v hits).entries.keys = insert k s.entries.keys := by
  ext k'
  rw [Finmap.mem_keys, Finset.mem_insert, Finmap.mem_keys]
  exact Finmap.mem_insert

theorem size_put_of_mem (hk : k ∈ s.entries) : (s.put k v hits).size = s.size := by
  rw [Cache.size, keys_put, Finset.insert_eq_of_mem (Finmap.mem_keys.mpr hk), Cache.size]

theorem size_put_le : (s.put k v hits).size ≤ s.size + 1 := by
  rw [Cache.size, keys_put]
  exact Finset.card_insert_le k s.entries.keys

theorem size_drop (hk : k ∈ s.entries) : (s.drop k).size + 1 = s.size := by
  rw [Cache.size, Cache.drop, Finmap.keys_erase]
  exact Finset.card_erase_add_one (Finmap.mem_keys.mpr hk)

theorem Step.size_le (h : Step capacity s k v out s') (hs : s.size ≤ capacity) :
    s'.size ≤ capacity := by
  cases h with
  | hit e hk =>
      rw [size_put_of_mem (Finmap.mem_of_lookup_eq_some hk)]
      exact hs
  | room _ hroom => exact Nat.le_trans size_put_le hroom
  | full _ hfull victim hvictim =>
      obtain ⟨e, he, -⟩ := hvictim
      have hdrop := size_drop (Finmap.mem_of_lookup_eq_some he)
      have hput : ((s.drop victim).put k v 0).size ≤ (s.drop victim).size + 1 := size_put_le
      omega

theorem Run.size_le {rs : List (κ × ν)} {outs : List (Option ν)}
    (h : Run capacity rs outs s) : s.size ≤ capacity := by
  induction h with
  | nil => exact Nat.zero_le _
  | snoc _ _ _ _ _ _ _ _ hstep ih => exact hstep.size_le ih

end Size

end ReferenceLfu
