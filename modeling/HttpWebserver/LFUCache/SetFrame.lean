import HttpWebserver.LFUCache.Clients
import Mathlib.Data.Set.Card

/-!
# LFUCache — `set` of a key that is present

`set` never looks for its key: it evicts when the cache is full, and puts a new node in. What the
other keys have of it depends on the victim alone.

* `set_full`, `set_room`: the effect of a `set` on the entries and on the number of nodes, on a
  full cache and on one with room;
* `run_grouped`: what any run leaves, whatever the increment of the labels is;
* **`set_frame_iff`** — exactly when a `set` of a resident key changes nothing but that key.
-/

namespace HttpWebserver.Lfu

open LinkedHeap Machine

/-- The addresses of the nodes in the lists. -/
def storedNodes (c : LFUCache) : Set Nat := { b | ∃ key, Stored c b key }

/-- From `c` to `c'` only the key `k` changes, and `get` then delivers `v` for it. -/
structure OnlyUpdates (c c' : LFUCache) (k v : Str) : Prop where
  others : ∀ k' ≠ k, k' ∈ c.kmap → ∃ e, c.entry k' = some e ∧ c'.entry k' = some e
  count : (storedNodes c').ncard = (storedNodes c).ncard
  yields : ∀ rt val, ∃ c'', c'.get rt k val = some (c'', true, val ++ v)

/-- The cache is full, and the node to be evicted is of the key `k` or of a key that is gone. -/
def EvictsNoOther (c : LFUCache) (k : Str) : Prop :=
  c.kmap.keys.card = c.capacity ∧ ∃ x, c.victim = some x ∧ (x.2.key = k ∨ x.2.key ∉ c.kmap)

section Frame

variable (rt : Runtime) {c c' : LFUCache} {hd : Group} {gs gs' : List Group} {k : Str}

theorem Grouped.storedNodes_ncard (h : Grouped c hd gs) :
    (storedNodes c).ncard = (allNodes gs).length := by
  have hnodes : storedNodes c = ↑(addrs (allNodes gs)).toFinset := by
    ext b
    rw [Finset.mem_coe, List.mem_toFinset]
    constructor
    · rintro ⟨key, hb⟩
      exact mem_addrs (h.stored_iff.mp hb)
    · intro hb
      obtain ⟨x, hx, rfl⟩ := List.mem_map.mp hb
      exact ⟨x.2, h.stored_iff.mpr hx⟩
  rw [hnodes, Set.ncard_coe_finset, List.toFinset_card_of_nodup h.nodup, addrs, List.length_map]

/-- A resident key has an entry. -/
theorem Grouped.entry_some (h : Grouped c hd gs) (hk : k ∈ c.kmap) : ∃ e, c.entry k = some e := by
  obtain ⟨p, hp⟩ := Finmap.mem_iff.mp hk
  obtain ⟨g, hg, x, hx, -, rfl, hfmap⟩ := h.mapped k p hp
  exact ⟨_, h.entry_eq hg hx hp hfmap⟩

theorem mem_of_entry {e : Str × Int} (he : c.entry k = some e) : k ∈ c.kmap := by
  obtain ⟨p, hp, -⟩ := Option.bind_eq_some_iff.mp he
  exact Finmap.mem_of_lookup_eq_some hp

theorem Grouped.get_yields (h : Grouped c hd gs) (hcap : c.capacity ≠ 0) {v : Str} {f : Int}
    (he : c.entry k = some (v, f)) (val : Str) :
    ∃ c', c.get rt k val = some (c', true, val ++ v) := by
  obtain ⟨c', v', _, g, _, _, _, _, _, -, -, hget, -, -, hentry, -⟩ :=
    get_grouped rt h hcap (mem_of_entry he) val
  cases he.symm.trans hentry
  exact ⟨c', hget⟩

/-! ## One `set`

A `set` on a cache that is full evicts one node, and this takes another key's entry away unless
the node is the key's own or was left by an earlier `set`. -/

/-- A `set` on a full cache. -/
theorem set_full (h : Grouped c hd gs) (hcap : c.capacity ≠ 0)
    (hfull : c.kmap.keys.card = c.capacity) (key val : Str) :
    ∃ c' gs' x, c.victim = some x ∧ c.set rt key val = some c' ∧ c'.capacity = c.capacity ∧
      c'.entry key = some (val, rt.inc hd.freq) ∧
      (∀ k', k' ∈ c'.kmap ↔ k' = key ∨ (k' ≠ x.2.key ∧ k' ∈ c.kmap)) ∧
      (∀ k' ≠ key, k' ∈ c'.kmap → c'.entry k' = c.entry k') ∧
      (allNodes gs').length = (allNodes gs).length ∧ Grouped c' hd gs' := by
  obtain ⟨c₁, g, R, xs, b, key₁, rfl, hnodes, hevict, hcap₁, hkmap₁, hother₁, hperm₁, h₁⟩ :=
    evict_grouped h (h.groups_ne_nil hcap hfull)
  obtain ⟨c₂, n, R', nodes, b₂, hbehind, hinsert, hcap₂, hkmap₂, hentry, hother₂, hperm₂, h₂⟩ :=
    insert_grouped rt h₁ key val
  have hkeys : ∀ k', k' ∈ c₂.kmap ↔ k' = key ∨ (k' ≠ key₁.key ∧ k' ∈ c.kmap) := fun k' => by
    rw [hkmap₂, Finmap.mem_insert, hkmap₁, Finmap.mem_erase]
  refine ⟨c₂, _, (b, key₁), h.victim_eq hnodes, ?_, hcap₂.trans hcap₁, ?_, hkeys,
    fun k' hne hk' => ?_, ?_, h₂⟩
  · simp only [LFUCache.set, if_neg hcap, if_pos hfull, hevict, hinsert, Option.bind_eq_bind,
      Option.bind_some]
  · rw [← hbehind.1]
    exact hentry
  · obtain ⟨hne₁, hk⟩ := ((hkeys k').mp hk').resolve_left hne
    have hk₁ : k' ∈ c₁.kmap := by
      rw [hkmap₁]
      exact Finmap.mem_erase.mpr ⟨hne₁, hk⟩
    exact (hother₂ k' hne hk₁).trans (hother₁ k' hne₁ hk)
  · rw [hperm₂.length_eq, hperm₁.length_eq]
    rfl

/-- A `set` on a cache with room leaves all nodes where they are. -/
theorem set_room (h : Grouped c hd gs) (hcap : c.capacity ≠ 0)
    (hroom : c.kmap.keys.card ≠ c.capacity) (key val : Str) :
    ∃ c' gs', c.set rt key val = some c' ∧ c'.capacity = c.capacity ∧
      c'.entry key = some (val, rt.inc hd.freq) ∧
      (∀ k', k' ∈ c'.kmap ↔ k' = key ∨ k' ∈ c.kmap) ∧
      (∀ k' ≠ key, k' ∈ c'.kmap → c'.entry k' = c.entry k') ∧
      (allNodes gs').length = (allNodes gs).length + 1 ∧ Grouped c' hd gs' := by
  obtain ⟨c₂, n, R', nodes, b₂, hbehind, hinsert, hcap₂, hkmap₂, hentry, hother₂, hperm₂, h₂⟩ :=
    insert_grouped rt h key val
  have hkeys : ∀ k', k' ∈ c₂.kmap ↔ k' = key ∨ k' ∈ c.kmap := fun k' => by
    rw [hkmap₂, Finmap.mem_insert]
  refine ⟨c₂, _, ?_, hcap₂, ?_, hkeys, fun k' hne hk' => ?_, ?_, h₂⟩
  · simp only [LFUCache.set, if_neg hcap, if_neg hroom, hinsert, Option.bind_eq_bind,
      Option.bind_some]
  · rw [← hbehind.1]
    exact hentry
  · exact hother₂ k' hne (((hkeys k').mp hk').resolve_left hne)
  · rw [hperm₂.length_eq]
    rfl

/-- What is resident after a `set` is its key, with a new label, or was resident before. -/
theorem set_grouped (h : Grouped c hd gs) (hcap : c.capacity ≠ 0) (key val : Str) :
    ∃ c' gs', c.set rt key val = some c' ∧ c'.capacity = c.capacity ∧
      c'.entry key = some (val, rt.inc hd.freq) ∧
      (∀ k' ≠ key, k' ∈ c'.kmap → c'.entry k' = c.entry k') ∧ Grouped c' hd gs' := by
  by_cases hfull : c.kmap.keys.card = c.capacity
  · obtain ⟨c', gs', x, -, hset, hcap', hentry, -, hother, -, h'⟩ :=
      set_full rt h hcap hfull key val
    exact ⟨c', gs', hset, hcap', hentry, hother, h'⟩
  · obtain ⟨c', gs', hset, hcap', hentry, -, hother, -, h'⟩ := set_room rt h hcap hfull key val
    exact ⟨c', gs', hset, hcap', hentry, hother, h'⟩

/-- What one `set` of a resident key changes. -/
theorem onlyUpdates_iff (h : Grouped c hd gs) (hcap : c.capacity ≠ 0) (v : Str) :
    (∃ c', c.set rt k v = some c' ∧ OnlyUpdates c c' k v) ↔ EvictsNoOther c k := by
  by_cases hfull : c.kmap.keys.card = c.capacity
  · obtain ⟨c', gs', x, hvictim, hset, hcap', hentry, hkeys, hother, hlen, h'⟩ :=
      set_full rt h hcap hfull k v
    constructor
    · rintro ⟨c₁, hset₁, hupdates⟩
      cases hset.symm.trans hset₁
      refine ⟨hfull, x, hvictim, ?_⟩
      by_contra hnot
      obtain ⟨hne, hres⟩ := not_or.mp hnot
      -- the victim's key is another one that was resident
      obtain ⟨e, -, he⟩ := hupdates.others x.2.key hne (not_not.mp hres)
      exact (((hkeys x.2.key).mp (mem_of_entry he)).resolve_left hne).1 rfl
    · rintro ⟨-, y, hy, hspares⟩
      cases hvictim.symm.trans hy
      refine ⟨c', hset, fun k' hne hk' => ?_, ?_, fun rt' val => ?_⟩
      · have hne' : k' ≠ x.2.key := by
          rintro rfl
          exact hspares.elim hne fun hres => hres hk'
        obtain ⟨e, he⟩ := h.entry_some hk'
        exact ⟨e, he, (hother k' hne ((hkeys k').mpr (.inr ⟨hne', hk'⟩))).trans he⟩
      · rw [h'.storedNodes_ncard, h.storedNodes_ncard, hlen]
      · exact h'.get_yields rt' (by rw [hcap']; exact hcap) hentry val
  · obtain ⟨c', gs', hset, -, -, -, -, hlen, h'⟩ := set_room rt h hcap hfull k v
    constructor
    · rintro ⟨c₁, hset₁, hupdates⟩
      cases hset.symm.trans hset₁
      -- there is one node more
      have hcount := hupdates.count
      rw [h'.storedNodes_ncard, h.storedNodes_ncard, hlen] at hcount
      omega
    · exact fun hevicts => absurd hevicts.1 hfull

/-- Another key that is resident must not lose its entry. -/
theorem not_onlyUpdates_of_lost (key : Str) {v : Str} (hk : key ∈ c.kmap) (hne : key ≠ k)
    (hlost : (c.set rt k v).bind (fun c' => c'.entry key) = none) :
    ¬ ∃ c', c.set rt k v = some c' ∧ OnlyUpdates c c' k v := by
  rintro ⟨c', hset, hupdates⟩
  obtain ⟨e, -, he⟩ := hupdates.others key hne hk
  rw [hset, Option.bind_some, he] at hlost
  cases hlost

end Frame

/-! ## Runs -/

section Runs

variable {inc : Int → Int} {c c' c₀ : LFUCache} {hd : Group} {gs : List Group} {k : Str}

theorem call_grouped (inc : Int → Int) (h : Grouped c hd gs) (hcap : c.capacity ≠ 0) (r : Call) :
    ∃ c' gs', call inc c r = some c' ∧ c'.capacity = c.capacity ∧ Grouped c' hd gs' := by
  obtain ⟨keys, freqs, op⟩ := r
  cases op with
  | get key val =>
    by_cases hk : key ∈ c.kmap
    · obtain ⟨c', v, L, g, R, n, R', nodes, nodes', -, -, hget, hcap', -, -, -, -, -, h'⟩ :=
        get_grouped ⟨keys, freqs, inc⟩ h hcap hk val
      refine ⟨c', _, ?_, hcap', h'⟩
      simp only [call, hget, Option.map_some]
    · have hmiss : c.fmap.lookup key = none := Finmap.lookup_eq_none.mpr (h.mem_fmap.not.mpr hk)
      refine ⟨c, gs, ?_, rfl, h⟩
      simp only [call, get_miss ⟨keys, freqs, inc⟩ hmiss, Option.map_some]
  | set key val =>
    obtain ⟨c', gs', hset, hcap', -, -, h'⟩ := set_grouped ⟨keys, freqs, inc⟩ h hcap key val
    exact ⟨c', gs', hset, hcap', h'⟩

/-- A cache without capacity does nothing. -/
theorem call_of_capacity_zero (hcap : c.capacity = 0) (r : Call) : call inc c r = some c := by
  obtain ⟨keys, freqs, op⟩ := r
  cases op with
  | get key val => simp only [call, LFUCache.get, if_pos hcap, Option.map_some]
  | set key val => simp only [call, LFUCache.set, if_pos hcap]

/-- Without capacity no key is resident. -/
theorem Grouped.capacity_ne_zero (h : Grouped c hd gs) (hnil : c.capacity = 0 → gs = [])
    (hk : k ∈ c.kmap) : c.capacity ≠ 0 := by
  intro hcap
  obtain ⟨p, hp⟩ := Finmap.mem_iff.mp hk
  obtain ⟨g, hg, -⟩ := h.mapped k p hp
  rw [hnil hcap] at hg
  cases hg

/-- What a run leaves: groups with the maps, and none without capacity. -/
def InGroups (c : LFUCache) : Prop :=
  ∃ hd gs, Grouped c hd gs ∧ (c.capacity = 0 → gs = [])

theorem run_grouped {rt : Runtime} {capacity : Nat} {rs : List Call}
    (hnew : LFUCache.new rt capacity = some c₀) (hrun : exec (call inc) c₀ rs = some c) :
    InGroups c := by
  have hinit : InGroups c₀ := by
    obtain ⟨c, hd, hnew', -, hlinked⟩ := new_wellLinked rt capacity
    cases hnew.symm.trans hnew'
    exact ⟨hd, [], hlinked.grouped, fun _ => rfl⟩
  refine exec_invariant (I := InGroups) ?_ hinit hrun
  rintro c r c' ⟨hd, gs, h, hnil⟩ hcall
  by_cases hcap : c.capacity = 0
  · cases (call_of_capacity_zero hcap r).symm.trans hcall
    exact ⟨hd, gs, h, hnil⟩
  · obtain ⟨c₁, gs₁, hcall₁, hcap₁, h₁⟩ := call_grouped inc h hcap r
    cases hcall.symm.trans hcall₁
    exact ⟨hd, gs₁, h₁, fun hzero => absurd (hcap₁.symm.trans hzero) hcap⟩

/-- **What `set` does to a resident key.** In every state that any calls of `get` and `set` reach
from a new cache, with any increment of the labels: a `set` of a resident key keeps the other
resident keys with their values and frequencies and the number of stored nodes, and lets `get`
deliver the new value, if and only if the cache is full and the node that it evicts is of that
key or of a key that is no longer resident. -/
theorem set_frame_iff {rt : Runtime} {capacity : Nat} {rs : List Call}
    (hnew : LFUCache.new rt capacity = some c₀) (hrun : exec (call inc) c₀ rs = some c)
    (hk : k ∈ c.kmap) (v : Str) (rt' : Runtime) :
    (∃ c', c.set rt' k v = some c' ∧ OnlyUpdates c c' k v) ↔ EvictsNoOther c k := by
  obtain ⟨hd, gs, h, hnil⟩ := run_grouped hnew hrun
  exact onlyUpdates_iff rt' h (h.capacity_ne_zero hnil hk) v

/-- Two keys fill a cache of capacity 2. -/
def filledCalls : List Call :=
  [.set [97] [1], .set [98] [2]].map fun op =>
    { keys := behind.keys, freqs := behind.freqs, op := op }

/-- The older key is set again, and its own node is the one to go. -/
theorem set_frame_iff_filled :
    ∃ c₀ c, LFUCache.new behind 2 = some c₀ ∧ exec (call (· + 1)) c₀ filledCalls = some c ∧
      [97] ∈ c.kmap ∧
      ((∃ c', c.set behind [97] [3] = some c' ∧ OnlyUpdates c c' [97] [3]) ↔
        EvictsNoOther c [97]) :=
  ⟨_, _, rfl, rfl, by decide,
    set_frame_iff (show LFUCache.new behind 2 = _ from rfl)
      (show exec (call (· + 1)) _ filledCalls = _ from rfl) (by decide) [3] behind⟩

/-- The newer key is set again, and the older one has to go. -/
theorem set_evicts_other :
    ∃ c₀ c, LFUCache.new behind 2 = some c₀ ∧ exec (call (· + 1)) c₀ filledCalls = some c ∧
      [98] ∈ c.kmap ∧ c.entry [97] = some ([1], 1) ∧
      (c.set behind [98] [3]).bind (fun c' => c'.entry [97]) = none ∧
      ¬ ∃ c', c.set behind [98] [3] = some c' ∧ OnlyUpdates c c' [98] [3] := by
  refine ⟨_, _, rfl, rfl, by decide, by decide, by decide, ?_⟩
  exact not_onlyUpdates_of_lost behind [97] (by decide) (by decide) (by decide)

end Runs

end HttpWebserver.Lfu
