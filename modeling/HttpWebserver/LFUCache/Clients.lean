import HttpWebserver.LFUCache.WellLinked
import Mathlib.Data.List.Nodup

/-!
# LFUCache — clients that miss and set

The clients of the shared cache, as `doRequest` uses it: a thread calls `get` and, on a miss, loads
the value and calls `set`. Each call has the lock, but between the two another thread can set the
same key, and `set` does not look for the key.

* `Stored`: a node in one of the lists, read off the pointers;
* `Own`: each node is the node of its key, as a fact about the groups (`Own.oneNodePerKey`);
* `set_own`, `set_doubles`: what a `set` makes of it;
* **`one_node_per_key_iff`** — in all states of a run each key has one node if and only if no
  `set` finds its key present, unless it evicts the key's node itself.
-/

namespace HttpWebserver.Lfu

open LinkedHeap Machine

/-- The node that `set` evicts when the cache is full. -/
def LFUCache.victim (c : LFUCache) : Option (Nat × Key) := do
  let d ← load c.freqHeap c.dummyHead
  let f ← load c.freqHeap d.next
  let b ← f.value.getLast
  let n ← load c.keyHeap (some b)
  some (b, n.value)

/-- The key node at `b` is in the list of a frequency node. -/
def Stored (c : LFUCache) (b : Nat) (key : Key) : Prop :=
  ∃ a f n, Reach c.freqHeap c.dummyHead a ∧ c.freqHeap.lookup a = some f ∧
    Reach c.keyHeap f.value.dummyHead b ∧ f.value.dummyHead ≠ some b ∧
    c.keyHeap.lookup b = some n ∧ n.value = key

/-- The nodes in the lists are the entries of `kmap_`: no more than the capacity, and a node that
is evicted is the one its key is mapped to. -/
structure OneNodePerKey (c : LFUCache) : Prop where
  own : ∀ b key, Stored c b key → c.kmap.lookup key.key = some (some b)
  entry : ∀ k p, c.kmap.lookup k = some p → ∃ b key, p = some b ∧ Stored c b key ∧ key.key = k
  bounded : ∃ bs : List Nat, bs.Nodup ∧ (∀ b, b ∈ bs ↔ ∃ key, Stored c b key) ∧
    bs.length ≤ c.capacity
  victim : c.kmap.keys.card = c.capacity → ∀ x, c.victim = some x →
    c.kmap.lookup x.2.key = some (some x.1)

/-! ## The nodes of the lists

From the groups to the pointers and back: a key node is `Stored` exactly when it is in a group, so
the results can be stated without the groups. -/

section Nodes

variable {c : LFUCache} {hd : Group} {gs : List Group} {b : Nat} {key : Key} {x y : Nat × Key}

/-- The nodes have distinct addresses. -/
theorem addrs_allNodes_sublist (gs : List Group) : (addrs (allNodes gs)).Sublist (keyAddrs gs) := by
  induction gs with
  | nil => exact List.Sublist.refl _
  | cons g gs ih =>
    rw [allNodes_cons, addrs_append, keyAddrs_cons]
    exact (List.sublist_cons_self _ _).append ih

theorem Grouped.nodup (h : Grouped c hd gs) : (addrs (allNodes gs)).Nodup := by
  have hnd := h.layout.keyNodup
  rw [addrs_nil, List.append_nil, keyAddrs_cons, List.nodup_append] at hnd
  exact hnd.2.1.sublist (addrs_allNodes_sublist gs)

theorem Grouped.eq_of_addr (h : Grouped c hd gs) (hx : x ∈ allNodes gs)
    (hy : y ∈ allNodes gs) (haddr : x.1 = y.1) : x = y :=
  List.inj_on_of_nodup_map h.nodup hx hy haddr

theorem Grouped.reach_group (h : Grouped c hd gs) {a : Nat} :
    Reach c.freqHeap c.dummyHead a ↔ ∃ g ∈ hd :: gs, g.addr = a := by
  rw [h.layout.head, h.layout.chain.reach_iff]
  simp [addrs, entries, Group.entry, eq_comm (a := a)]

/-- Behind its dummy node, the list of a group has the nodes of the group. -/
theorem Grouped.reach_node (h : Grouped c hd gs) {g : Group} (hg : g ∈ hd :: gs) :
    Reach c.keyHeap g.list.dummyHead b ∧ g.list.dummyHead ≠ some b ↔ b ∈ addrs g.nodes := by
  have hlist : Reach c.keyHeap g.list.dummyHead b ↔ b ∈ g.dummy :: addrs g.nodes :=
    (h.layout.lists g hg).reach_iff
  have hdummy : g.dummy ∉ addrs g.nodes := by
    obtain ⟨L, R, hsplit⟩ := List.append_of_mem hg
    have hlay := h.layout
    rw [hsplit] at hlay
    have hnd := hlay.cells_nodup
    rw [Group.cells, addrs_cons, List.nodup_cons] at hnd
    exact hnd.1
  rw [hlist, List.mem_cons]
  show (b = g.dummy ∨ b ∈ addrs g.nodes) ∧ some g.dummy ≠ some b ↔ b ∈ addrs g.nodes
  constructor
  · rintro ⟨hb | hb, hne⟩
    · exact absurd (congrArg some hb.symm) hne
    · exact hb
  · intro hb
    refine ⟨.inr hb, fun heq => hdummy ?_⟩
    rw [Option.some.inj heq]
    exact hb

/-- The pointers lead to the nodes of the groups behind the head. -/
theorem Grouped.stored_iff (h : Grouped c hd gs) :
    Stored c b key ↔ (b, key) ∈ allNodes gs := by
  constructor
  · rintro ⟨a, f, n, ha, hf, hb, hdummy, hn, rfl⟩
    obtain ⟨g, hg, rfl⟩ := h.reach_group.mp ha
    obtain ⟨pre, next, hg'⟩ := h.lookup_group hg
    cases hf.symm.trans hg'
    obtain ⟨x, hx, rfl⟩ := List.mem_map.mp ((h.reach_node hg).mp ⟨hb, hdummy⟩)
    -- the list of the head has no node
    have hgs : g ∈ gs := by
      rcases List.mem_cons.mp hg with rfl | hgs
      · rw [h.headNodes] at hx
        cases hx
      · exact hgs
    have hmem := mem_allNodes.mpr ⟨g, hgs, hx⟩
    obtain ⟨n', hn', hvalue⟩ := h.lookup_node hmem
    cases hn.symm.trans hn'
    rw [hvalue]
    exact hmem
  · intro hmem
    obtain ⟨g, hg, hx⟩ := mem_allNodes.mp hmem
    have hg' := List.mem_cons_of_mem hd hg
    obtain ⟨pre, next, hgroup⟩ := h.lookup_group hg'
    obtain ⟨n, hn, hvalue⟩ := h.lookup_node hmem
    obtain ⟨hreach, hdummy⟩ := (h.reach_node hg').mpr (mem_addrs hx)
    exact ⟨g.addr, _, n, h.reach_group.mpr ⟨g, hg', rfl⟩, hgroup, hreach, hdummy, hn, hvalue⟩

theorem Grouped.victim_eq {g : Group} {R : List Group} {xs : List (Nat × Key)}
    (h : Grouped c hd (g :: R)) (hnodes : g.nodes = xs ++ [(b, key)]) :
    c.victim = some (b, key) := by
  have hhd := Layout.lookup_freq (L := []) (g := hd) h.layout
  have hg := Layout.lookup_freq (L := [hd]) (g := g) h.layout
  have hhead : c.dummyHead = some hd.addr := h.layout.head
  have hlast : g.list.getLast = some b := by
    rw [KeyList.getLast, Group.list, Group.cells, hnodes, ← List.cons_append, lastPtr_append]
    rfl
  have hmem : (b, key) ∈ allNodes (g :: R) := by
    rw [allNodes_cons, hnodes]
    simp
  obtain ⟨n, hn, hvalue⟩ := h.lookup_node hmem
  simp only [LFUCache.victim, hhead, load_some, hhd, entries_cons, firstPtr, hg, hlast, hn, hvalue,
    Option.bind_eq_bind, Option.bind_some]

/-- The victim is the last node of the first group. -/
theorem Grouped.of_victim (h : Grouped c hd gs) (hx : c.victim = some x) :
    ∃ g R xs, gs = g :: R ∧ g.nodes = xs ++ [x] := by
  rcases eq_or_ne gs [] with rfl | hne
  · -- without a group there is no node to evict
    have hhd := Layout.lookup_freq (L := []) (g := hd) h.layout
    have hhead : c.dummyHead = some hd.addr := h.layout.head
    simp [LFUCache.victim, hhead, hhd, load, firstPtr, entries] at hx
  · obtain ⟨g, R, rfl⟩ := List.exists_cons_of_ne_nil hne
    obtain ⟨xs, b, key, hnodes⟩ := h.last_node List.mem_cons_self
    cases (h.victim_eq hnodes).symm.trans hx
    exact ⟨g, R, xs, rfl, hnodes⟩

end Nodes

/-! ## One node for each key

`set` does not look for a node that the key may have already. It leaves one node of the key only
where there was none, or where the one there was is the victim. -/

/-- Each node is the node of its key. -/
def Own (c : LFUCache) (gs : List Group) : Prop :=
  ∀ x ∈ allNodes gs, c.kmap.lookup x.2.key = some (some x.1)

section Own

variable (rt : Runtime) {c c' : LFUCache} {hd : Group} {gs gs' : List Group} {b : Nat} {k : Str}
  {key : Key} {x : Nat × Key}

theorem OneNodePerKey.own_groups (hone : OneNodePerKey c) (h : WellLinked c hd gs) : Own c gs :=
  fun x hx => hone.own x.1 x.2 (h.grouped.stored_iff.mpr hx)

/-- The keys of the nodes are distinct keys of the map. -/
theorem Own.length_le (hown : Own c gs) (h : WellLinked c hd gs) :
    (allNodes gs).length ≤ c.kmap.keys.card := by
  have hkeys : ((allNodes gs).map fun x => x.2.key).Nodup := by
    refine List.Nodup.map_on (fun x hx y hy hxy => h.grouped.eq_of_addr hx hy ?_)
      (List.Nodup.of_map _ h.grouped.nodup)
    have hsame := hown x hx
    rw [hxy, hown y hy] at hsame
    exact (Option.some.inj (Option.some.inj hsame)).symm
  have hsub : ((allNodes gs).map fun x => x.2.key).toFinset ⊆ c.kmap.keys := by
    intro k hk
    obtain ⟨x, hx, rfl⟩ := List.mem_map.mp (List.mem_toFinset.mp hk)
    exact Finmap.mem_keys.mpr (Finmap.mem_of_lookup_eq_some (hown x hx))
  have hle := Finset.card_le_card hsub
  rw [List.toFinset_card_of_nodup hkeys, List.length_map] at hle
  exact hle

theorem Own.oneNodePerKey (hown : Own c gs) (h : WellLinked c hd gs)
    (hcard : c.kmap.keys.card ≤ c.capacity) : OneNodePerKey c := by
  refine ⟨fun b key hb => hown _ (h.grouped.stored_iff.mp hb), fun k p hp => ?_, ?_,
    fun hfull x hx => ?_⟩
  · obtain ⟨g, hg, x, hx, hxk, hxp, -⟩ := h.mapped k p hp
    exact ⟨x.1, x.2, hxp, h.grouped.stored_iff.mpr (mem_allNodes.mpr ⟨g, hg, hx⟩), hxk⟩
  · refine ⟨addrs (allNodes gs), h.grouped.nodup, fun b => ⟨fun hb => ?_, ?_⟩, ?_⟩
    · obtain ⟨x, hx, rfl⟩ := List.mem_map.mp hb
      exact ⟨x.2, h.grouped.stored_iff.mpr hx⟩
    · rintro ⟨key, hb⟩
      exact mem_addrs (h.grouped.stored_iff.mp hb)
    · rw [addrs, List.length_map]
      exact (hown.length_le h).trans hcard
  · obtain ⟨g, R, xs, rfl, hnodes⟩ := h.grouped.of_victim hx
    exact hown x (by rw [allNodes_cons, hnodes]; simp)

/-- The node that leaves takes its key's entry with it. -/
theorem Own.evict (hown : Own c gs) (h : WellLinked c hd gs)
    (hperm : (allNodes gs).Perm ((b, key) :: allNodes gs'))
    (hkmap : c'.kmap = c.kmap.erase key.key) :
    Own c' gs' ∧ c'.kmap.keys.card + 1 = c.kmap.keys.card := by
  have hb : (b, key) ∈ allNodes gs := hperm.mem_iff.mpr List.mem_cons_self
  have hmem : key.key ∈ c.kmap.keys :=
    Finmap.mem_keys.mpr (Finmap.mem_of_lookup_eq_some (hown _ hb))
  constructor
  · intro x hx
    have hold : x ∈ allNodes gs := hperm.mem_iff.mpr (List.mem_cons_of_mem _ hx)
    have hne : x.2.key ≠ key.key := by
      intro hkey
      have hsame := hown x hold
      rw [hkey, hown _ hb] at hsame
      -- the same address twice
      have hnd := (hperm.map Prod.fst).nodup_iff.mp h.grouped.nodup
      rw [List.map_cons, List.nodup_cons] at hnd
      apply hnd.1
      rw [Option.some.inj (Option.some.inj hsame)]
      exact mem_addrs hx
    rw [hkmap, Finmap.lookup_erase_ne hne]
    exact hown x hold
  · rw [hkmap, Finmap.keys_erase]
    exact Finset.card_erase_add_one hmem

theorem Own.insert {v : Str} (hown : Own c gs) (hk : k ∉ c.kmap)
    (hperm : (allNodes gs').Perm ((b, ⟨k, v⟩) :: allNodes gs))
    (hkmap : c'.kmap = c.kmap.insert k (some b)) :
    Own c' gs' ∧ c'.kmap.keys.card ≤ c.kmap.keys.card + 1 := by
  constructor
  · intro x hx
    rw [hkmap]
    rcases List.mem_cons.mp (hperm.mem_iff.mp hx) with rfl | hold
    · exact Finmap.lookup_insert _
    · have hne : x.2.key ≠ k := by
        rintro rfl
        exact hk (Finmap.mem_of_lookup_eq_some (hown x hold))
      rw [Finmap.lookup_insert_of_ne _ hne]
      exact hown x hold
  · have hkeys : c'.kmap.keys = Insert.insert k c.kmap.keys := by
      rw [hkmap]
      ext k'
      simp only [Finmap.mem_keys, Finmap.mem_insert, Finset.mem_insert]
    rw [hkeys]
    exact Finset.card_insert_le _ _

/-- A new node beside the one that the key has. -/
theorem not_own_of_present {v : Str} (h' : WellLinked c' hd gs') (hx : x ∈ allNodes gs)
    (hperm : (allNodes gs').Perm ((b, ⟨x.2.key, v⟩) :: allNodes gs)) : ¬ Own c' gs' := by
  intro hown
  have hnew := hown _ (hperm.mem_iff.mpr List.mem_cons_self)
  have hold := hown x (hperm.mem_iff.mpr (List.mem_cons_of_mem _ hx))
  have hnd := (hperm.map Prod.fst).nodup_iff.mp h'.grouped.nodup
  rw [List.map_cons, List.nodup_cons] at hnd
  apply hnd.1
  rw [Option.some.inj (Option.some.inj (hnew.symm.trans hold))]
  exact mem_addrs hx

/-- `set` of a key that is not present when its node is put in, or whose node it evicts. -/
def SetFits (c : LFUCache) (k : Str) : Prop :=
  k ∈ c.kmap → c.kmap.keys.card = c.capacity ∧ c.victim.map (fun x => x.2.key) = some k

theorem set_own (hinc : rt.inc 0 = 1) (h : WellLinked c hd gs) (hown : Own c gs)
    (hcap : c.capacity ≠ 0) (hcard : c.kmap.keys.card ≤ c.capacity) (hfits : SetFits c k)
    (val : Str) :
    ∃ c' gs', c.set rt k val = some c' ∧ c'.capacity = c.capacity ∧ WellLinked c' hd gs' ∧
      Own c' gs' ∧ c'.kmap.keys.card ≤ c'.capacity := by
  rw [LFUCache.set, if_neg hcap]
  by_cases hfull : c.kmap.keys.card = c.capacity
  · obtain ⟨c₁, gs₁, g, R, xs, b, key, rfl, hnodes, hevict, hcap₁, hkmap₁, hperm₁, h₁⟩ :=
      evict_wellLinked h (h.grouped.groups_ne_nil hcap hfull)
    obtain ⟨hown₁, hcard₁⟩ := hown.evict h hperm₁ hkmap₁
    -- where the key has an entry it is the victim's, which has left
    have hk₁ : k ∉ c₁.kmap := by
      intro hk
      rw [hkmap₁] at hk
      obtain ⟨hne, hk⟩ := Finmap.mem_erase.mp hk
      have hvictim := (hfits hk).2
      rw [h.grouped.victim_eq hnodes] at hvictim
      exact hne (Option.some.inj hvictim).symm
    obtain ⟨c₂, gs₂, b₂, hinsert, hcap₂, hkmap₂, hperm₂, h₂⟩ :=
      insert_wellLinked rt hinc h₁ k val
    obtain ⟨hown₂, hcard₂⟩ := hown₁.insert hk₁ hperm₂ hkmap₂
    refine ⟨c₂, gs₂, ?_, hcap₂.trans hcap₁, h₂, hown₂, by omega⟩
    simp only [if_pos hfull, hevict, hinsert, Option.bind_eq_bind, Option.bind_some]
  · have hk : k ∉ c.kmap := fun hk => hfull (hfits hk).1
    obtain ⟨c₂, gs₂, b₂, hinsert, hcap₂, hkmap₂, hperm₂, h₂⟩ := insert_wellLinked rt hinc h k val
    obtain ⟨hown₂, hcard₂⟩ := hown.insert hk hperm₂ hkmap₂
    refine ⟨c₂, gs₂, ?_, hcap₂, h₂, hown₂, by omega⟩
    simp only [if_neg hfull, hinsert, Option.bind_eq_bind, Option.bind_some]

/-- `set` of a key that stays present leaves two nodes of the key. -/
theorem set_doubles (hinc : rt.inc 0 = 1) (h : WellLinked c hd gs) (hcap : c.capacity ≠ 0)
    (hfits : ¬ SetFits c k) (val : Str) :
    ∃ c' gs', c.set rt k val = some c' ∧ c'.capacity = c.capacity ∧ WellLinked c' hd gs' ∧
      ¬ Own c' gs' := by
  obtain ⟨hk, hnot⟩ := Classical.not_imp.mp hfits
  obtain ⟨p, hp⟩ := Finmap.mem_iff.mp hk
  obtain ⟨g₀, hg₀, x, hx₀, rfl, -⟩ := h.mapped k p hp
  have hx : x ∈ allNodes gs := mem_allNodes.mpr ⟨g₀, hg₀, hx₀⟩
  rw [LFUCache.set, if_neg hcap]
  by_cases hfull : c.kmap.keys.card = c.capacity
  · obtain ⟨c₁, gs₁, g, R, xs, b, key, rfl, hnodes, hevict, hcap₁, hkmap₁, hperm₁, h₁⟩ :=
      evict_wellLinked h (h.grouped.groups_ne_nil hcap hfull)
    have hx₁ : x ∈ allNodes gs₁ := by
      rcases List.mem_cons.mp (hperm₁.mem_iff.mp hx) with rfl | hx₁
      · -- it would be the victim
        rw [h.grouped.victim_eq hnodes] at hnot
        exact absurd ⟨hfull, rfl⟩ hnot
      · exact hx₁
    obtain ⟨c₂, gs₂, b₂, hinsert, hcap₂, -, hperm₂, h₂⟩ :=
      insert_wellLinked rt hinc h₁ x.2.key val
    refine ⟨c₂, gs₂, ?_, hcap₂.trans hcap₁, h₂, not_own_of_present h₂ hx₁ hperm₂⟩
    simp only [if_pos hfull, hevict, hinsert, Option.bind_eq_bind, Option.bind_some]
  · -- nothing leaves, so the old node stays
    obtain ⟨c₂, gs₂, b₂, hinsert, hcap₂, -, hperm₂, h₂⟩ :=
      insert_wellLinked rt hinc h x.2.key val
    refine ⟨c₂, gs₂, ?_, hcap₂, h₂, not_own_of_present h₂ hx hperm₂⟩
    simp only [if_neg hfull, hinsert, Option.bind_eq_bind, Option.bind_some]

end Own

/-! ## Runs

Between the `get` of a thread that misses and its `set` another thread may have set the same
key. -/

/-- The cache and, for each thread between its two calls, the key it missed. -/
structure Clients (T : Type*) where
  cache : LFUCache
  missed : T → Option Str

/-- A call of a thread, with the allocators behind `newElement` while it runs. -/
inductive ClientLabel (T : Type*) where
  | get (thread : T) (keys : Allocator Key) (freqs : Allocator KeyList) (key val : Str)
  | set (thread : T) (keys : Allocator Key) (freqs : Allocator KeyList) (val : Str)

namespace Clients

variable {T : Type*} [DecidableEq T]

def start (c : LFUCache) : Clients T where
  cache := c
  missed _ := none

def step (s : Clients T) : ClientLabel T → Option (Clients T)
  | .get thread keys freqs key val =>
    if s.missed thread = none then
      (s.cache.get { keys := keys, freqs := freqs, inc := (· + 1) } key val).map fun r =>
        let missed := if r.2.1 then s.missed else Function.update s.missed thread (some key)
        { cache := r.1, missed := missed }
    else none
  | .set thread keys freqs val =>
    match s.missed thread with
    | none => none
    | some key =>
      (s.cache.set { keys := keys, freqs := freqs, inc := (· + 1) } key val).map fun cache =>
        { cache := cache, missed := Function.update s.missed thread none }

/-- The thread's `set` finds the key as its `get` left it, or evicts it. -/
def SetsFit (s : Clients T) (l : ClientLabel T) : Prop :=
  ∀ thread keys freqs val key, l = .set thread keys freqs val → s.missed thread = some key →
    SetFits s.cache key

/-- The cache is well linked and has one node for each key. -/
def Shared (s : Clients T) : Prop :=
  ∃ hd gs, WellLinked s.cache hd gs ∧ Own s.cache gs ∧ s.cache.kmap.keys.card ≤ s.cache.capacity

section Runs

variable {s s' : Clients T} {l : ClientLabel T} {c₀ : LFUCache} {ls : List (ClientLabel T)}

omit [DecidableEq T] in
theorem Shared.oneNodePerKey (h : s.Shared) : OneNodePerKey s.cache := by
  obtain ⟨hd, gs, hlinked, hown, hcard⟩ := h
  exact hown.oneNodePerKey hlinked hcard

omit [DecidableEq T] in
theorem start_shared {rt : Runtime} {capacity : Nat} (hnew : LFUCache.new rt capacity = some c₀) :
    (start c₀ : Clients T).Shared := by
  obtain ⟨c, hd, hnew', -, hlinked⟩ := new_wellLinked rt capacity
  cases hnew.symm.trans hnew'
  refine ⟨hd, [], hlinked, ?_, ?_⟩
  · intro x hx
    cases hx
  · -- a key would have a node
    have hempty : c₀.kmap.keys = ∅ := by
      refine Finset.eq_empty_of_forall_notMem fun k hk => ?_
      obtain ⟨p, hp⟩ := Finmap.mem_iff.mp (Finmap.mem_keys.mp hk)
      obtain ⟨g, hg, -⟩ := hlinked.mapped k p hp
      cases hg
    show c₀.kmap.keys.card ≤ _
    rw [hempty]
    exact Nat.zero_le _

omit [DecidableEq T] in
theorem get_shared {rt : Runtime} (hinc : rt.inc = (· + 1)) {key val : Str}
    {r : LFUCache × Bool × Str} (h : s.Shared) (hget : s.cache.get rt key val = some r)
    (hcache : s'.cache = r.1) : s'.Shared := by
  obtain ⟨hd, gs, hlinked, hown, hcard⟩ := h
  unfold Shared
  rw [hcache]
  by_cases hcap : s.cache.capacity = 0
  · rw [LFUCache.get, if_pos hcap] at hget
    cases hget
    exact ⟨hd, gs, hlinked, hown, hcard⟩
  · by_cases hk : key ∈ s.cache.kmap
    · obtain ⟨c', v, gs', hget', hcap', hkmap, hperm, hlinked'⟩ :=
        get_wellLinked rt (fun _ f _ => congrFun hinc f) hlinked hcap hk val
      cases hget.symm.trans hget'
      -- a hit moves a node, and neither makes one nor touches `kmap_`
      refine ⟨hd, gs', hlinked', ?_, ?_⟩
      · intro x hx
        rw [hkmap]
        exact hown x (hperm.mem_iff.mp hx)
      · rw [hkmap, hcap']
        exact hcard
    · have hmiss : s.cache.fmap.lookup key = none :=
        Finmap.lookup_eq_none.mpr (hlinked.grouped.mem_fmap.not.mpr hk)
      cases hget.symm.trans (get_miss rt hmiss val)
      exact ⟨hd, gs, hlinked, hown, hcard⟩

/-- Without capacity no key has an entry. -/
theorem setFits_of_empty {c : LFUCache} {k : Str} (hcap : c.capacity = 0)
    (hcard : c.kmap.keys.card ≤ c.capacity) : SetFits c k := by
  intro hk
  have hpos := Finset.card_pos.mpr ⟨k, Finmap.mem_keys.mpr hk⟩
  omega

theorem step_shared (h : s.Shared) (hfit : s.SetsFit l) (hs : s.step l = some s') : s'.Shared := by
  cases l with
  | get thread keys freqs key val =>
    simp only [step] at hs
    split at hs
    · obtain ⟨r, hget, rfl⟩ := Option.map_eq_some_iff.mp hs
      exact get_shared rfl h hget rfl
    · cases hs
  | set thread keys freqs val =>
    simp only [step] at hs
    split at hs
    · cases hs
    · next key hmissed =>
      obtain ⟨c', hset, rfl⟩ := Option.map_eq_some_iff.mp hs
      obtain ⟨hd, gs, hlinked, hown, hcard⟩ := h
      by_cases hcap : s.cache.capacity = 0
      · -- `set` returns at once
        rw [LFUCache.set, if_pos hcap] at hset
        cases hset
        exact ⟨hd, gs, hlinked, hown, hcard⟩
      · -- the key has no node, or its node is the victim: no second one for it
        obtain ⟨c₁, gs', hset', hcap', hlinked', hown', hcard'⟩ :=
          set_own ⟨keys, freqs, (· + 1)⟩ rfl hlinked hown hcap hcard
            (hfit thread keys freqs val key rfl hmissed) val
        cases hset.symm.trans hset'
        exact ⟨hd, gs', hlinked', hown', hcard'⟩

theorem step_doubles (h : s.Shared) (hfit : ¬ s.SetsFit l) (hs : s.step l = some s') :
    ¬ OneNodePerKey s'.cache := by
  simp only [SetsFit, not_forall] at hfit
  obtain ⟨thread, keys, freqs, val, key, rfl, hmissed, hfits⟩ := hfit
  obtain ⟨hd, gs, hlinked, hown, hcard⟩ := h
  have hcap : s.cache.capacity ≠ 0 := fun hcap => hfits (setFits_of_empty hcap hcard)
  obtain ⟨c', gs', hset, -, hlinked', hnot⟩ :=
    set_doubles ⟨keys, freqs, (· + 1)⟩ rfl hlinked hcap hfits val
  simp only [step, hmissed, hset, Option.map_some, Option.some.injEq] at hs
  subst hs
  exact fun hone => hnot (hone.own_groups hlinked')

/-- **One node for each key.** For every capacity, any threads, keys and values and every run of
their calls: in all states of the run the nodes in the lists are the entries of `kmap_`, no more
than the capacity, and an eviction takes the node that its key is mapped to, if and only if
every `set` of the run finds its key without an entry, or on a full cache evicts the key's own
node. -/
theorem one_node_per_key_iff {rt : Runtime} {capacity : Nat}
    (hnew : LFUCache.new rt capacity = some c₀) (hrun : exec step (start c₀) ls = some s) :
    (∀ js, js <+: ls → ∀ t, exec step (start c₀) js = some t → OneNodePerKey t.cache) ↔
      Along step SetsFit (start c₀) ls := by
  exact always_iff_along (I := fun _ t => t.Shared) (start_shared hnew)
    (fun _ _ _ h => h.oneNodePerKey)
    (fun _ _ _ _ _ h hfit hs => step_shared h hfit hs)
    (fun _ _ _ _ _ h hfit hs => step_doubles h hfit hs) hrun

end Runs

/-! ## Two threads

Each request is a `get`, and a `set` behind a miss. In turn the second request hits; where both
miss first, the key has two nodes. -/

def getOf (thread : Nat) (key : Str) : ClientLabel Nat :=
  .get thread behind.keys behind.freqs key []

def setOf (thread : Nat) (val : Str) : ClientLabel Nat :=
  .set thread behind.keys behind.freqs val

/-- One thread after the other requests the same key. -/
def inTurn : List (ClientLabel Nat) := [getOf 0 [97], setOf 0 [1], getOf 1 [97]]

theorem one_node_per_key_iff_in_turn :
    ∃ c₀ s, LFUCache.new behind 2 = some c₀ ∧ exec step (start c₀) inTurn = some s ∧
      ((∀ js, js <+: inTurn → ∀ t, exec step (start c₀) js = some t → OneNodePerKey t.cache) ↔
        Along step SetsFit (start c₀) inTurn) :=
  ⟨_, _, rfl, rfl, one_node_per_key_iff (show LFUCache.new behind 2 = _ from rfl)
    (show exec step _ inTurn = _ from rfl)⟩

/-- Both threads miss the key before one of them sets it; then one more key fills the cache. -/
def missedTwice : List (ClientLabel Nat) :=
  [getOf 0 [97], getOf 1 [97], setOf 0 [1], setOf 1 [2], getOf 0 [98], setOf 0 [3]]

/-- The cache is full, and the node it would evict is not the one of its key. -/
theorem missed_twice :
    ∃ c₀ s, LFUCache.new behind 2 = some c₀ ∧ exec step (start c₀) missedTwice = some s ∧
      s.cache.victim = some (2, ⟨[97], [1]⟩) ∧ s.cache.kmap.lookup [97] = some (some 4) ∧
      ¬ OneNodePerKey s.cache := by
  refine ⟨_, _, rfl, rfl, by decide, by decide, ?_⟩
  intro h
  have hvictim := h.victim (by decide) (2, ⟨[97], [1]⟩) (by decide)
  revert hvictim
  decide

end Clients

end HttpWebserver.Lfu
