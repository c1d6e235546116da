import HttpWebserver.LFUCache.Refinement

/-!
# LFUCache — the pointers under any calls

`get` and `set` with any keys, so also `set` of a key that is present: its old node stays in its
list, and only the maps forget it.

* `Grouped`: what holds of the lists and of the maps then, for any labels, and `WellLinked` for
  increasing ones;
* `get_grouped`, `evict_grouped`, `insert_grouped`: what the operations do to the groups, whatever
  the increment of the labels is;
* `get_wellLinked`, `evict_wellLinked`, `insert_wellLinked`: they keep increasing labels;
* `destroy_spec`: the destructor frees what is left;
* **`stays_linked`** — from a new cache, after any calls.
-/

namespace HttpWebserver.Lfu

open LinkedHeap Machine

/-- The nodes of all lists. -/
def allNodes (gs : List Group) : List (Nat × Key) := gs.flatMap Group.nodes

@[simp] theorem allNodes_append (gs gs' : List Group) :
    allNodes (gs ++ gs') = allNodes gs ++ allNodes gs' := List.flatMap_append

@[simp] theorem allNodes_cons (g : Group) (gs : List Group) :
    allNodes (g :: gs) = g.nodes ++ allNodes gs := rfl

@[simp] theorem allNodes_nil : allNodes [] = [] := rfl

@[simp] theorem allNodes_remaining (g : Group) (nodes : List (Nat × Key)) :
    allNodes (remaining g nodes) = nodes := by
  unfold remaining
  split
  · next hnil => rw [hnil, allNodes_nil]
  · simp

/-- The groups behind the head `hd`, with the maps, whatever the labels of the groups are. -/
structure Grouped (c : LFUCache) (hd : Group) (gs : List Group) : Prop where
  layout : Layout c (hd :: gs) []
  headNodes : hd.nodes = []
  nonempty : ∀ g ∈ gs, g.nodes ≠ []
  mapKeys : c.kmap.keys = c.fmap.keys
  mapped : ∀ k p, c.kmap.lookup k = some p → ∃ g ∈ gs, ∃ x ∈ g.nodes,
    x.2.key = k ∧ p = some x.1 ∧ c.fmap.lookup k = some (some g.addr)

/-- The groups behind the head `hd`, with the maps. -/
structure WellLinked (c : LFUCache) (hd : Group) (gs : List Group) : Prop where
  layout : Layout c (hd :: gs) []
  headFreq : hd.freq = 0
  headNodes : hd.nodes = []
  nonempty : ∀ g ∈ gs, g.nodes ≠ []
  ascending : ((hd :: gs).map Group.freq).Pairwise (· < ·)
  mapKeys : c.kmap.keys = c.fmap.keys
  mapped : ∀ k p, c.kmap.lookup k = some p → ∃ g ∈ gs, ∃ x ∈ g.nodes,
    x.2.key = k ∧ p = some x.1 ∧ c.fmap.lookup k = some (some g.addr)

/-- The value and the frequency that the maps lead to for a key. -/
def LFUCache.entry (c : LFUCache) (key : Str) : Option (Str × Int) := do
  let nowk ← c.kmap.lookup key
  let nowf ← c.fmap.lookup key
  let k ← load c.keyHeap nowk
  let f ← load c.freqHeap nowf
  some (k.value.value, f.value.freq)

/-- The nodes of the next group and of those behind it are the nodes that were there. -/
theorem Behind.allNodes_eq {inc : Int → Int} {R R' : List Group} {g n : Group}
    (hbehind : Behind inc g R n R') : n.nodes ++ allNodes R' = allNodes R := by
  rcases hbehind.2 with rfl | ⟨rfl, hnil, -⟩
  · rfl
  · rw [hnil, List.nil_append]

theorem Behind.succ {inc : Int → Int} {R R' : List Group} {g n : Group}
    (hbehind : Behind inc g R n R') (hinc : inc g.freq = g.freq + 1) :
    Behind (· + 1) g R n R' := by
  unfold Behind at hbehind ⊢
  rw [hinc] at hbehind
  exact hbehind

/-! ## The groups and the maps

Both maps have the same keys, and for each of them they lead to one node and the group it is in. A
node may be in a group without being the one of its key. -/

section Groups

variable {c c' : LFUCache} {hd g : Group} {gs gs' : List Group} {key : Str}

theorem WellLinked.grouped (h : WellLinked c hd gs) : Grouped c hd gs :=
  ⟨h.layout, h.headNodes, h.nonempty, h.mapKeys, h.mapped⟩

theorem Grouped.wellLinked (h : Grouped c hd gs) (hfreq : hd.freq = 0)
    (hasc : ((hd :: gs).map Group.freq).Pairwise (· < ·)) : WellLinked c hd gs :=
  ⟨h.layout, hfreq, h.headNodes, h.nonempty, hasc, h.mapKeys, h.mapped⟩

theorem Grouped.mem_fmap (h : Grouped c hd gs) : key ∈ c.fmap ↔ key ∈ c.kmap := by
  rw [← Finmap.mem_keys, ← h.mapKeys, Finmap.mem_keys]

/-- A mapped key, with its node and the group it is in. -/
theorem Grouped.find (h : Grouped c hd gs) (hk : key ∈ c.kmap) :
    ∃ (L : List Group) (g : Group) (R : List Group) (xs : List (Nat × Key)) (b : Nat) (v : Str)
      (ys : List (Nat × Key)), gs = L ++ g :: R ∧ g.nodes = xs ++ (b, ⟨key, v⟩) :: ys ∧
        c.kmap.lookup key = some (some b) ∧ c.fmap.lookup key = some (some g.addr) := by
  obtain ⟨p, hp⟩ := Finmap.mem_iff.mp hk
  obtain ⟨g, hg, ⟨b, k, v⟩, hx, rfl, rfl, hfmap⟩ := h.mapped key p hp
  obtain ⟨L, R, rfl⟩ := List.append_of_mem hg
  obtain ⟨xs, ys, hnodes⟩ := List.append_of_mem hx
  exact ⟨L, g, R, xs, b, v, ys, rfl, hnodes, hp, hfmap⟩

theorem mem_allNodes {x : Nat × Key} : x ∈ allNodes gs ↔ ∃ g ∈ gs, x ∈ g.nodes := List.mem_flatMap

theorem Grouped.lookup_group (h : Grouped c hd gs) (hg : g ∈ hd :: gs) :
    ∃ pre next, c.freqHeap.lookup g.addr = some ⟨g.list, pre, next⟩ := by
  obtain ⟨L, R, hsplit⟩ := List.append_of_mem hg
  have hlay := h.layout
  rw [hsplit] at hlay
  exact ⟨_, _, hlay.lookup_freq⟩

theorem Grouped.lookup_node {x : Nat × Key} (h : Grouped c hd gs) (hx : x ∈ allNodes gs) :
    ∃ n, c.keyHeap.lookup x.1 = some n ∧ n.value = x.2 := by
  obtain ⟨g, hg, hx⟩ := mem_allNodes.mp hx
  obtain ⟨L, R, hsplit⟩ := List.append_of_mem (List.mem_cons_of_mem hd hg)
  have hlay := h.layout
  rw [hsplit] at hlay
  exact hlay.lookup_key (b := x.1) (k := x.2) hx

/-- The entry of a key is its node's value and the label of the node's group. -/
theorem Grouped.entry_eq {x : Nat × Key} (h : Grouped c hd gs) (hg : g ∈ gs) (hx : x ∈ g.nodes)
    (hkmap : c.kmap.lookup key = some (some x.1))
    (hfmap : c.fmap.lookup key = some (some g.addr)) :
    c.entry key = some (x.2.value, g.freq) := by
  obtain ⟨pre, next, hgroup⟩ := h.lookup_group (List.mem_cons_of_mem hd hg)
  obtain ⟨n, hn, hvalue⟩ := h.lookup_node (mem_allNodes.mpr ⟨g, hg, hx⟩)
  simp only [LFUCache.entry, hkmap, hfmap, load_some, hn, hgroup, hvalue, Option.bind_eq_bind,
    Option.bind_some]
  rfl

/-- A key that is mapped keeps its entries when another key's node moves. -/
theorem mapped_other {b : Nat} {k : Key} (h : Grouped c hd gs)
    (hmoved : ∀ g ∈ gs, ∀ x ∈ g.nodes, x ≠ (b, k) →
      ∃ g' ∈ gs', (g'.addr = g.addr ∧ g'.freq = g.freq) ∧ x ∈ g'.nodes)
    {p : Option Nat} (hne : key ≠ k.key) (hp : c.kmap.lookup key = some p)
    (hfmap : c'.fmap.lookup key = c.fmap.lookup key) :
    ∃ g ∈ gs', ∃ x ∈ g.nodes, x.2.key = key ∧ p = some x.1 ∧
      c'.fmap.lookup key = some (some g.addr) := by
  obtain ⟨g, hg, x, hx, hxk, hxp, hxf⟩ := h.mapped key p hp
  obtain ⟨g', hg', ⟨haddr, -⟩, hx'⟩ := hmoved g hg x hx fun heq => by
    rw [heq] at hxk
    exact hne hxk.symm
  refine ⟨g', hg', x, hx', hxk, hxp, ?_⟩
  rw [hfmap, haddr]
  exact hxf

/-- And so it keeps its value and its frequency. -/
theorem entry_other {b : Nat} {k : Key} (h : Grouped c hd gs) (h' : Grouped c' hd gs')
    (hmoved : ∀ g ∈ gs, ∀ x ∈ g.nodes, x ≠ (b, k) →
      ∃ g' ∈ gs', (g'.addr = g.addr ∧ g'.freq = g.freq) ∧ x ∈ g'.nodes)
    (hne : key ≠ k.key) (hk : key ∈ c.kmap)
    (hkmap : c'.kmap.lookup key = c.kmap.lookup key)
    (hfmap : c'.fmap.lookup key = c.fmap.lookup key) : c'.entry key = c.entry key := by
  obtain ⟨p, hp⟩ := Finmap.mem_iff.mp hk
  obtain ⟨g, hg, x, hx, hxk, rfl, hxf⟩ := h.mapped key p hp
  obtain ⟨g', hg', ⟨haddr, hfreq⟩, hx'⟩ := hmoved g hg x hx fun heq => by
    rw [heq] at hxk
    exact hne hxk.symm
  rw [h.entry_eq hg hx hp hxf, ← hfreq]
  exact h'.entry_eq hg' hx' (hkmap.trans hp) (by rw [hfmap, hxf, haddr])

theorem Grouped.last_node (h : Grouped c hd gs) (hg : g ∈ gs) :
    ∃ xs b k, g.nodes = xs ++ [(b, k)] :=
  ⟨_, _, _, (List.dropLast_append_getLast (h.nonempty g hg)).symm⟩

/-- A full cache has a group behind the head. -/
theorem Grouped.groups_ne_nil (h : Grouped c hd gs) (hcap : c.capacity ≠ 0)
    (hfull : c.kmap.keys.card = c.capacity) : gs ≠ [] := by
  obtain ⟨k, hk⟩ := Finset.card_pos.mp (by omega : 0 < c.kmap.keys.card)
  obtain ⟨p, hp⟩ := Finmap.mem_iff.mp (Finmap.mem_keys.mp hk)
  obtain ⟨g, hg, -⟩ := h.mapped k p hp
  exact List.ne_nil_of_mem hg

end Groups

/-! ## The operations

Each keeps the groups, and says what became of the node it is about and of the entries of all
keys. The increment of the labels is a parameter here. -/

section Operations

variable (rt : Runtime) {c c' : LFUCache} {hd g n : Group} {L R R' gs : List Group} {key : Str}

/-- A hit: the key's node goes from its group `g` to the next one. -/
theorem get_grouped (h : Grouped c hd gs) (hcap : c.capacity ≠ 0) (hk : key ∈ c.kmap)
    (val : Str) :
    ∃ c' v L g R n R' nodes nodes', gs = L ++ g :: R ∧ Behind rt.inc g R n R' ∧
      c.get rt key val = some (c', true, val ++ v) ∧ c'.capacity = c.capacity ∧
      c'.kmap = c.kmap ∧ c.entry key = some (v, g.freq) ∧ c'.entry key = some (v, n.freq) ∧
      (∀ k' ≠ key, k' ∈ c.kmap → c'.entry k' = c.entry k') ∧
      (allNodes (L ++ remaining g nodes ++ { n with nodes := nodes' } :: R')).Perm (allNodes gs) ∧
      Grouped c' hd (L ++ remaining g nodes ++ { n with nodes := nodes' } :: R') := by
  obtain ⟨L, g, R, xs, b, v, ys, rfl, hnodes, hkmap, hfmap⟩ := h.find hk
  obtain ⟨n, R', kh, fh, hbehind, hget, hlay⟩ :=
    get_hit rt (L := hd :: L) h.layout (by simp) hnodes hcap hkmap hfmap val
  -- the other nodes stay on the lists they are on
  have hmoved := fun g' (hg' : g' ∈ L ++ g :: R) x hx hne =>
    mem_moved (x := x) hbehind hnodes hg' hx hne
  have hnew : { n with nodes := (b, ⟨key, v⟩) :: n.nodes } ∈
      L ++ remaining g (xs ++ ys) ++ { n with nodes := (b, ⟨key, v⟩) :: n.nodes } :: R' :=
    List.mem_append_right _ List.mem_cons_self
  have hgrouped : Grouped { c with fmap := c.fmap.insert key (some n.addr), keyHeap := kh
                                   freqHeap := fh } hd
      (L ++ remaining g (xs ++ ys) ++ { n with nodes := (b, ⟨key, v⟩) :: n.nodes } :: R') := by
    refine ⟨hlay, h.headNodes, fun g' hg' => ?_, ?_, fun k' p hp => ?_⟩
    · -- the group that the node left stays only with another node
      rcases List.mem_append.mp hg' with hg' | hg'
      · rcases List.mem_append.mp hg' with hL | hg'
        · exact h.nonempty g' (List.mem_append_left _ hL)
        · obtain ⟨rfl, hne⟩ := mem_remaining hg'
          exact hne
      · rcases List.mem_cons.mp hg' with rfl | hR
        · exact List.cons_ne_nil _ _
        · exact h.nonempty g' (List.mem_append_right _ (List.mem_cons_of_mem _ (hbehind.subset hR)))
    · -- both maps have the keys they had
      show c.kmap.keys = (c.fmap.insert key _).keys
      rw [h.mapKeys]
      ext k'
      simp only [Finmap.mem_keys, Finmap.mem_insert]
      refine ⟨Or.inr, fun hmem => hmem.elim (fun heq => ?_) id⟩
      rw [heq, h.mem_fmap]
      exact hk
    · -- `key` leads to its new place, every other key where it led
      rcases eq_or_ne k' key with rfl | hne
      · cases hkmap.symm.trans hp
        exact ⟨_, hnew, _, List.mem_cons_self, rfl, rfl, Finmap.lookup_insert _⟩
      · exact mapped_other h hmoved hne hp (Finmap.lookup_insert_of_ne _ hne)
  refine ⟨_, v, L, g, R, n, R', xs ++ ys, (b, ⟨key, v⟩) :: n.nodes, rfl, hbehind, hget, rfl, rfl,
    ?_, ?_, fun k' hne hk' => ?_, ?_, hgrouped⟩
  · -- the value and the label before and after
    exact h.entry_eq (x := (b, ⟨key, v⟩)) (List.mem_append_right _ List.mem_cons_self)
      (by rw [hnodes]; simp) hkmap hfmap
  · exact hgrouped.entry_eq (g := { n with nodes := (b, ⟨key, v⟩) :: n.nodes })
      (x := (b, ⟨key, v⟩)) hnew List.mem_cons_self hkmap (Finmap.lookup_insert _)
  · exact entry_other h hgrouped hmoved hne hk' rfl (Finmap.lookup_insert_of_ne _ hne)
  · -- the node is the first one of the next group now
    simp only [allNodes_append, allNodes_remaining, allNodes_cons, hnodes, List.append_assoc,
      List.cons_append]
    rw [← hbehind.allNodes_eq]
    refine List.Perm.append_left _ (List.Perm.append_left xs ?_)
    exact List.perm_middle

/-- The eviction finds a last node in the first list. -/
theorem evict_grouped (h : Grouped c hd gs) (hne : gs ≠ []) :
    ∃ c' g R xs b k, gs = g :: R ∧ g.nodes = xs ++ [(b, k)] ∧ c.evict = some c' ∧
      c'.capacity = c.capacity ∧ c'.kmap = c.kmap.erase k.key ∧
      (∀ k' ≠ k.key, k' ∈ c.kmap → c'.entry k' = c.entry k') ∧
      (allNodes gs).Perm ((b, k) :: allNodes (remaining g xs ++ R)) ∧
      Grouped c' hd (remaining g xs ++ R) := by
  obtain ⟨g, R, rfl⟩ := List.exists_cons_of_ne_nil hne
  obtain ⟨xs, b, k, hnodes⟩ := h.last_node List.mem_cons_self
  obtain ⟨kh, fh, hevict, hlay⟩ := evict_spec h.layout hnodes
  have hmoved := fun g' (hg' : g' ∈ g :: R) x hx hne =>
    mem_evicted (x := x) hnodes hg' hx hne
  have hgrouped : Grouped { c with kmap := c.kmap.erase k.key, fmap := c.fmap.erase k.key
                                   keyHeap := kh, freqHeap := fh } hd (remaining g xs ++ R) := by
    refine ⟨hlay, h.headNodes, fun g' hg' => ?_, ?_, fun k' p hp => ?_⟩
    · rcases List.mem_append.mp hg' with hg' | hR
      · obtain ⟨rfl, hne⟩ := mem_remaining hg'
        exact hne
      · exact h.nonempty g' (List.mem_cons_of_mem _ hR)
    · show (c.kmap.erase k.key).keys = (c.fmap.erase k.key).keys
      rw [Finmap.keys_erase, Finmap.keys_erase, h.mapKeys]
    · -- the victim's key has no entry any more, also where another node has the key
      have hne' : k' ≠ k.key := by
        rintro rfl
        rw [Finmap.lookup_erase] at hp
        cases hp
      rw [Finmap.lookup_erase_ne hne'] at hp
      exact mapped_other h hmoved hne' hp (Finmap.lookup_erase_ne hne')
  refine ⟨_, g, R, xs, b, k, rfl, hnodes, hevict, rfl, rfl, fun k' hne' hk' => ?_, ?_, hgrouped⟩
  · exact entry_other h hgrouped hmoved hne' hk' (Finmap.lookup_erase_ne hne')
      (Finmap.lookup_erase_ne hne')
  · -- the victim was the last node of the first group
    simp only [allNodes_append, allNodes_remaining, allNodes_cons, hnodes, List.append_assoc,
      List.cons_append, List.nil_append]
    exact List.perm_middle

/-- The insertion of a key, present or not. -/
theorem insert_grouped (h : Grouped c hd gs) (key val : Str) :
    ∃ c' n R' nodes b, Behind rt.inc hd gs n R' ∧ c.insert rt key val = some c' ∧
      c'.capacity = c.capacity ∧ c'.kmap = c.kmap.insert key (some b) ∧
      c'.entry key = some (val, n.freq) ∧
      (∀ k' ≠ key, k' ∈ c.kmap → c'.entry k' = c.entry k') ∧
      (allNodes ({ n with nodes := nodes } :: R')).Perm ((b, ⟨key, val⟩) :: allNodes gs) ∧
      Grouped c' hd ({ n with nodes := nodes } :: R') := by
  obtain ⟨n, R', b, kh, fh, hbehind, hinsert, hlay⟩ := insert_spec rt h.layout key val
  have hmoved := fun g' (hg' : g' ∈ gs) x (hx : x ∈ g'.nodes) (_ : x ≠ (b, ⟨key, val⟩)) =>
    mem_entered (b := b) (k := ⟨key, val⟩) hbehind hg' hx
  have hgrouped : Grouped { c with kmap := c.kmap.insert key (some b)
                                   fmap := c.fmap.insert key (some n.addr)
                                   keyHeap := kh, freqHeap := fh } hd
      ({ n with nodes := (b, ⟨key, val⟩) :: n.nodes } :: R') := by
    refine ⟨hlay, h.headNodes, fun g hg => ?_, ?_, fun k' p hp => ?_⟩
    · -- the group with the new node has one, the others keep theirs
      rcases List.mem_cons.mp hg with rfl | hR
      · exact List.cons_ne_nil _ _
      · exact h.nonempty g (hbehind.subset hR)
    · show (c.kmap.insert key _).keys = (c.fmap.insert key _).keys
      ext k'
      simp only [Finmap.mem_keys, Finmap.mem_insert, h.mem_fmap]
    · -- `key` leads to the new node, also where another node has this key already
      rcases eq_or_ne k' key with rfl | hne
      · cases (Finmap.lookup_insert _).symm.trans hp
        exact ⟨_, List.mem_cons_self, _, List.mem_cons_self, rfl, rfl, Finmap.lookup_insert _⟩
      · exact mapped_other h hmoved hne ((Finmap.lookup_insert_of_ne _ hne).symm.trans hp)
          (Finmap.lookup_insert_of_ne _ hne)
  refine ⟨_, n, R', (b, ⟨key, val⟩) :: n.nodes, b, hbehind, hinsert, rfl, rfl, ?_,
    fun k' hne hk' => ?_, ?_, hgrouped⟩
  · exact hgrouped.entry_eq (g := { n with nodes := (b, ⟨key, val⟩) :: n.nodes })
      (x := (b, ⟨key, val⟩)) List.mem_cons_self List.mem_cons_self (Finmap.lookup_insert _)
      (Finmap.lookup_insert _)
  · exact entry_other h hgrouped hmoved hne hk' (Finmap.lookup_insert_of_ne _ hne)
      (Finmap.lookup_insert_of_ne _ hne)
  · simp only [allNodes_cons, List.cons_append]
    rw [hbehind.allNodes_eq]

/-! ### The labels

With an increment by one the labels stay ascending, from the group behind the head on. -/

/-- A node that goes to the next label keeps the labels ascending. -/
theorem WellLinked.moved {nodes nodes' : List (Nat × Key)} (h : WellLinked c hd (L ++ g :: R))
    (hbehind : Behind (· + 1) g R n R')
    (h' : Grouped c' hd (L ++ remaining g nodes ++ { n with nodes := nodes' } :: R')) :
    WellLinked c' hd (L ++ remaining g nodes ++ { n with nodes := nodes' } :: R') := by
  refine h'.wellLinked h.headFreq ?_
  refine (ascending_behind (L := hd :: L) h.ascending hbehind).sublist ?_
  simp only [List.map_append, List.map_cons, List.append_assoc, List.cons_append]
  exact ((List.Sublist.refl _).append
    ((remaining_sublist g _).append (List.Sublist.refl _))).cons_cons _

theorem WellLinked.evicted {nodes : List (Nat × Key)} (h : WellLinked c hd (g :: R))
    (h' : Grouped c' hd (remaining g nodes ++ R)) : WellLinked c' hd (remaining g nodes ++ R) := by
  refine h'.wellLinked h.headFreq (h.ascending.sublist ?_)
  simp only [List.map_append, List.map_cons]
  exact ((remaining_sublist g nodes).append (List.Sublist.refl _)).cons_cons _

theorem WellLinked.entered {nodes : List (Nat × Key)} (h : WellLinked c hd gs)
    (hbehind : Behind (· + 1) hd gs n R') (h' : Grouped c' hd ({ n with nodes := nodes } :: R')) :
    WellLinked c' hd ({ n with nodes := nodes } :: R') := by
  refine h'.wellLinked h.headFreq ?_
  show ((hd :: n :: R').map Group.freq).Pairwise (· < ·)
  exact ascending_behind (L := []) h.ascending hbehind

theorem get_wellLinked (hinc : ∀ v f, c.entry key = some (v, f) → rt.inc f = f + 1)
    (h : WellLinked c hd gs) (hcap : c.capacity ≠ 0) (hk : key ∈ c.kmap) (val : Str) :
    ∃ c' v gs', c.get rt key val = some (c', true, val ++ v) ∧ c'.capacity = c.capacity ∧
      c'.kmap = c.kmap ∧ (allNodes gs').Perm (allNodes gs) ∧ WellLinked c' hd gs' := by
  obtain ⟨c', v, L, g, R, n, R', nodes, nodes', rfl, hbehind, hget, hcap', hkmap, hentry, -, -,
    hperm, h'⟩ := get_grouped rt h.grouped hcap hk val
  exact ⟨c', v, _, hget, hcap', hkmap, hperm, h.moved (hbehind.succ (hinc v g.freq hentry)) h'⟩

theorem evict_wellLinked (h : WellLinked c hd gs) (hne : gs ≠ []) :
    ∃ c' gs' g R xs b k, gs = g :: R ∧ g.nodes = xs ++ [(b, k)] ∧ c.evict = some c' ∧
      c'.capacity = c.capacity ∧ c'.kmap = c.kmap.erase k.key ∧
      (allNodes gs).Perm ((b, k) :: allNodes gs') ∧ WellLinked c' hd gs' := by
  obtain ⟨c', g, R, xs, b, k, rfl, hnodes, hevict, hcap', hkmap, -, hperm, h'⟩ :=
    evict_grouped h.grouped hne
  exact ⟨c', _, g, R, xs, b, k, rfl, hnodes, hevict, hcap', hkmap, hperm, h.evicted h'⟩

theorem insert_wellLinked (hinc : rt.inc 0 = 1) (h : WellLinked c hd gs) (key val : Str) :
    ∃ c' gs' b, c.insert rt key val = some c' ∧ c'.capacity = c.capacity ∧
      c'.kmap = c.kmap.insert key (some b) ∧
      (allNodes gs').Perm ((b, ⟨key, val⟩) :: allNodes gs) ∧ WellLinked c' hd gs' := by
  obtain ⟨c', n, R', nodes, b, hbehind, hinsert, hcap', hkmap, -, -, hperm, h'⟩ :=
    insert_grouped rt h.grouped key val
  have hone : rt.inc hd.freq = hd.freq + 1 := by
    rw [h.headFreq]
    exact hinc
  exact ⟨c', _, b, hinsert, hcap', hkmap, hperm, h.entered (hbehind.succ hone) h'⟩

end Operations

/-! ## The destructor

Each round frees the group at the front, with its list. The maps are not looked at. -/

/-- What the destructor has still to free; the group that pointed to the first one is gone. -/
structure Leftover (c : LFUCache) (p : Option Nat) (gs : List Group) : Prop where
  head : c.dummyHead = firstPtr none (entries gs)
  chain : Linked c.freqHeap p (entries gs) none
  lists : ∀ g ∈ gs, Linked c.keyHeap none g.cells none
  freqNodup : (addrs (entries gs)).Nodup
  keyNodup : (keyAddrs gs).Nodup
  freqOnly : ∀ a ∈ c.freqHeap, a ∈ addrs (entries gs)
  keyOnly : ∀ a ∈ c.keyHeap, a ∈ keyAddrs gs

section Destructor

variable {c : LFUCache} {p : Option Nat} {g : Group} {gs : List Group}

theorem heap_eq_empty {α : Type*} {h : Heap α} (hnone : ∀ a, a ∉ h) : h = ∅ := by
  refine Finmap.ext_lookup fun a => ?_
  rw [Finmap.lookup_eq_none.mpr (hnone a), Finmap.lookup_empty]

theorem Layout.leftover (h : Layout c gs []) : Leftover c none gs := by
  have hnd := h.keyNodup
  rw [addrs_nil, List.append_nil] at hnd
  refine ⟨h.head, h.chain, h.lists, h.freqNodup, hnd, h.freqOnly, fun a ha => ?_⟩
  have hin := h.keyOnly a ha
  rw [addrs_nil, List.append_nil] at hin
  exact hin

/-- One round frees a group with its nodes. -/
theorem destroy_round (h : Leftover c p (g :: gs)) (fuel : Nat) :
    ∃ c', c.destroyLoop (fuel + 1) = c'.destroyLoop fuel ∧ Leftover c' (some g.addr) gs := by
  obtain ⟨hg, hchain⟩ := h.chain
  have hfnd := List.nodup_cons.mp h.freqNodup
  have hknd := List.nodup_append.mp h.keyNodup
  -- the inner list is destroyed first: exactly its cells are freed
  obtain ⟨keyHeap, hdestroy, hlook⟩ : ∃ keyHeap, g.list.destroy c.keyHeap
        = some (KeyList.mk g.freq none (lastPtr none g.cells), keyHeap) ∧
      ∀ a, keyHeap.lookup a = if a ∈ addrs g.cells then none else c.keyHeap.lookup a :=
    KeyList.destroy_spec (h.lists g List.mem_cons_self) hknd.1
  obtain ⟨f, hf, hgf, hframe⟩ := update_spec hg fun n =>
    { n with value := KeyList.mk g.freq none (lastPtr none g.cells) }
  refine ⟨{ c with dummyHead := firstPtr none (entries gs), keyHeap := keyHeap,
                   freqHeap := f.erase g.addr }, ?_, rfl, ?_, fun g' hg' => ?_, hfnd.2, hknd.2.1,
    fun a ha => ?_, fun a ha => ?_⟩
  · have hhead : c.dummyHead = some g.addr := h.head
    have hload : load c.freqHeap (some g.addr) = some ⟨g.list, p, firstPtr none (entries gs)⟩ := hg
    simp only [LFUCache.destroyLoop, LFUCache.onList, hhead, hload, hdestroy, setValue, hf, free,
      Option.bind_eq_bind, Option.bind_some, if_pos (mem_of_lookup hgf)]
  · -- only the freed node was written to, and it is not in the rest of the chain
    refine (hchain.frame hframe fun a ha hag => ?_).erase_other hfnd.1
    rw [List.mem_singleton.mp hag] at ha
    exact hfnd.1 ha
  · -- the inner lists of the other groups have no cell in common with it
    refine (h.lists g' (List.mem_cons_of_mem _ hg')).congr fun a ha => ?_
    have hnot : a ∉ addrs g.cells := fun hmem =>
      hknd.2.2 a hmem a (addrs_cells_subset hg' ha) rfl
    exact (hlook a).trans (if_neg hnot)
  · -- what is still allocated is in the rest of the chain
    obtain ⟨hne, ha⟩ := Finmap.mem_erase.mp ha
    have hin : a ∈ c.freqHeap := by
      rw [← Finmap.mem_keys, ← hframe.keys, Finmap.mem_keys]
      exact ha
    exact (List.mem_cons.mp (h.freqOnly a hin)).resolve_left hne
  · have hlk := hlook a
    rw [← Finmap.lookup_isSome, hlk] at ha
    split at ha
    · cases ha
    · next hnot =>
      have hin := h.keyOnly a (Finmap.lookup_isSome.mp ha)
      exact (List.mem_append.mp hin).resolve_left hnot

theorem destroyLoop_spec (h : Leftover c p gs) {fuel : Nat} (hfuel : gs.length < fuel) :
    ∃ c', c.destroyLoop fuel = some c' ∧ c'.keyHeap = ∅ ∧ c'.freqHeap = ∅ := by
  induction gs generalizing c p fuel with
  | nil =>
    obtain ⟨fuel, rfl⟩ : ∃ m, fuel = m + 1 := ⟨fuel - 1, by omega⟩
    refine ⟨c, ?_, heap_eq_empty fun a ha => ?_, heap_eq_empty fun a ha => ?_⟩
    · have hhead : c.dummyHead = none := h.head
      simp only [LFUCache.destroyLoop, hhead]
    · cases h.keyOnly a ha
    · cases h.freqOnly a ha
  | cons g gs ih =>
    obtain ⟨fuel, rfl⟩ : ∃ m, fuel = m + 1 := ⟨fuel - 1, by omega⟩
    obtain ⟨c', hround, hleft⟩ := destroy_round h fuel
    rw [hround]
    exact ih hleft (by simpa using hfuel)

/-- The destructor ends with no node left, and frees none twice. -/
theorem destroy_spec (h : Layout c gs []) :
    ∃ c', c.destroy = some c' ∧ c'.keyHeap = ∅ ∧ c'.freqHeap = ∅ := by
  apply destroyLoop_spec h.leftover
  have hle := h.chain.length_le h.freqNodup
  rw [entries, List.length_map] at hle
  omega

end Destructor

/-! ## Runs

What the lemmas on groups say is translated to reachability through the pointers, which does not
mention any group. -/

/-- A call of a client, with the allocators behind `newElement` while it runs. -/
inductive Op where
  | get (key val : Str)
  | set (key val : Str)

structure Call where
  keys : Allocator Key
  freqs : Allocator KeyList
  op : Op

def call (inc : Int → Int) (c : LFUCache) (r : Call) : Option LFUCache :=
  let rt : Runtime := { keys := r.keys, freqs := r.freqs, inc := inc }
  match r.op with
  | .get key val => (c.get rt key val).map Prod.fst
  | .set key val => c.set rt key val

/-- The allocated nodes are those to which the head leads, and the maps lead to some of them. -/
structure OnlyReachable (c : LFUCache) : Prop where
  freqs : ∀ a, a ∈ c.freqHeap ↔ Reach c.freqHeap c.dummyHead a
  keys : ∀ b, b ∈ c.keyHeap ↔ ∃ a n, Reach c.freqHeap c.dummyHead a ∧
    c.freqHeap.lookup a = some n ∧ Reach c.keyHeap n.value.dummyHead b
  kmap : ∀ k p, c.kmap.lookup k = some p → ∃ b n, p = some b ∧
    c.keyHeap.lookup b = some n ∧ n.value.key = k
  fmap : ∀ k p, c.fmap.lookup k = some p → ∃ a, p = some a ∧ a ∈ c.freqHeap

/-- A full cache has a victim: the node that is the last of the first list, behind its dummy. -/
def HasVictim (c : LFUCache) : Prop :=
  c.kmap.keys.card = c.capacity → ∃ d a f b n, load c.freqHeap c.dummyHead = some d ∧
    d.next = some a ∧ c.freqHeap.lookup a = some f ∧ f.value.getLast = some b ∧
    f.value.dummyHead ≠ some b ∧ c.keyHeap.lookup b = some n

section Runs

variable (rt : Runtime) {c : LFUCache} {hd : Group} {gs : List Group}

theorem Layout.mem_freqHeap_iff {loose : List (Nat × Key)} (h : Layout c gs loose) {a : Nat} :
    a ∈ c.freqHeap ↔ a ∈ addrs (entries gs) :=
  ⟨h.freqOnly a, h.chain.mem⟩

theorem WellLinked.onlyReachable (h : WellLinked c hd gs) : OnlyReachable c := by
  have hfreqs : ∀ a, Reach c.freqHeap c.dummyHead a ↔ a ∈ addrs (entries (hd :: gs)) := fun a => by
    rw [h.layout.head]
    exact h.layout.chain.reach_iff
  refine ⟨fun a => h.layout.mem_freqHeap_iff.trans (hfreqs a).symm, fun b => ⟨fun hb => ?_, ?_⟩,
    fun k p hp => ?_, fun k p hp => ?_⟩
  · -- the list that the node is in
    have hin := h.layout.keyOnly b hb
    rw [addrs_nil, List.append_nil] at hin
    obtain ⟨g, hg, hb⟩ := List.mem_flatMap.mp hin
    obtain ⟨pre, next, hg'⟩ := h.grouped.lookup_group hg
    refine ⟨g.addr, _, (hfreqs _).mpr (mem_addrs (List.mem_map_of_mem hg)), hg', ?_⟩
    exact (h.layout.lists g hg).reach_iff.mpr hb
  · rintro ⟨a, n, ha, hn, hb⟩
    obtain ⟨e, he, rfl⟩ := List.mem_map.mp ((hfreqs a).mp ha)
    obtain ⟨g, hg, rfl⟩ := List.mem_map.mp he
    obtain ⟨pre, next, hg'⟩ := h.grouped.lookup_group hg
    cases hn.symm.trans hg'
    exact (h.layout.lists g hg).mem ((h.layout.lists g hg).reach_iff.mp hb)
  · -- `kmap_` leads to a node of its key
    obtain ⟨g, hg, x, hx, hxk, rfl, -⟩ := h.mapped k p hp
    obtain ⟨n, hn, hnx⟩ := h.grouped.lookup_node (mem_allNodes.mpr ⟨g, hg, hx⟩)
    exact ⟨x.1, n, rfl, hn, by rw [hnx]; exact hxk⟩
  · have hk : k ∈ c.kmap := h.grouped.mem_fmap.mp (Finmap.mem_of_lookup_eq_some hp)
    obtain ⟨q, hq⟩ := Finmap.mem_iff.mp hk
    obtain ⟨g, hg, -, -, -, -, hfmap⟩ := h.mapped k q hq
    cases hfmap.symm.trans hp
    obtain ⟨pre, next, hg'⟩ := h.grouped.lookup_group (List.mem_cons_of_mem hd hg)
    exact ⟨g.addr, rfl, mem_of_lookup hg'⟩

theorem WellLinked.hasVictim (h : WellLinked c hd gs) (hcap : c.capacity ≠ 0) : HasVictim c := by
  intro hfull
  obtain ⟨g, R, rfl⟩ := List.exists_cons_of_ne_nil (h.grouped.groups_ne_nil hcap hfull)
  have hhd := Layout.lookup_freq (L := []) (g := hd) h.layout
  have hg := Layout.lookup_freq (L := [hd]) (g := g) h.layout
  obtain ⟨xs, b, k, hnodes⟩ := h.grouped.last_node List.mem_cons_self
  have hb : (b, k) ∈ g.nodes := by rw [hnodes]; simp
  obtain ⟨n, hn, -⟩ := Layout.lookup_key (L := [hd]) (g := g) h.layout hb
  refine ⟨⟨hd.list, none, some g.addr⟩, g.addr, _, b, n, ?_, rfl, hg, ?_, ?_, hn⟩
  · rw [h.layout.head]
    exact hhd
  · show lastPtr none g.cells = some b
    rw [Group.cells, hnodes, ← List.cons_append, lastPtr_append]
    rfl
  · -- the dummy node is in front of the list
    intro hdummy
    have hnd := Layout.cells_nodup (L := [hd]) (g := g) h.layout
    rw [Group.cells, addrs_cons, List.nodup_cons] at hnd
    apply hnd.1
    rw [Option.some.inj hdummy]
    exact mem_addrs (x := (b, k)) hb

theorem set_wellLinked (hinc : rt.inc 0 = 1) (h : WellLinked c hd gs) (hcap : c.capacity ≠ 0)
    (key val : Str) : ∃ c' gs', c.set rt key val = some c' ∧ c'.capacity = c.capacity ∧
      WellLinked c' hd gs' := by
  rw [LFUCache.set, if_neg hcap]
  by_cases hfull : c.kmap.keys.card = c.capacity
  · obtain ⟨c₁, gs₁, g, R, xs, b, k, rfl, -, hevict, hcap₁, -, -, h₁⟩ :=
      evict_wellLinked h (h.grouped.groups_ne_nil hcap hfull)
    obtain ⟨c₂, gs₂, b₂, hinsert, hcap₂, -, -, h₂⟩ := insert_wellLinked rt hinc h₁ key val
    refine ⟨c₂, gs₂, ?_, hcap₂.trans hcap₁, h₂⟩
    simp only [if_pos hfull, hevict, hinsert, Option.bind_eq_bind, Option.bind_some]
  · obtain ⟨c₂, gs₂, b₂, hinsert, hcap₂, -, -, h₂⟩ := insert_wellLinked rt hinc h key val
    refine ⟨c₂, gs₂, ?_, hcap₂, h₂⟩
    simp only [if_neg hfull, hinsert, Option.bind_eq_bind, Option.bind_some]

/-- A call in which no hit finds a label that the increment does not raise by one. -/
theorem call_wellLinked (inc : Int → Int) (hinc : inc 0 = 1) (h : WellLinked c hd gs)
    (hcap : c.capacity ≠ 0) {r : Call}
    (hhit : ∀ key val v f, r.op = .get key val → c.entry key = some (v, f) → inc f = f + 1) :
    ∃ c' gs', call inc c r = some c' ∧ c'.capacity = c.capacity ∧ WellLinked c' hd gs' := by
  obtain ⟨keys, freqs, op⟩ := r
  cases op with
  | get key val =>
    by_cases hk : key ∈ c.kmap
    · obtain ⟨c', v, gs', hget, hcap', -, -, h'⟩ :=
        get_wellLinked ⟨keys, freqs, inc⟩ (fun v f => hhit key val v f rfl) h hcap hk val
      refine ⟨c', gs', ?_, hcap', h'⟩
      simp only [call, hget, Option.map_some]
    · have hmiss : c.fmap.lookup key = none :=
        Finmap.lookup_eq_none.mpr (h.grouped.mem_fmap.not.mpr hk)
      refine ⟨c, gs, ?_, rfl, h⟩
      simp only [call, get_miss ⟨keys, freqs, inc⟩ hmiss, Option.map_some]
  | set key val => exact set_wellLinked ⟨keys, freqs, inc⟩ hinc h hcap key val

theorem new_wellLinked (capacity : Nat) : ∃ c hd, LFUCache.new rt capacity = some c ∧
    c.capacity = capacity ∧ WellLinked c hd [] := by
  obtain ⟨c, hd, hnew, hlay, hfreq, hnodes, hcap, hkmap, hfmap⟩ := new_spec rt capacity
  refine ⟨c, hd, hnew, hcap, hlay, hfreq, hnodes, by simp, List.pairwise_singleton _ _, ?_, ?_⟩
  · rw [hkmap, hfmap]
  · intro k p hp
    rw [hkmap, Finmap.lookup_empty] at hp
    cases hp

theorem run_wellLinked (h : WellLinked c hd gs) (hcap : c.capacity ≠ 0) (rs : List Call) :
    ∃ c' gs', exec (call (· + 1)) c rs = some c' ∧ c'.capacity = c.capacity ∧
      WellLinked c' hd gs' := by
  induction rs generalizing c gs with
  | nil => exact ⟨c, gs, rfl, rfl, h⟩
  | cons r rs ih =>
    obtain ⟨c₁, gs₁, hcall, hcap₁, h₁⟩ :=
      call_wellLinked (· + 1) rfl h hcap (r := r) fun _ _ _ _ _ _ => rfl
    obtain ⟨c₂, gs₂, hrun, hcap₂, h₂⟩ := ih h₁ (by rw [hcap₁]; exact hcap)
    refine ⟨c₂, gs₂, ?_, hcap₂.trans hcap₁, h₂⟩
    rw [exec_cons, hcall]
    exact hrun

/-- **The structure stays well linked.** For every capacity above zero and every sequence of `get`
and `set` with any keys, whatever fresh addresses the allocators choose: each call ends without a
null or dangling pointer, a double free or a failed assertion, and leaves a list of frequency nodes
with increasing frequencies, each with a list that has a node, all linked both ways and with
the right tails; the maps have the same keys and lead each to its node and to the frequency
node it is in; the allocated nodes are the reachable ones; a full cache has a victim; and the
destructor frees every node once. -/
theorem stays_linked {capacity : Nat} (hcap : 0 < capacity) (rs : List Call) :
    ∃ c₀ c hd gs, LFUCache.new rt capacity = some c₀ ∧ exec (call (· + 1)) c₀ rs = some c ∧
      WellLinked c hd gs ∧ OnlyReachable c ∧ HasVictim c ∧
      ∃ c', c.destroy = some c' ∧ c'.keyHeap = ∅ ∧ c'.freqHeap = ∅ := by
  obtain ⟨c₀, hd, hnew, hcap₀, h₀⟩ := new_wellLinked rt capacity
  have hne : c₀.capacity ≠ 0 := by omega
  obtain ⟨c, gs, hrun, hcap', h⟩ := run_wellLinked h₀ hne rs
  refine ⟨c₀, c, hd, gs, hnew, hrun, h, h.onlyReachable, h.hasVictim ?_, destroy_spec h.layout⟩
  rw [hcap']
  exact hne

/-- A key is set twice, and the orphan is evicted. -/
def doubledCalls : List Call :=
  [.set [97] [1], .set [97] [2], .set [98] [3], .get [97] [], .set [99] [4]].map fun op =>
    { keys := behind.keys, freqs := behind.freqs, op := op }

theorem stays_linked_doubled :
    0 < 2 ∧ ∃ c₀ c hd gs, LFUCache.new behind 2 = some c₀ ∧
      exec (call (· + 1)) c₀ doubledCalls = some c ∧
      WellLinked c hd gs ∧ OnlyReachable c ∧ HasVictim c ∧
      ∃ c', c.destroy = some c' ∧ c'.keyHeap = ∅ ∧ c'.freqHeap = ∅ :=
  ⟨by decide, stays_linked behind (by decide) doubledCalls⟩

end Runs

end HttpWebserver.Lfu
