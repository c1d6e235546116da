import HttpWebserver.LFUCache.Layout

/-!
# LFUCache — `get` and `set` as operations on the list of groups

The specifications of `addFreq`, `get` and `set` over layouts: which node goes to which group,
and what the maps hold afterwards. No pointer is followed in the later modules.

* `addFreq_head`, `addFreq_group`: a new node enters the chain, or a node moves one group on;
* `get_hit`: a hit moves the node and delivers its value;
* `evict_spec`: the last node of the first group leaves;
* `insert_spec`: a new node enters the group of the first frequency.
-/

namespace HttpWebserver.Lfu

open LinkedHeap

section Chain

variable (rt : Runtime) {c : LFUCache} {L R : List Group} {hd g : Group}
  {loose : List (Nat × Key)} {b : Nat} {k : Key} {xs ys : List (Nat × Key)}

/-- The list of a group as it is after the group has lost a node: gone when it is empty. -/
def remaining (g : Group) (nodes : List (Nat × Key)) : List Group :=
  if nodes = [] then [] else [{ g with nodes := nodes }]

/-- `addFreq` on a new node: it enters the group behind the head. -/
theorem addFreq_head (h : Layout c (hd :: R) ((b, k) :: loose)) :
    ∃ n R' keyHeap freqHeap, Behind rt.inc hd R n R' ∧
      c.addFreq rt (some b) c.dummyHead
        = some { c with fmap := c.fmap.insert k.key (some n.addr)
                        keyHeap := keyHeap, freqHeap := freqHeap } ∧
      Layout { c with fmap := c.fmap.insert k.key (some n.addr)
                      keyHeap := keyHeap, freqHeap := freqHeap }
        (hd :: { n with nodes := (b, k) :: n.nodes } :: R') loose := by
  have hhead : c.dummyHead = some hd.addr := h.head
  obtain ⟨n, R', kh₁, fh₁, hbehind, hnext, hlay₁⟩ :=
    nextFreq_spec rt (L := []) (g := hd) h
  obtain ⟨m, hm, hmk⟩ := hlay₁.looseNodes (b, k) List.mem_cons_self
  obtain ⟨kh₂, fh₂, hadd, hlay₂⟩ := onList_add (L := [hd])
    (hlay₁.maps c.kmap (c.fmap.insert k.key (some n.addr)))
  have hn := Layout.lookup_freq (L := [hd]) hlay₂
  have hfull := (Layout.isEmpty_iff (L := [hd]) hlay₂).not.mpr (by simp)
  have hhd := Layout.lookup_freq (L := []) (g := hd) hlay₂
  subst hmk
  simp only at hm hadd hn hhd
  refine ⟨n, R', kh₂, fh₂, hbehind, ?_, hlay₂⟩
  rw [hhead] at hadd
  simp only [LFUCache.addFreq, LFUCache.moveKey, hhead, hnext, load_some, hm, ne_eq,
    not_true_eq_false, if_false, Option.bind_eq_bind, Option.bind_some, hadd, hn]
  simp [hfull, hhd]

/-- `addFreq` on a node of a group behind the head: it moves one group on, and a group that
loses its last node goes. -/
theorem addFreq_group (h : Layout c (L ++ g :: R) loose) (hL : L ≠ [])
    (hnodes : g.nodes = xs ++ (b, k) :: ys) :
    ∃ n R' keyHeap freqHeap, Behind rt.inc g R n R' ∧
      c.addFreq rt (some b) (some g.addr)
        = some { c with fmap := c.fmap.insert k.key (some n.addr)
                        keyHeap := keyHeap, freqHeap := freqHeap } ∧
      Layout { c with fmap := c.fmap.insert k.key (some n.addr)
                      keyHeap := keyHeap, freqHeap := freqHeap }
        (L ++ remaining g (xs ++ ys) ++ { n with nodes := (b, k) :: n.nodes } :: R') loose := by
  -- the group is not the dummy one: that stands at the front, with another address
  have hhead : some g.addr ≠ c.dummyHead := by
    have hnd := h.freqNodup
    rw [h.head]
    obtain ⟨x, L', rfl⟩ := List.exists_cons_of_ne_nil hL
    rw [List.cons_append, entries_cons, addrs_cons, entries_append, entries_cons, addrs_append,
      addrs_cons, List.nodup_cons] at hnd
    intro heq
    refine hnd.1 (List.mem_append_right _ ?_)
    rw [show x.addr = g.addr from (Option.some.inj heq).symm]
    exact List.mem_cons_self
  have hassoc : ∀ x S, L ++ [x] ++ S = L ++ x :: S := fun x S => by simp
  -- the group for the next label, the node taken out of its list, and put into that of the group
  obtain ⟨n, R', kh₁, fh₁, hbehind, hnext, hlay₁⟩ := nextFreq_spec rt h
  obtain ⟨m, hm, hmk⟩ := hlay₁.lookup_key (b := b) (k := k) (by rw [hnodes]; simp)
  obtain ⟨kh₂, fh₂, hdel, hlay₂⟩ := onList_del
    (hlay₁.maps c.kmap (c.fmap.insert k.key (some n.addr))) hnodes
  obtain ⟨kh₃, fh₃, hadd, hlay₃⟩ := onList_add (L := L ++ [{ g with nodes := xs ++ ys }])
    (by rw [hassoc]; exact hlay₂)
  have hn := Layout.lookup_freq hlay₃
  have hfull := (Layout.isEmpty_iff hlay₃).not.mpr (by simp)
  have hlay₃' := hlay₃
  rw [hassoc] at hlay₃'
  have hg := Layout.lookup_freq hlay₃'
  have hempty := Layout.isEmpty_iff hlay₃'
  subst hmk
  simp only at hm hdel hadd hn hg
  -- the list that the node has left is deleted if it is empty now
  rcases eq_or_ne (xs ++ ys) [] with hnil | hne
  · obtain ⟨kh₄, fh₄, hgone, hlay₄⟩ := del_spec hlay₃' hL
    refine ⟨n, R', kh₄, fh₄, hbehind, ?_, ?_⟩
    · simp only [LFUCache.addFreq, LFUCache.moveKey, hnext, load_some, hm, if_pos hhead,
        Option.bind_eq_bind, Option.bind_some, hdel, hadd, hn]
      simp only at hgone
      simp [hfull, hg, hempty.mpr hnil, hhead, hgone]
    · rw [remaining, if_pos hnil, List.append_nil]
      exact hlay₄
  · refine ⟨n, R', kh₃, fh₃, hbehind, ?_, ?_⟩
    · simp only [LFUCache.addFreq, LFUCache.moveKey, hnext, load_some, hm, if_pos hhead,
        Option.bind_eq_bind, Option.bind_some, hdel, hadd, hn]
      simp [hfull, hg, hempty.not.mpr hne]
    · rw [remaining, if_neg hne]
      exact hlay₃

/-! ## The operations of the cache

A hit and the two halves of `set`, on the groups: which node goes where. The maps are read and
written as the source does, and what they should say is left to the invariants. -/

theorem new_spec (rt : Runtime) (capacity : Nat) :
    ∃ c hd, LFUCache.new rt capacity = some c ∧ Layout c [hd] [] ∧ hd.freq = 0 ∧
      hd.nodes = [] ∧ c.capacity = capacity ∧ c.kmap = ∅ ∧ c.fmap = ∅ := by
  -- the allocator hands out two nodes, which are all there is
  have hb := rt.freqs.fresh ∅
  have hd := rt.keys.fresh ∅
  unfold LFUCache.new
  simp only [newFreq_spec]
  generalize rt.freqs.choose ∅ = b at hb ⊢
  generalize rt.keys.choose ∅ = d at hd ⊢
  let g : Group := { addr := b, freq := 0, dummy := d, nodes := [] }
  have hlook : (Finmap.insert b ⟨g.list, none, none⟩ (∅ : FreqHeap)).lookup b
      = some ⟨g.list, none, none⟩ := Finmap.lookup_insert _
  refine ⟨{ dummyHead := some b, capacity := capacity, kmap := ∅, fmap := ∅
            keyHeap := Finmap.insert d ⟨default, none, none⟩ ∅
            freqHeap := Finmap.insert b ⟨g.list, none, none⟩ ∅ }, g, ?_,
    ⟨rfl, ⟨hlook, trivial⟩, ?_, ?_, ?_, ?_, ?_, ?_⟩, rfl, rfl, rfl, rfl, rfl⟩
  · -- the fields of the one group, and that the heaps hold nothing else
    simp only [setNext, update, Option.bind_eq_bind, Option.bind_some, Finmap.lookup_insert,
      Option.map_some, Finmap.insert_insert]
    rfl
  · intro x hx
    rw [List.mem_singleton.mp hx]
    exact ⟨Finmap.lookup_insert _, trivial⟩
  · intro x hx
    cases hx
  · exact List.nodup_singleton _
  · exact List.nodup_singleton _
  · intro a ha
    rcases Finmap.mem_insert.mp ha with hab | ha
    · rw [hab]; exact List.mem_singleton_self _
    · exact absurd ha Finmap.notMem_empty
  · intro a ha
    rcases Finmap.mem_insert.mp ha with hab | ha
    · rw [hab]; exact List.mem_singleton_self _
    · exact absurd ha Finmap.notMem_empty

/-- A hit delivers the value of the node and moves it one group on. -/
theorem get_hit (h : Layout c (L ++ g :: R) []) (hL : L ≠ [])
    (hnodes : g.nodes = xs ++ (b, k) :: ys) (hcap : c.capacity ≠ 0)
    (hkmap : c.kmap.lookup k.key = some (some b))
    (hfmap : c.fmap.lookup k.key = some (some g.addr)) (val : Str) :
    ∃ n R' keyHeap freqHeap, Behind rt.inc g R n R' ∧
      c.get rt k.key val
        = some ({ c with fmap := c.fmap.insert k.key (some n.addr)
                         keyHeap := keyHeap, freqHeap := freqHeap }, true, val ++ k.value) ∧
      Layout { c with fmap := c.fmap.insert k.key (some n.addr)
                      keyHeap := keyHeap, freqHeap := freqHeap }
        (L ++ remaining g (xs ++ ys) ++ { n with nodes := (b, k) :: n.nodes } :: R') [] := by
  obtain ⟨n, R', kh, fh, hbehind, hadd, hlay⟩ := addFreq_group rt h hL hnodes
  obtain ⟨m, hm, hmk⟩ := h.lookup_key (b := b) (k := k) (by rw [hnodes]; simp)
  refine ⟨n, R', kh, fh, hbehind, ?_, hlay⟩
  have hfound : ¬ c.fmap.lookup k.key = none := by rw [hfmap]; simp
  rw [LFUCache.get, if_neg hcap, if_neg hfound]
  simp only [subscript, hkmap, hfmap, load_some, hm, hmk, hadd, Option.bind_eq_bind,
    Option.bind_some]

theorem get_miss {key : Str} (hfmap : c.fmap.lookup key = none) (val : Str) :
    c.get rt key val = some (c, false, val) := by
  rw [LFUCache.get, if_pos hfmap, ite_self]

/-- A hit appends to `val`. -/
theorem get_append (c : LFUCache) (key val : Str) :
    c.get rt key val = (c.get rt key []).map fun r => (r.1, r.2.1, val ++ r.2.2) := by
  unfold LFUCache.get
  split
  · rw [Option.map_some, List.append_nil]
  · split
    · rw [Option.map_some, List.append_nil]
    · simp [Option.map_bind]

/-- The eviction takes the last node of the first group. -/
theorem evict_spec (h : Layout c (hd :: g :: R) []) (hnodes : g.nodes = xs ++ [(b, k)]) :
    ∃ keyHeap freqHeap, c.evict
        = some { c with kmap := c.kmap.erase k.key, fmap := c.fmap.erase k.key
                        keyHeap := keyHeap, freqHeap := freqHeap } ∧
      Layout { c with kmap := c.kmap.erase k.key, fmap := c.fmap.erase k.key
                      keyHeap := keyHeap, freqHeap := freqHeap }
        (hd :: remaining g xs ++ R) [] := by
  have hhead : c.dummyHead = some hd.addr := h.head
  have hhd := Layout.lookup_freq (L := []) (g := hd) h
  have hg := Layout.lookup_freq (L := [hd]) (g := g) h
  -- the last node of the first group behind the dummy one
  have hlast : g.list.getLast = some b := by
    rw [KeyList.getLast, Group.list, Group.cells, hnodes, ← List.cons_append, lastPtr_append]
    rfl
  -- it is taken out of its list, removed from the maps, and freed
  obtain ⟨kh₁, fh₁, hdel, hlay₁⟩ := onList_del (L := [hd]) h hnodes
  rw [List.append_nil] at hlay₁
  obtain ⟨m, hm, hmk⟩ := hlay₁.looseNodes (b, k) List.mem_cons_self
  obtain ⟨hfree, hlay₂⟩ :=
    (hlay₁.maps (c.kmap.erase k.key) (c.fmap.erase k.key)).free_loose
  have hg₂ := Layout.lookup_freq (L := [hd]) hlay₂
  have hempty := Layout.isEmpty_iff (L := [hd]) hlay₂
  subst hmk
  simp only at hm hdel hfree hg₂
  -- its list goes with it if it is empty now
  rcases eq_or_ne xs [] with hnil | hne
  · obtain ⟨kh₃, fh₃, hgone, hlay₃⟩ := del_spec (L := [hd]) hlay₂ (by simp)
    refine ⟨kh₃, fh₃, ?_, ?_⟩
    · simp only [hhead] at hgone
      simp only [LFUCache.evict, hhead, load_some, hhd, entries_cons, firstPtr, hg, hlast, hdel, hm,
        hfree, hg₂, Option.bind_eq_bind, Option.bind_some]
      rw [if_pos (hempty.mpr hnil)]
      exact hgone
    · rw [remaining, if_pos hnil]
      exact hlay₃
  · refine ⟨kh₁.erase b, fh₁, ?_, ?_⟩
    · simp only [LFUCache.evict, hhead, load_some, hhd, entries_cons, firstPtr, hg, hlast, hdel, hm,
        hfree, hg₂, Option.bind_eq_bind, Option.bind_some]
      rw [if_neg (hempty.not.mpr hne)]
    · rw [remaining, if_neg hne]
      exact hlay₂

/-- A new key enters the group behind the head. -/
theorem insert_spec (h : Layout c (hd :: R) []) (key val : Str) :
    ∃ n R' b keyHeap freqHeap, Behind rt.inc hd R n R' ∧
      c.insert rt key val
        = some { c with kmap := c.kmap.insert key (some b)
                        fmap := c.fmap.insert key (some n.addr)
                        keyHeap := keyHeap, freqHeap := freqHeap } ∧
      Layout { c with kmap := c.kmap.insert key (some b)
                      fmap := c.fmap.insert key (some n.addr)
                      keyHeap := keyHeap, freqHeap := freqHeap }
        (hd :: { n with nodes := (b, ⟨key, val⟩) :: n.nodes } :: R') [] := by
  have hb := rt.keys.fresh c.keyHeap
  obtain ⟨n, R', kh, fh, hbehind, hadd, hlay⟩ :=
    addFreq_head rt (h.new_loose hb ⟨key, val⟩)
  have hhd := Layout.lookup_freq (L := []) (g := hd) hlay
  have hhead : c.dummyHead = some hd.addr := h.head
  refine ⟨n, R', rt.keys.choose c.keyHeap, kh, fh, hbehind, ?_, hlay.maps _ _⟩
  simp only at hadd hhd
  simp only [LFUCache.insert, alloc, setValue, update, Finmap.lookup_insert, Option.map_some,
    Finmap.insert_insert, Option.bind_eq_bind, Option.bind_some, hadd]
  simp only [hhead, load_some, hhd, entries_cons, firstPtr, Option.bind_some]

end Chain

end HttpWebserver.Lfu
