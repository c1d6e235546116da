import HttpWebserver.LFUCache.Chain
import HttpWebserver.Lib.ReferenceLfu
import HttpWebserver.Lib.Machine

/-!
# LFUCache — the cache refines the reference LFU cache

`Represents c s` relates the pointers and maps of the cache `c` to the reference cache `s`:
each resident key has one node, in the group labelled with one more than its hits, and inside
a group the nodes stand in the order of their last accesses, the latest first.

* `represents_put`, `represents_drop`: what it takes to keep the relation when a key is put in
  front of a group, or leaves;
* `mem_moved`, `mem_entered`, `mem_evicted`: where a node is after an operation on another one;
* `request_hit`, `request_miss`: one request is one step of the reference;
* **`cache_refines`** — every sequence of requests, from a new cache, is answered as the
  reference answers it.
-/

namespace HttpWebserver.Lfu

open LinkedHeap Machine
open ReferenceLfu (Cache Entry IsVictim)

/-- The node `x` of a group is the resident node of its key. -/
structure Resident (c : LFUCache) (s : Cache Str Str) (g : Group) (x : Nat × Key) : Prop where
  kmap : c.kmap.lookup x.2.key = some (some x.1)
  fmap : c.fmap.lookup x.2.key = some (some g.addr)
  entry : ∃ e, s.entries.lookup x.2.key = some e ∧ e.value = x.2.value ∧
    g.freq = 1 + e.hits ∧ e.last < s.clock

/-- The first node was accessed after the second. -/
def Later (s : Cache Str Str) (x y : Nat × Key) : Prop :=
  ∀ e e', s.entries.lookup x.2.key = some e → s.entries.lookup y.2.key = some e' →
    e'.last < e.last

/-- The cache holds the reference's entries, in the list of groups `gs` behind the head. -/
structure Represents (c : LFUCache) (s : Cache Str Str) (hd : Group) (gs : List Group) :
    Prop where
  layout : Layout c (hd :: gs) []
  headFreq : hd.freq = 0
  nonempty : ∀ g ∈ gs, g.nodes ≠ []
  ascending : (gs.map Group.freq).Pairwise (· < ·)
  resident : ∀ g ∈ gs, ∀ x ∈ g.nodes, Resident c s g x
  recent : ∀ g ∈ gs, g.nodes.Pairwise (Later s)
  complete : ∀ k ∈ s.entries, ∃ g ∈ gs, ∃ x ∈ g.nodes, x.2.key = k
  kmapKeys : c.kmap.keys = s.entries.keys
  fmapKeys : c.fmap.keys = s.entries.keys

/-! ## What stays

An access touches one key. For all others it is enough to know which group their nodes are in, and
in which order: `Kept` and `SameBut` say so, and `represents_drop` and `represents_put` put the
whole relation together from that. -/

/-- `g'` is a group of `gs`, perhaps without some of its nodes, and has no node of key `k`. -/
def Kept (gs : List Group) (k : Str) (g' : Group) : Prop :=
  ∃ g ∈ gs, g'.addr = g.addr ∧ g'.freq = g.freq ∧ g'.nodes.Sublist g.nodes ∧
    ∀ x ∈ g'.nodes, x.2.key ≠ k

/-- The maps and the entries of all keys but `k` stay. -/
structure SameBut (c c' : LFUCache) (s s' : Cache Str Str) (k : Str) : Prop where
  kmap : ∀ k' ≠ k, c'.kmap.lookup k' = c.kmap.lookup k'
  fmap : ∀ k' ≠ k, c'.fmap.lookup k' = c.fmap.lookup k'
  entries : ∀ k' ≠ k, s'.entries.lookup k' = s.entries.lookup k'
  clock : s.clock ≤ s'.clock

section Keep

variable {c c' : LFUCache} {s s' : Cache Str Str} {hd g : Group} {gs : List Group} {k : Str}

theorem Kept.resident (hg : Kept gs k g) (h : Represents c s hd gs)
    (hsame : SameBut c c' s s' k) {x : Nat × Key} (hx : x ∈ g.nodes) : Resident c' s' g x := by
  obtain ⟨g₀, hg₀, haddr, hfreq, hsub, hne⟩ := hg
  obtain ⟨hkmap, hfmap, e, he, hvalue, hlabel, hlast⟩ := h.resident g₀ hg₀ x (hsub.subset hx)
  have hk := hne x hx
  refine ⟨(hsame.kmap _ hk).trans hkmap, ?_, e, (hsame.entries _ hk).trans he, hvalue, ?_, ?_⟩
  · rw [haddr]
    exact (hsame.fmap _ hk).trans hfmap
  · rw [hfreq]
    exact hlabel
  · exact Nat.lt_of_lt_of_le hlast hsame.clock

theorem Kept.recent (hg : Kept gs k g) (h : Represents c s hd gs)
    (hsame : SameBut c c' s s' k) : g.nodes.Pairwise (Later s') := by
  obtain ⟨g₀, hg₀, -, -, hsub, hne⟩ := hg
  refine ((h.recent g₀ hg₀).sublist hsub).imp_of_mem fun hx hy hlater e e' he he' => ?_
  rw [hsame.entries _ (hne _ hx)] at he
  rw [hsame.entries _ (hne _ hy)] at he'
  exact hlater e e' he he'

/-- A key leaves the cache. -/
theorem represents_drop {gs' : List Group} (h : Represents c s hd gs)
    (hlay : Layout c' (hd :: gs') []) (hkept : ∀ g ∈ gs', Kept gs k g)
    (hnonempty : ∀ g ∈ gs', g.nodes ≠ []) (hasc : (gs'.map Group.freq).Pairwise (· < ·))
    (hall : ∀ g ∈ gs, ∀ x ∈ g.nodes, x.2.key ≠ k → ∃ g' ∈ gs', x ∈ g'.nodes)
    (hkmap : c'.kmap = c.kmap.erase k) (hfmap : c'.fmap = c.fmap.erase k) :
    Represents c' (s.drop k) hd gs' := by
  have hsame : SameBut c c' s (s.drop k) k := by
    refine ⟨fun k' hk' => ?_, fun k' hk' => ?_, fun k' hk' => ?_, Nat.le_refl _⟩
    · rw [hkmap]
      exact Finmap.lookup_erase_ne hk'
    · rw [hfmap]
      exact Finmap.lookup_erase_ne hk'
    · exact Finmap.lookup_erase_ne hk'
  refine ⟨hlay, h.headFreq, hnonempty, hasc, fun g hg x hx => (hkept g hg).resident h hsame hx,
    fun g hg => (hkept g hg).recent h hsame, fun k' hk' => ?_, ?_, ?_⟩
  · obtain ⟨hne, hmem⟩ := Finmap.mem_erase.mp hk'
    obtain ⟨g, hg, x, hx, hxk⟩ := h.complete k' hmem
    obtain ⟨g', hg', hx'⟩ := hall g hg x hx (hxk.symm ▸ hne)
    exact ⟨g', hg', x, hx', hxk⟩
  · rw [hkmap, Finmap.keys_erase, h.kmapKeys, Cache.drop, Finmap.keys_erase]
  · rw [hfmap, Finmap.keys_erase, h.fmapKeys, Cache.drop, Finmap.keys_erase]

/-- The group `n` with the node of `k` in front, and the other nodes kept. -/
def PutIn (gs : List Group) (b : Nat) (key : Key) (g' : Group) : Prop :=
  ∃ nodes, g'.nodes = (b, key) :: nodes ∧
    (nodes = [] ∨ Kept gs key.key { g' with nodes := nodes })

/-- An access puts the node of a key in front of a group. -/
theorem represents_put {gs' : List Group} {n : Group} {b : Nat} {v : Str} {hits : Nat}
    (h : Represents c s hd gs) (hlay : Layout c' (hd :: gs') []) (hn : n ∈ gs')
    (hput : PutIn gs b ⟨k, v⟩ n) (hfreq : n.freq = 1 + hits)
    (hkept : ∀ g ∈ gs', g = n ∨ (Kept gs k g ∧ g.nodes ≠ []))
    (hasc : (gs'.map Group.freq).Pairwise (· < ·))
    (hall : ∀ g ∈ gs, ∀ x ∈ g.nodes, x.2.key ≠ k → ∃ g' ∈ gs', x ∈ g'.nodes)
    (hkmap : c'.kmap = c.kmap.insert k (some b))
    (hfmap : c'.fmap = c.fmap.insert k (some n.addr)) :
    Represents c' (s.put k v hits) hd gs' := by
  -- every other key keeps its map entries and its value
  have hsame : SameBut c c' s (s.put k v hits) k := by
    refine ⟨fun k' hk' => ?_, fun k' hk' => ?_, fun k' hk' => ?_, Nat.le_succ _⟩
    · rw [hkmap]
      exact Finmap.lookup_insert_of_ne _ hk'
    · rw [hfmap]
      exact Finmap.lookup_insert_of_ne _ hk'
    · exact Finmap.lookup_insert_of_ne _ hk'
  have hentry : (s.put k v hits).entries.lookup k = some ⟨v, hits, s.clock⟩ :=
    Finmap.lookup_insert _
  obtain ⟨nodes, hnodes, hrest⟩ := hput
  -- the node of `k` is the first of its group, with the clock as it was as its time of access
  have hfront : Resident c' (s.put k v hits) n (b, ⟨k, v⟩) := by
    refine ⟨?_, ?_, _, hentry, rfl, hfreq, Nat.lt_succ_self _⟩
    · rw [hkmap]
      exact Finmap.lookup_insert _
    · rw [hfmap]
      exact Finmap.lookup_insert _
  refine ⟨hlay, h.headFreq, fun g hg => ?_, hasc, fun g hg x hx => ?_, fun g hg => ?_,
    fun k' hk' => ?_, ?_, ?_⟩
  · -- no group is empty
    rcases hkept g hg with rfl | ⟨-, hne⟩
    · rw [hnodes]
      simp
    · exact hne
  · -- each node holds what the reference has for its key
    rcases hkept g hg with rfl | ⟨hg', -⟩
    · rw [hnodes] at hx
      rcases List.mem_cons.mp hx with rfl | hx
      · exact hfront
      · rcases hrest with rfl | hrest
        · cases hx
        · have hold := hrest.resident h hsame hx
          exact ⟨hold.kmap, hold.fmap, hold.entry⟩
    · exact hg'.resident h hsame hx
  · rcases hkept g hg with rfl | ⟨hg', -⟩
    · rw [hnodes]
      rcases hrest with rfl | hrest
      · exact List.pairwise_singleton _ _
      · -- the new access is later than all others
        refine List.pairwise_cons.mpr ⟨fun x hx e e' he he' => ?_, hrest.recent h hsame⟩
        cases Option.some.inj (hentry.symm.trans he)
        obtain ⟨g₀, hg₀, -, -, hsub, hne⟩ := hrest
        obtain ⟨-, -, e₀, he₀, -, -, hlast⟩ := h.resident g₀ hg₀ x (hsub.subset hx)
        rw [hsame.entries _ (hne x hx), he₀] at he'
        cases he'
        exact hlast
    · exact hg'.recent h hsame
  · -- each key of the reference has a node
    rcases Finmap.mem_insert.mp hk' with rfl | hmem
    · exact ⟨n, hn, (b, ⟨k', v⟩), by rw [hnodes]; exact List.mem_cons_self, rfl⟩
    · rcases eq_or_ne k' k with rfl | hne
      · exact ⟨n, hn, (b, ⟨k', v⟩), by rw [hnodes]; exact List.mem_cons_self, rfl⟩
      · obtain ⟨g, hg, x, hx, hxk⟩ := h.complete k' hmem
        obtain ⟨g', hg', hx'⟩ := hall g hg x hx (hxk.symm ▸ hne)
        exact ⟨g', hg', x, hx', hxk⟩
  · -- the maps have the keys of the reference
    rw [hkmap, ReferenceLfu.keys_put, ← h.kmapKeys]
    ext k'
    simp only [Finmap.mem_keys, Finmap.mem_insert, Finset.mem_insert]
  · rw [hfmap, ReferenceLfu.keys_put, ← h.fmapKeys]
    ext k'
    simp only [Finmap.mem_keys, Finmap.mem_insert, Finset.mem_insert]

end Keep

/-! ## Where a key is -/

section Find

variable (rt : Runtime) {c : LFUCache} {s : Cache Str Str} {hd g n : Group} {gs L R R' : List Group}
  {k : Str} {b : Nat} {key : Key} {xs ys : List (Nat × Key)}

/-- A resident key, with the node and the group it is in. -/
theorem Represents.find (h : Represents c s hd gs) {e : Entry Str}
    (he : s.entries.lookup k = some e) :
    ∃ (L : List Group) (g : Group) (R : List Group) (xs : List (Nat × Key)) (b : Nat)
      (ys : List (Nat × Key)), gs = L ++ g :: R ∧ g.nodes = xs ++ (b, ⟨k, e.value⟩) :: ys ∧
        g.freq = 1 + e.hits ∧ c.kmap.lookup k = some (some b) ∧
        c.fmap.lookup k = some (some g.addr) := by
  obtain ⟨g, hg, x, hx, rfl⟩ := h.complete k (Finmap.mem_of_lookup_eq_some he)
  obtain ⟨hkmap, hfmap, e', he', hvalue, hlabel, -⟩ := h.resident g hg x hx
  cases Option.some.inj (he.symm.trans he')
  obtain ⟨L, R, rfl⟩ := List.append_of_mem hg
  obtain ⟨xs, ys, hnodes⟩ := List.append_of_mem hx
  exact ⟨L, g, R, xs, x.1, ys, rfl, by rw [hnodes, hvalue], hlabel, hkmap, hfmap⟩

/-- Two nodes of one key are the same. -/
theorem Represents.addr_eq (h : Represents c s hd gs) {g' : Group} (hg : g ∈ gs) (hg' : g' ∈ gs)
    {x y : Nat × Key} (hx : x ∈ g.nodes) (hy : y ∈ g'.nodes) (hk : x.2.key = y.2.key) :
    x.1 = y.1 := by
  have hx' := (h.resident g hg x hx).kmap
  have hy' := (h.resident g' hg' y hy).kmap
  rw [hk, hy'] at hx'
  exact (Option.some.inj (Option.some.inj hx')).symm

/-- The key of a node is the key of no node of another group. -/
theorem Represents.key_other (h : Represents c s hd (L ++ g :: R))
    (hb : (b, key) ∈ g.nodes) {g' : Group} (hg' : g' ∈ L ++ R) {x : Nat × Key}
    (hx : x ∈ g'.nodes) : x.2.key ≠ key.key := by
  intro hk
  have hmem : g' ∈ L ++ g :: R := by
    rcases List.mem_append.mp hg' with hL | hR
    · exact List.mem_append_left _ hL
    · exact List.mem_append_right _ (List.mem_cons_of_mem _ hR)
  have haddr : x.1 = b := h.addr_eq hmem (by simp) hx hb hk
  have hother := Layout.other_group (L := hd :: L) h.layout (a := b)
    (List.mem_cons_of_mem _ hg') (haddr ▸ List.mem_cons_of_mem _ (mem_addrs hx))
  exact hother (List.mem_append_left _ (List.mem_cons_of_mem _ (mem_addrs hb)))

/-- The key of a node is the key of no other node of its group. -/
theorem Represents.key_same (h : Represents c s hd (L ++ g :: R))
    (hnodes : g.nodes = xs ++ (b, key) :: ys) {x : Nat × Key} (hx : x ∈ xs ++ ys) :
    x.2.key ≠ key.key := by
  intro hk
  have hg : g ∈ L ++ g :: R := by simp
  have hxg : x ∈ g.nodes := by
    rw [hnodes]
    rcases List.mem_append.mp hx with hx | hx
    · exact List.mem_append_left _ hx
    · exact List.mem_append_right _ (List.mem_cons_of_mem _ hx)
  have hbg : (b, key) ∈ g.nodes := by rw [hnodes]; simp
  have haddr : x.1 = b := h.addr_eq hg hg hxg hbg hk
  have hnd : (addrs g.nodes).Nodup :=
    (List.nodup_cons.mp (Layout.cells_nodup (L := hd :: L) h.layout)).2
  rw [hnodes, addrs_append, addrs_cons, List.nodup_middle, List.nodup_cons] at hnd
  have hmem : x.1 ∈ addrs (xs ++ ys) := mem_addrs hx
  rw [addrs_append, haddr] at hmem
  exact hnd.1 hmem

/-- A group of other keys is kept. -/
theorem kept_of_mem (hg : g ∈ gs) (hne : ∀ x ∈ g.nodes, x.2.key ≠ k) : Kept gs k g :=
  ⟨g, hg, rfl, rfl, List.Sublist.refl _, hne⟩

/-- The frequencies stay in order when the next group is put in behind `g`. -/
theorem ascending_behind (hasc : ((L ++ g :: R).map Group.freq).Pairwise (· < ·))
    (hbehind : Behind (· + 1) g R n R') :
    ((L ++ g :: n :: R').map Group.freq).Pairwise (· < ·) := by
  have hfreq : n.freq = g.freq + 1 := hbehind.1
  rcases hbehind.2 with rfl | ⟨rfl, -, hnext⟩
  · exact hasc
  · simp only [List.map_append, List.map_cons, List.pairwise_append, List.pairwise_cons,
      List.mem_cons] at hasc ⊢
    obtain ⟨hL, ⟨hgR, hR⟩, hLR⟩ := hasc
    -- a new group stands between `g` and a successor that is not `g.freq + 1`, so is above it
    have hnR : ∀ f ∈ R'.map Group.freq, n.freq < f := by
      cases R' with
      | nil => intro f hf; cases hf
      | cons m R'' =>
          have hm : m.freq ≠ g.freq + 1 := hnext m R'' rfl
          have hgm := hgR m.freq List.mem_cons_self
          intro f hf
          rcases List.mem_cons.mp hf with rfl | hf
          · omega
          · have := (List.pairwise_cons.mp hR).1 f hf
            omega
    refine ⟨hL, ⟨?_, hnR, hR⟩, ?_⟩
    · rintro f (rfl | hf)
      · omega
      · exact hgR f hf
    · rintro f hf f' (rfl | rfl | hf')
      · exact hLR f hf _ (.inl rfl)
      · have := hLR f hf g.freq (.inl rfl)
        omega
      · exact hLR f hf f' (.inr hf')

theorem remaining_sublist (g : Group) (nodes : List (Nat × Key)) :
    ((remaining g nodes).map Group.freq).Sublist [g.freq] := by
  unfold remaining
  split
  · exact List.nil_sublist _
  · exact List.Sublist.refl _

theorem mem_remaining {g' : Group} (h : g' ∈ remaining g xs) :
    g' = { g with nodes := xs } ∧ xs ≠ [] := by
  unfold remaining at h
  split at h
  · cases h
  · next hne => exact ⟨List.mem_singleton.mp h, hne⟩

theorem remaining_mem {x : Nat × Key} (hx : x ∈ xs) :
    { g with nodes := xs } ∈ remaining g xs := by
  unfold remaining
  rw [if_neg (List.ne_nil_of_mem hx)]
  exact List.mem_singleton_self _

end Find

/-! ## Where a node is

One lemma for each operation. A node that is not the one it is about stays in its group, which may
have lost a node and may stand elsewhere in the list. -/

section Groups

variable {inc : Int → Int} {L R R' : List Group} {g g' n : Group} {b : Nat} {k : Key}
  {xs ys : List (Nat × Key)} {x : Nat × Key}

/-- A node stays in its group when another one moves on. -/
theorem mem_moved (hbehind : Behind inc g R n R') (hnodes : g.nodes = xs ++ (b, k) :: ys)
    (hg' : g' ∈ L ++ g :: R) (hx : x ∈ g'.nodes) (hne : x ≠ (b, k)) :
    ∃ g'' ∈ L ++ remaining g (xs ++ ys) ++ { n with nodes := (b, k) :: n.nodes } :: R',
      (g''.addr = g'.addr ∧ g''.freq = g'.freq) ∧ x ∈ g''.nodes := by
  rcases mem_cons_middle hg' with rfl | hg'
  · have hxy : x ∈ xs ++ ys := by
      rw [hnodes] at hx
      rcases List.mem_append.mp hx with hx | hx
      · exact List.mem_append_left _ hx
      · exact List.mem_append_right _ ((List.mem_cons.mp hx).resolve_left hne)
    exact ⟨_, List.mem_append_left _ (List.mem_append_right _ (remaining_mem hxy)), ⟨rfl, rfl⟩, hxy⟩
  · rcases List.mem_append.mp hg' with hL | hR
    · exact ⟨g', List.mem_append_left _ (List.mem_append_left _ hL), ⟨rfl, rfl⟩, hx⟩
    · rcases hbehind.2 with rfl | ⟨rfl, -, -⟩
      · rcases List.mem_cons.mp hR with rfl | hR
        · exact ⟨_, List.mem_append_right _ List.mem_cons_self, ⟨rfl, rfl⟩,
            List.mem_cons_of_mem _ hx⟩
        · exact ⟨g', List.mem_append_right _ (List.mem_cons_of_mem _ hR), ⟨rfl, rfl⟩, hx⟩
      · exact ⟨g', List.mem_append_right _ (List.mem_cons_of_mem _ hR), ⟨rfl, rfl⟩, hx⟩

/-- A node stays in its group when a new one comes in. -/
theorem mem_entered (hbehind : Behind inc g R n R') (hg' : g' ∈ R) (hx : x ∈ g'.nodes) :
    ∃ g'' ∈ { n with nodes := (b, k) :: n.nodes } :: R',
      (g''.addr = g'.addr ∧ g''.freq = g'.freq) ∧ x ∈ g''.nodes := by
  rcases hbehind.2 with rfl | ⟨rfl, -, -⟩
  · rcases List.mem_cons.mp hg' with rfl | hR
    · exact ⟨_, List.mem_cons_self, ⟨rfl, rfl⟩, List.mem_cons_of_mem _ hx⟩
    · exact ⟨g', List.mem_cons_of_mem _ hR, ⟨rfl, rfl⟩, hx⟩
  · exact ⟨g', List.mem_cons_of_mem _ hg', ⟨rfl, rfl⟩, hx⟩

/-- A node stays in its group when the last one of the first group leaves. -/
theorem mem_evicted (hnodes : g.nodes = xs ++ [(b, k)]) (hg' : g' ∈ g :: R) (hx : x ∈ g'.nodes)
    (hne : x ≠ (b, k)) : ∃ g'' ∈ remaining g xs ++ R,
      (g''.addr = g'.addr ∧ g''.freq = g'.freq) ∧ x ∈ g''.nodes := by
  rcases List.mem_cons.mp hg' with rfl | hR
  · have hxs : x ∈ xs := by
      rw [hnodes] at hx
      rcases List.mem_append.mp hx with hx | hx
      · exact hx
      · exact absurd (List.mem_singleton.mp hx) hne
    exact ⟨_, List.mem_append_left _ (remaining_mem hxs), ⟨rfl, rfl⟩, hxs⟩
  · exact ⟨g', List.mem_append_right _ hR, ⟨rfl, rfl⟩, hx⟩

theorem Behind.subset (hbehind : Behind inc g R n R') (hg' : g' ∈ R') : g' ∈ R := by
  rcases hbehind.2 with rfl | ⟨rfl, -, -⟩
  · exact List.mem_cons_of_mem _ hg'
  · exact hg'

end Groups

/-! ## Requests -/

/-- A request of a client: `get(key, val)` with `val` empty, and `set(key, val)` if it missed.
The allocators are the ones behind `newElement` while it is served. -/
structure Request where
  keys : Allocator Key
  freqs : Allocator KeyList
  key : Str
  val : Str

/-- The cache and the answers so far: the value delivered, or nothing for a miss. -/
abbrev Served := LFUCache × List (Option Str)

def request (inc : Int → Int) (s : Served) (r : Request) : Option Served := do
  let rt : Runtime := { keys := r.keys, freqs := r.freqs, inc := inc }
  let (c, found, val) ← s.1.get rt r.key []
  if found then some (c, s.2 ++ [some val])
  else do
    let c ← c.set rt r.key r.val
    some (c, s.2 ++ [none])

section Request

variable (rt : Runtime) {c : LFUCache} {s : Cache Str Str} {hd : Group} {gs : List Group}
  {k : Str}

theorem fmap_lookup_none (h : Represents c s hd gs) :
    c.fmap.lookup k = none ↔ s.entries.lookup k = none := by
  rw [Finmap.lookup_eq_none, Finmap.lookup_eq_none, ← Finmap.mem_keys, ← Finmap.mem_keys,
    h.fmapKeys]

theorem kmap_card (h : Represents c s hd gs) : c.kmap.keys.card = s.size := by
  rw [h.kmapKeys, Cache.size]

/-- A `get` of a resident key is a hit of the reference. -/
theorem get_represents (hinc : rt.inc = (· + 1)) (h : Represents c s hd gs)
    (hcap : c.capacity ≠ 0) {e : Entry Str} (he : s.entries.lookup k = some e) :
    ∃ c' gs', c.get rt k [] = some (c', true, e.value) ∧ c'.capacity = c.capacity ∧
      Represents c' (s.put k e.value (e.hits + 1)) hd gs' := by
  obtain ⟨L, g, R, xs, b, ys, rfl, hnodes, hlabel, hkmap, hfmap⟩ := h.find he
  have hbg : (b, (⟨k, e.value⟩ : Key)) ∈ g.nodes := by rw [hnodes]; simp
  obtain ⟨n, R', kh, fh, hbehind, hget, hlay⟩ :=
    get_hit rt (L := hd :: L) h.layout (by simp) hnodes hcap hkmap hfmap []
  rw [hinc] at hbehind
  have hfreq : n.freq = g.freq + 1 := hbehind.1
  have hasc := ascending_behind h.ascending hbehind
  -- the groups before `g`, behind it and the rest of its nodes are as they were
  have hkept : ∀ g' ∈ L ++ R, Kept (L ++ g :: R) k g' ∧ g'.nodes ≠ [] := fun g' hg' => by
    have hmem : g' ∈ L ++ g :: R := by
      rcases List.mem_append.mp hg' with hL | hR
      · exact List.mem_append_left _ hL
      · exact List.mem_append_right _ (List.mem_cons_of_mem _ hR)
    exact ⟨kept_of_mem hmem fun x hx => h.key_other hbg hg' hx, h.nonempty g' hmem⟩
  have hrest : ∀ g' ∈ remaining g (xs ++ ys), Kept (L ++ g :: R) k g' ∧ g'.nodes ≠ [] :=
    fun g' hg' => by
      obtain ⟨rfl, hne⟩ := mem_remaining hg'
      refine ⟨⟨g, by simp, rfl, rfl, ?_, fun x hx => h.key_same hnodes hx⟩, hne⟩
      rw [hnodes]
      exact (List.Sublist.refl xs).append (List.sublist_cons_self _ ys)
  refine ⟨_, L ++ remaining g (xs ++ ys) ++ { n with nodes := (b, ⟨k, e.value⟩) :: n.nodes } :: R',
    hget, rfl, represents_put h hlay (List.mem_append_right _ List.mem_cons_self)
      ⟨n.nodes, rfl, ?_⟩ ?_ ?_ ?_ ?_ ?_ rfl⟩
  · -- the next group was there, or is new
    rcases hbehind.2 with rfl | ⟨-, hnil, -⟩
    · exact .inr (hkept n (List.mem_append_right _ List.mem_cons_self)).1
    · exact .inl hnil
  · show n.freq = 1 + (((e.hits + 1 : Nat)) : Int)
    push_cast
    omega
  · intro g' hg'
    rcases List.mem_append.mp hg' with hg' | hg'
    · rcases List.mem_append.mp hg' with hL | hg'
      · exact .inr (hkept g' (List.mem_append_left _ hL))
      · exact .inr (hrest g' hg')
    · rcases List.mem_cons.mp hg' with rfl | hR
      · exact .inl rfl
      · exact .inr (hkept g' (List.mem_append_right _ (hbehind.subset hR)))
  · refine hasc.sublist ?_
    simp only [List.map_append, List.map_cons, List.append_assoc]
    exact (List.Sublist.refl _).append ((remaining_sublist g _).append (List.Sublist.refl _))
  · intro g' hg' x hx hxk
    have hne : x ≠ (b, ⟨k, e.value⟩) := by
      rintro rfl
      exact hxk rfl
    obtain ⟨g'', hg'', -, hx'⟩ := mem_moved hbehind hnodes hg' hx hne
    exact ⟨g'', hg'', hx'⟩
  · -- the node of the key stays where it is in memory
    refine Finmap.ext_lookup fun k' => ?_
    rcases eq_or_ne k' k with rfl | hne
    · rw [Finmap.lookup_insert]
      exact hkmap
    · rw [Finmap.lookup_insert_of_ne _ hne]

/-- The last node of the first group is the reference's victim. -/
theorem Represents.victim {g : Group} {R : List Group} {xs : List (Nat × Key)} {b : Nat}
    {key : Key} (h : Represents c s hd (g :: R)) (hnodes : g.nodes = xs ++ [(b, key)]) :
    IsVictim s key.key := by
  have hbg : (b, key) ∈ g.nodes := by rw [hnodes]; simp
  obtain ⟨-, -, e, he, -, hlabel, -⟩ := h.resident g List.mem_cons_self (b, key) hbg
  refine ⟨e, he, fun k' e' he' hne => ?_⟩
  obtain ⟨g', hg', x, hx, rfl⟩ := h.complete k' (Finmap.mem_of_lookup_eq_some he')
  obtain ⟨-, -, e₁, he₁, -, hlabel', -⟩ := h.resident g' hg' x hx
  cases Option.some.inj (he'.symm.trans he₁)
  rcases List.mem_cons.mp hg' with rfl | hR
  · -- in the same group, so accessed later
    have hrec := h.recent g' List.mem_cons_self
    rw [hnodes] at hrec hx
    have hxs : x ∈ xs := by
      rcases List.mem_append.mp hx with hx | hx
      · exact hx
      · rw [List.mem_singleton.mp hx] at hne
        exact absurd rfl hne
    have hlast := (List.pairwise_append.mp hrec).2.2 x hxs _ (List.mem_singleton_self _)
    exact .inr ⟨by omega, hlast e' e he' he⟩
  · -- in a group of higher frequency
    have hlt := (List.pairwise_cons.mp h.ascending).1 g'.freq (List.mem_map_of_mem hR)
    exact .inl (by omega)

/-- The eviction removes the reference's victim. -/
theorem evict_represents (h : Represents c s hd gs) (hfull : 0 < s.size) :
    ∃ c' gs' victim, c.evict = some c' ∧ c'.capacity = c.capacity ∧ IsVictim s victim ∧
      Represents c' (s.drop victim) hd gs' := by
  obtain ⟨k₀, hk₀⟩ := Finset.card_pos.mp hfull
  obtain ⟨g₀, hg₀, -⟩ := h.complete k₀ (Finmap.mem_keys.mp hk₀)
  obtain ⟨g, R, rfl⟩ := List.exists_cons_of_ne_nil (List.ne_nil_of_mem hg₀)
  obtain ⟨xs, ⟨b, key⟩, hnodes⟩ : ∃ xs x, g.nodes = xs ++ [x] :=
    ⟨_, _, (List.dropLast_append_getLast (h.nonempty g List.mem_cons_self)).symm⟩
  have hbg : (b, key) ∈ g.nodes := by rw [hnodes]; simp
  obtain ⟨kh, fh, hevict, hlay⟩ := evict_spec h.layout hnodes
  have hmem : ∀ g' ∈ remaining g xs ++ R, g' ∈ remaining g xs ∨ g' ∈ R := fun g' =>
    List.mem_append.mp
  -- the victim is the last node of the first group: least frequency, oldest access in it
  refine ⟨_, remaining g xs ++ R, key.key, hevict, rfl, h.victim hnodes,
    represents_drop h hlay (fun g' hg' => ?_) (fun g' hg' => ?_) ?_ (fun g' hg' x hx hxk => ?_)
      rfl rfl⟩
  · -- the first group without its last node, where it has others
    rcases hmem g' hg' with hg' | hR
    · obtain ⟨rfl, -⟩ := mem_remaining hg'
      refine ⟨g, List.mem_cons_self, rfl, rfl, ?_, fun x hx => ?_⟩
      · rw [hnodes]
        exact List.sublist_append_left xs _
      · exact Represents.key_same (L := []) h hnodes (by simpa using hx)
    · exact kept_of_mem (List.mem_cons_of_mem _ hR) fun x hx =>
        Represents.key_other (L := []) h hbg hR hx
  · rcases hmem g' hg' with hg' | hR
    · obtain ⟨rfl, hne⟩ := mem_remaining hg'
      exact hne
    · exact h.nonempty g' (List.mem_cons_of_mem _ hR)
  · refine h.ascending.sublist ?_
    rw [List.map_append, List.map_cons]
    exact (remaining_sublist g xs).append (List.Sublist.refl _)
  · -- the other keys still have their nodes
    have hne : x ≠ (b, key) := by
      rintro rfl
      exact hxk rfl
    obtain ⟨g'', hg'', -, hx'⟩ := mem_evicted hnodes hg' hx hne
    exact ⟨g'', hg'', hx'⟩

/-- The insertion of a key that is not resident. -/
theorem insert_represents (hinc : rt.inc = (· + 1)) (h : Represents c s hd gs)
    (hk : s.entries.lookup k = none) (v : Str) :
    ∃ c' gs', c.insert rt k v = some c' ∧ c'.capacity = c.capacity ∧
      Represents c' (s.put k v 0) hd gs' := by
  obtain ⟨n, R', b, kh, fh, hbehind, hinsert, hlay⟩ := insert_spec rt h.layout k v
  rw [hinc] at hbehind
  have hfreq : n.freq = hd.freq + 1 := hbehind.1
  have hhd := h.headFreq
  have hother : ∀ g ∈ gs, ∀ x ∈ g.nodes, x.2.key ≠ k := fun g hg x hx hxk => by
    obtain ⟨-, -, e, he, -⟩ := h.resident g hg x hx
    rw [hxk, hk] at he
    cases he
  -- the head is before all groups, whose labels are positive
  have hpos : ∀ f ∈ gs.map Group.freq, hd.freq < f := fun f hf => by
    obtain ⟨g, hg, rfl⟩ := List.mem_map.mp hf
    obtain ⟨x, hx⟩ := List.exists_mem_of_ne_nil _ (h.nonempty g hg)
    obtain ⟨-, -, e, -, -, hlabel, -⟩ := h.resident g hg x hx
    omega
  have hasc := ascending_behind (L := []) (List.pairwise_cons.mpr ⟨hpos, h.ascending⟩) hbehind
  refine ⟨_, { n with nodes := (b, ⟨k, v⟩) :: n.nodes } :: R', hinsert, rfl,
    represents_put h hlay List.mem_cons_self ⟨n.nodes, rfl, ?_⟩ ?_ ?_ ?_ ?_ rfl rfl⟩
  · rcases hbehind.2 with rfl | ⟨-, hnil, -⟩
    · exact .inr (kept_of_mem List.mem_cons_self (hother n List.mem_cons_self))
    · exact .inl hnil
  · show n.freq = 1 + ((0 : Nat) : Int)
    omega
  · intro g hg
    rcases List.mem_cons.mp hg with rfl | hR
    · exact .inl rfl
    · have hold := hbehind.subset hR
      exact .inr ⟨kept_of_mem hold (hother g hold), h.nonempty g hold⟩
  · exact (List.pairwise_cons.mp hasc).2
  · intro g hg x hx _
    obtain ⟨g', hg', -, hx'⟩ := mem_entered hbehind hg hx
    exact ⟨g', hg', hx'⟩

/-! ## Runs

A request is a hit or a miss of the reference. The caller is the one that `HttpConnection` is:
`get`, and a `set` of the file it has read after a miss. -/

/-- A request of a resident key. -/
theorem request_hit (h : Represents c s hd gs) (hcap : c.capacity ≠ 0) (r : Request)
    (outs : List (Option Str)) {e : Entry Str} (he : s.entries.lookup r.key = some e) :
    ∃ c' gs', request (· + 1) (c, outs) r = some (c', outs ++ [some e.value]) ∧
      c'.capacity = c.capacity ∧ Represents c' (s.put r.key e.value (e.hits + 1)) hd gs' := by
  obtain ⟨c', gs', hget, hcap', h'⟩ :=
    get_represents ⟨r.keys, r.freqs, (· + 1)⟩ rfl h hcap he
  refine ⟨c', gs', ?_, hcap', h'⟩
  simp only [request, hget, Option.bind_eq_bind, Option.bind_some, if_true]

/-- `set` of a key that is not resident: evict when the cache is full, then insert. -/
theorem set_represents (hinc : rt.inc = (· + 1)) (h : Represents c s hd gs)
    (hcap : c.capacity ≠ 0) (hsize : s.size ≤ c.capacity) (hk : s.entries.lookup k = none)
    (v : Str) :
    ∃ c' s' gs', c.set rt k v = some c' ∧ c'.capacity = c.capacity ∧
      ReferenceLfu.Step c.capacity s k v none s' ∧ Represents c' s' hd gs' := by
  rcases Nat.lt_or_eq_of_le hsize with hroom | hfull
  · -- room for one more key
    obtain ⟨c', gs', hinsert, hcap', h'⟩ := insert_represents rt hinc h hk v
    refine ⟨c', _, gs', ?_, hcap', .room hk hroom, h'⟩
    have hnotfull : c.kmap.keys.card ≠ c.capacity := by
      rw [kmap_card h]
      exact Nat.ne_of_lt hroom
    simp only [LFUCache.set, if_neg hcap, if_neg hnotfull, hinsert, Option.bind_eq_bind,
      Option.bind_some]
  · -- the victim goes first, and its key may be any but `k`
    obtain ⟨c₁, gs₁, victim, hevict, hcap₁, hvictim, h₁⟩ :=
      evict_represents h (show 0 < s.size from by omega)
    have hk₁ : (s.drop victim).entries.lookup k = none := by
      rcases eq_or_ne k victim with heq | hne
      · rw [heq]
        exact Finmap.lookup_erase victim s.entries
      · exact (Finmap.lookup_erase_ne hne).trans hk
    obtain ⟨c', gs', hinsert, hcap', h'⟩ := insert_represents rt hinc h₁ hk₁ v
    refine ⟨c', _, gs', ?_, hcap'.trans hcap₁, .full hk hfull victim hvictim, h'⟩
    have hisfull : c.kmap.keys.card = c.capacity := (kmap_card h).trans hfull
    simp only [LFUCache.set, if_neg hcap, if_pos hisfull, hevict, hinsert, Option.bind_eq_bind,
      Option.bind_some]

/-- A request of another key. -/
theorem request_miss (h : Represents c s hd gs) (hcap : c.capacity ≠ 0)
    (hsize : s.size ≤ c.capacity) (r : Request) (outs : List (Option Str))
    (hk : s.entries.lookup r.key = none) :
    ∃ c' s' gs', request (· + 1) (c, outs) r = some (c', outs ++ [none]) ∧
      c'.capacity = c.capacity ∧ ReferenceLfu.Step c.capacity s r.key r.val none s' ∧
      Represents c' s' hd gs' := by
  have hmiss := get_miss ⟨r.keys, r.freqs, (· + 1)⟩ ((fmap_lookup_none h).mpr hk) []
  obtain ⟨c', s', gs', hset, hcap', hstep, h'⟩ :=
    set_represents ⟨r.keys, r.freqs, (· + 1)⟩ rfl h hcap hsize hk r.val
  refine ⟨c', s', gs', ?_, hcap', hstep, h'⟩
  simp only [request, hmiss, hset, Option.bind_eq_bind, Option.bind_some, Bool.false_eq_true,
    if_false]

/-- What the requests so far have come to: the answers and the contents of the reference. -/
def Refines (capacity : Nat) (rs : List Request) (t : Served) : Prop :=
  ∃ s hd gs, t.1.capacity = capacity ∧ Represents t.1 s hd gs ∧
    ReferenceLfu.Run capacity (rs.map fun r => (r.key, r.val)) t.2 s

/-- One request is answered, as the reference answers it. -/
theorem request_refines {capacity : Nat} (hcap : 0 < capacity) {rs : List Request} {t : Served}
    (h : Refines capacity rs t) (r : Request) :
    ∃ t', request (· + 1) t r = some t' ∧ Refines capacity (rs ++ [r]) t' := by
  obtain ⟨s, hd, gs, rfl, hrep, hrun⟩ := h
  have hne : t.1.capacity ≠ 0 := Nat.ne_of_gt hcap
  have hmap : (rs ++ [r]).map (fun r => (r.key, r.val))
      = rs.map (fun r => (r.key, r.val)) ++ [(r.key, r.val)] := by
    rw [List.map_append, List.map_singleton]
  cases hk : s.entries.lookup r.key with
  | some e =>
      obtain ⟨c', gs', hreq, hcap', hrep'⟩ := request_hit hrep hne r t.2 hk
      refine ⟨_, hreq, _, hd, gs', hcap', hrep', ?_⟩
      rw [hmap]
      exact .snoc _ _ _ _ _ _ _ hrun (.hit e hk)
  | none =>
      obtain ⟨c', s', gs', hreq, hcap', hstep, hrep'⟩ :=
        request_miss hrep hne hrun.size_le r t.2 hk
      refine ⟨_, hreq, s', hd, gs', hcap', hrep', ?_⟩
      rw [hmap]
      exact .snoc _ _ _ _ _ _ _ hrun hstep

theorem new_refines (rt : Runtime) (capacity : Nat) :
    ∃ c, LFUCache.new rt capacity = some c ∧ Refines capacity [] (c, []) := by
  obtain ⟨c, hd, hnew, hlay, hfreq, -, hcap, hkmap, hfmap⟩ := new_spec rt capacity
  refine ⟨c, hnew, Cache.empty, hd, [], hcap, ?_, .nil⟩
  refine ⟨hlay, hfreq, ?_, List.Pairwise.nil, ?_, ?_, ?_, ?_, ?_⟩
  · intro g hg
    cases hg
  · intro g hg
    cases hg
  · intro g hg
    cases hg
  · intro k hk
    exact absurd hk Finmap.notMem_empty
  · rw [hkmap]
    rfl
  · rw [hfmap]
    rfl

theorem requests_refine {capacity : Nat} (hcap : 0 < capacity) {c : LFUCache}
    (hnew : Refines capacity [] (c, [])) (rs : List Request) :
    ∃ t, exec (request (· + 1)) (c, []) rs = some t ∧ Refines capacity rs t := by
  induction rs using List.reverseRecOn with
  | nil => exact ⟨(c, []), rfl, hnew⟩
  | append_singleton rs r ih =>
      obtain ⟨t, ht, href⟩ := ih
      obtain ⟨t', ht', href'⟩ := request_refines hcap href r
      exact ⟨t', exec_concat_eq_some.mpr ⟨t, ht, ht'⟩, href'⟩

/-- **The cache refines the reference LFU cache.** Every sequence of requests, served by a new
cache of capacity at least one, leads the cache through the states of the reference: the
answers are the reference's, the resident keys are its entries, each in the group labelled with
one more than its hits and in the order of the last accesses, and there are at most `capacity`
of them. The reference has no other run. -/
theorem cache_refines (rt : Runtime) (capacity : Nat) (hcap : 0 < capacity) (rs : List Request) :
    ∃ c₀ c outs s hd gs, LFUCache.new rt capacity = some c₀ ∧
      exec (request (· + 1)) (c₀, []) rs = some (c, outs) ∧
      ReferenceLfu.Run capacity (rs.map fun r => (r.key, r.val)) outs s ∧
      Represents c s hd gs ∧ c.kmap.keys.card ≤ capacity ∧
      ∀ outs' s', ReferenceLfu.Run capacity (rs.map fun r => (r.key, r.val)) outs' s' →
        outs' = outs ∧ s' = s := by
  obtain ⟨c₀, hnew, hstart⟩ := new_refines rt capacity
  obtain ⟨⟨c, outs⟩, hexec, s, hd, gs, -, hrep, hrun⟩ := requests_refine hcap hstart rs
  refine ⟨c₀, c, outs, s, hd, gs, hnew, hexec, hrun, hrep, ?_,
    fun outs' s' h' => h'.functional hrun⟩
  rw [kmap_card hrep]
  exact hrun.size_le

/-- The allocators that never reuse an address that is taken. -/
def behind : Runtime where
  keys := Allocator.behind Key
  freqs := Allocator.behind KeyList
  inc := (· + 1)

/-- A hit between three misses, the last of them on a full cache. -/
def sampleRequests : List Request :=
  [([97], [1]), ([98], [2]), ([97], [3]), ([99], [4])].map fun r =>
    { keys := behind.keys, freqs := behind.freqs, key := r.1, val := r.2 }

theorem cache_refines_sample :
    0 < 2 ∧ ∃ c₀ c outs s hd gs, LFUCache.new behind 2 = some c₀ ∧
      exec (request (· + 1)) (c₀, []) sampleRequests = some (c, outs) ∧
      ReferenceLfu.Run 2 (sampleRequests.map fun r => (r.key, r.val)) outs s ∧
      Represents c s hd gs ∧ c.kmap.keys.card ≤ 2 ∧
      ∀ outs' s', ReferenceLfu.Run 2 (sampleRequests.map fun r => (r.key, r.val)) outs' s' →
        outs' = outs ∧ s' = s :=
  ⟨by decide, cache_refines behind 2 (by decide) sampleRequests⟩

end Request

end HttpWebserver.Lfu
