import HttpWebserver.LFUCache.LFUCache
import Mathlib.Tactic.Abel
import Mathlib.Data.Multiset.AddSub

/-!
# LFUCache — the lists in the heap

`Layout c gs loose` says that the heaps of the cache `c` hold exactly the frequency list `gs`,
each group with its list of keys, and the key nodes `loose` that are in no list at the moment.
The first group is the head node, whose list stays empty.

Each operation of the source has one lemma about layouts; together they are all the later
modules need to know about pointers:

* `newFreq_spec`, `nextFreq_spec`: a group behind a given one;
* `onList_add`, `onList_del`: a node into and out of a group;
* `del_spec`: a group gone from the list.
-/

namespace HttpWebserver.Lfu

open LinkedHeap

/-- A frequency node and the nodes of its list, the most recently added first. -/
structure Group where
  addr : Nat
  freq : Int
  dummy : Nat
  nodes : List (Nat × Key)

namespace Group

/-- The list of the group with its dummy node. -/
def cells (g : Group) : List (Nat × Key) := (g.dummy, default) :: g.nodes

def list (g : Group) : KeyList where
  freq := g.freq
  dummyHead := some g.dummy
  tail := lastPtr none g.cells

/-- The group as a node of the frequency list. -/
def entry (g : Group) : Nat × KeyList := (g.addr, g.list)

end Group

def entries (gs : List Group) : List (Nat × KeyList) := gs.map Group.entry

def keyAddrs (gs : List Group) : List Nat := gs.flatMap fun g => addrs g.cells

@[simp] theorem entries_append (gs gs' : List Group) :
    entries (gs ++ gs') = entries gs ++ entries gs' := List.map_append

@[simp] theorem entries_cons (g : Group) (gs : List Group) :
    entries (g :: gs) = (g.addr, g.list) :: entries gs := rfl

@[simp] theorem keyAddrs_append (gs gs' : List Group) :
    keyAddrs (gs ++ gs') = keyAddrs gs ++ keyAddrs gs' := List.flatMap_append

@[simp] theorem keyAddrs_cons (g : Group) (gs : List Group) :
    keyAddrs (g :: gs) = addrs g.cells ++ keyAddrs gs := rfl

@[simp] theorem keyAddrs_nil : keyAddrs [] = [] := rfl

theorem addrs_cells_subset {g : Group} {gs : List Group} (hg : g ∈ gs) {a : Nat}
    (ha : a ∈ addrs g.cells) : a ∈ keyAddrs gs := List.mem_flatMap.mpr ⟨g, hg, ha⟩

structure Layout (c : LFUCache) (gs : List Group) (loose : List (Nat × Key)) : Prop where
  head : c.dummyHead = firstPtr none (entries gs)
  chain : Linked c.freqHeap none (entries gs) none
  lists : ∀ g ∈ gs, Linked c.keyHeap none g.cells none
  looseNodes : ∀ x ∈ loose, ∃ n, c.keyHeap.lookup x.1 = some n ∧ n.value = x.2
  freqNodup : (addrs (entries gs)).Nodup
  keyNodup : (keyAddrs gs ++ addrs loose).Nodup
  freqOnly : ∀ a ∈ c.freqHeap, a ∈ addrs (entries gs)
  keyOnly : ∀ a ∈ c.keyHeap, a ∈ keyAddrs gs ++ addrs loose

namespace KeyList

/-! ## One list of keys

The operations of `KeyList`, on the nodes behind its dummy node. -/

section List

variable {h : KeyHeap} {d b : Nat} {v k : Key} {xs ys : List (Nat × Key)}

/-- `add` puts a node in front. -/
theorem add_spec (freq : Int) (hl : Linked h none ((d, v) :: xs) none) {n : Node Key}
    (hn : h.lookup b = some n) (hnd : (b :: addrs ((d, v) :: xs)).Nodup) :
    ∃ h', add { freq := freq, dummyHead := some d, tail := lastPtr none ((d, v) :: xs) } h (some b)
        = some ({ freq := freq, dummyHead := some d,
                  tail := lastPtr none ((d, v) :: (b, n.value) :: xs) }, h') ∧
      Linked h' none ((d, v) :: (b, n.value) :: xs) none ∧
      Frame h h' (b :: addrs ((d, v) :: xs)) := by
  -- the new node is neither the dummy nor on the list
  rw [List.nodup_cons] at hnd
  obtain ⟨hb, hnd'⟩ := hnd
  have hbd : b ≠ d := fun h => hb (h ▸ List.mem_cons_self)
  have hdx : d ∉ addrs xs := (List.nodup_cons.mp hnd').1
  have hhead : h.lookup d = some ⟨v, none, firstPtr none xs⟩ := hl.1
  -- its successor first, then its predecessor, then the dummy
  obtain ⟨h₁, h₂, hh₁, hh₂, hd₂, hxs₂, hb₂, hf₁, hf₂⟩ :=
    link_next (show Linked h none ([(d, v)] ++ xs) none from hl) hnd' hb hn
  have hhead₁ : h₁.lookup d = some ⟨v, none, firstPtr none xs⟩ := by
    rw [hf₁.same d hdx]; exact hhead
  obtain ⟨h₃, hh₃, hb₃, hf₃⟩ := update_spec hb₂ fun n => { n with pre := some d }
  have hd₃ : h₃.lookup d = some ⟨v, none, firstPtr none xs⟩ := by
    rw [hf₃.same d fun hmem => hbd (List.mem_singleton.mp hmem).symm]; exact hd₂.1
  obtain ⟨h₄, hh₄, hd₄, hf₄⟩ := update_spec hd₃ fun n => { n with next := some b }
  -- what `add` returns, and the list from the front
  refine ⟨h₄, ?_, ⟨hd₄, ?_, ?_⟩, ?_⟩
  · have htail : (if firstPtr none xs = none then
          { freq := freq, dummyHead := some d, tail := some b : KeyList }
        else { freq := freq, dummyHead := some d, tail := lastPtr (some d) xs })
        = { freq := freq, dummyHead := some d, tail := lastPtr (some b) xs } := by
      cases xs with
      | nil => rfl
      | cons x xs => rfl
    have hfull : isEmpty { freq := freq, dummyHead := some d, tail := lastPtr (some b) xs }
        = false := by
      obtain ⟨a, ha, hlast⟩ := lastPtr_cons_mem none (b, n.value) xs
      have hne : d ≠ a := by
        rcases List.mem_cons.mp ha with hab | hax
        · exact fun hda => hbd (hab.symm.trans hda.symm)
        · exact fun hda => hdx (hda ▸ hax)
      rw [isEmpty, show lastPtr (some b) xs = some a from hlast]
      simpa using hne
    unfold add setNext setPre at *
    simp only [load_some, hhead, hh₁, hhead₁, hh₂, hh₃, hh₄, Option.bind_eq_bind,
      Option.bind_some, lastPtr, htail, hfull, Bool.false_eq_true, if_false]
  · rw [hf₄.same b fun hmem => hbd (List.mem_singleton.mp hmem)]
    exact hb₃
  · refine (hxs₂.frame hf₃ fun a ha hab => ?_).frame hf₄ fun a ha had => ?_
    · exact hb (List.mem_singleton.mp hab ▸ List.mem_cons_of_mem _ ha)
    · exact hdx (List.mem_singleton.mp had ▸ ha)
  · refine ((hf₂.trans hf₃).trans hf₄).mono fun a ha => ?_
    simp only [addrs_cons, List.mem_append, List.mem_cons, List.not_mem_nil, or_false] at ha ⊢
    tauto

/-- `del` takes a node out; the node itself stays allocated. -/
theorem del_spec (freq : Int) (hl : Linked h none ((d, v) :: (xs ++ (b, k) :: ys)) none)
    (hnd : (addrs ((d, v) :: (xs ++ (b, k) :: ys))).Nodup) :
    ∃ h' n, del { freq := freq, dummyHead := some d,
                  tail := lastPtr none ((d, v) :: (xs ++ (b, k) :: ys)) } h (some b)
        = some ({ freq := freq, dummyHead := some d,
                  tail := lastPtr none ((d, v) :: (xs ++ ys)) }, h') ∧
      Linked h' none ((d, v) :: (xs ++ ys)) none ∧ h'.lookup b = some n ∧ n.value = k ∧
      Frame h h' (addrs ((d, v) :: xs) ++ addrs ys) := by
  obtain ⟨h₁, h₂, hb, hh₁, hb₁, hh₂, hb₂, hl₂, hf₂⟩ :=
    unlink_spec (show Linked h none (((d, v) :: xs) ++ (b, k) :: ys) none from hl) (by simp) hnd
  -- the tail moves back where the last node was deleted
  have htail : (if firstPtr none ys = none then
        { freq := freq, dummyHead := some d, tail := lastPtr (some d) xs : KeyList }
      else { freq := freq, dummyHead := some d, tail := lastPtr (some d) (xs ++ (b, k) :: ys) })
      = { freq := freq, dummyHead := some d, tail := lastPtr (some d) (xs ++ ys) } := by
    rw [lastPtr_append, lastPtr_append]
    cases ys with
    | nil => rfl
    | cons y ys => rfl
  refine ⟨h₂, _, ?_, hl₂, hb₂, rfl, hf₂⟩
  simp only [lastPtr] at hb hh₁ hb₁ hh₂
  unfold del
  simp only [load_some, hb, hh₁, hb₁, hh₂, Option.bind_eq_bind, Option.bind_some, lastPtr, htail]

theorem destroyLoop_spec {freq : Int} {p tail : Option Nat} (hl : Linked h p xs none)
    (hnd : (addrs xs).Nodup) {fuel : Nat} (hfuel : xs.length < fuel) :
    ∃ h', destroyLoop fuel { freq := freq, dummyHead := firstPtr none xs, tail := tail } h
        = some ({ freq := freq, dummyHead := none, tail := tail }, h') ∧
      ∀ a, h'.lookup a = if a ∈ addrs xs then none else h.lookup a := by
  induction xs generalizing h p fuel with
  | nil =>
      obtain ⟨fuel, rfl⟩ : ∃ m, fuel = m + 1 := ⟨fuel - 1, by omega⟩
      exact ⟨h, rfl, fun a => rfl⟩
  | cons x xs ih =>
      obtain ⟨fuel, rfl⟩ : ∃ m, fuel = m + 1 := ⟨fuel - 1, by omega⟩
      obtain ⟨hx, hxs⟩ := hl
      rw [addrs_cons, List.nodup_cons] at hnd
      obtain ⟨h', hh', hlook⟩ := ih (hxs.erase_other hnd.1) hnd.2
        (show xs.length < fuel from by simpa using hfuel)
      refine ⟨h', ?_, fun a => ?_⟩
      · simp only [destroyLoop, firstPtr, load_some, hx, free, Option.bind_eq_bind,
          Option.bind_some, if_pos (mem_of_lookup hx)]
        exact hh'
      · rw [hlook, addrs_cons]
        rcases eq_or_ne a x.1 with rfl | hne
        · rw [if_pos List.mem_cons_self, Finmap.lookup_erase, ite_self]
        · rw [Finmap.lookup_erase_ne hne]
          simp only [List.mem_cons, hne, false_or]

/-- `destroy` frees the nodes of the list, its dummy node among them. -/
theorem destroy_spec {freq : Int} {tail : Option Nat} (hl : Linked h none ((d, v) :: xs) none)
    (hnd : (addrs ((d, v) :: xs)).Nodup) :
    ∃ h', destroy { freq := freq, dummyHead := some d, tail := tail } h
        = some ({ freq := freq, dummyHead := none, tail := tail }, h') ∧
      ∀ a, h'.lookup a = if a ∈ addrs ((d, v) :: xs) then none else h.lookup a :=
  destroyLoop_spec hl hnd (Nat.lt_succ_of_le (hl.length_le hnd))

end List

end KeyList

theorem Group.list_isEmpty {g : Group} (hnd : (addrs g.cells).Nodup) :
    g.list.isEmpty = true ↔ g.nodes = [] := by
  obtain ⟨addr, freq, d, nodes⟩ := g
  simp only [Group.list, KeyList.isEmpty, Group.cells, lastPtr, beq_iff_eq]
  cases nodes with
  | nil => simp [lastPtr]
  | cons x xs =>
      obtain ⟨a, ha, hlast⟩ := lastPtr_cons_mem (some d) x xs
      have hd : d ∉ addrs (x :: xs) := (List.nodup_cons.mp hnd).1
      rw [hlast]
      simp only [Option.some.injEq, reduceCtorEq, iff_false]
      exact fun hda => hd (hda ▸ ha)

/-! ## Reading a layout

A layout gives each group's nodes a part of the heap of their own. -/

section Layout

variable (rt : Runtime) {c : LFUCache} {L R : List Group} {g : Group}
  {loose loose' : List (Nat × Key)} {b : Nat} {k : Key} {xs ys : List (Nat × Key)}

/-- One group's nodes and the loose ones, apart from all other nodes. -/
theorem keyAddrs_perm (L R : List Group) (g : Group) (loose : List (Nat × Key)) :
    (keyAddrs (L ++ g :: R) ++ addrs loose).Perm
      ((addrs g.cells ++ addrs loose) ++ keyAddrs (L ++ R)) := by
  rw [keyAddrs_append, keyAddrs_cons, keyAddrs_append, ← Multiset.coe_eq_coe]
  simp only [← Multiset.coe_add]
  abel

theorem Layout.lookup_freq (h : Layout c (L ++ g :: R) loose) :
    c.freqHeap.lookup g.addr
      = some ⟨g.list, lastPtr none (entries L), firstPtr none (entries R)⟩ := by
  have hchain := h.chain
  rw [entries_append, entries_cons] at hchain
  exact (linked_append.mp hchain).2.1

theorem Layout.mem_group (_ : Layout c (L ++ g :: R) loose) : g ∈ L ++ g :: R :=
  List.mem_append_right _ List.mem_cons_self

theorem Layout.cells_nodup (h : Layout c (L ++ g :: R) loose) : (addrs g.cells).Nodup := by
  have hnd := (keyAddrs_perm L R g loose).nodup_iff.mp h.keyNodup
  rw [List.nodup_append, List.nodup_append] at hnd
  exact hnd.1.1

theorem Layout.lookup_key (h : Layout c (L ++ g :: R) loose) (hb : (b, k) ∈ g.nodes) :
    ∃ n, c.keyHeap.lookup b = some n ∧ n.value = k := by
  obtain ⟨xs, ys, hnodes⟩ := List.append_of_mem hb
  have hl := h.lists g h.mem_group
  rw [Group.cells, hnodes] at hl
  exact ⟨_, (linked_append.mp hl.2).2.1, rfl⟩

theorem Layout.isEmpty_iff (h : Layout c (L ++ g :: R) loose) :
    g.list.isEmpty = true ↔ g.nodes = [] := Group.list_isEmpty h.cells_nodup

/-- Another group's nodes are neither nodes of `g` nor loose. -/
theorem Layout.other_group (h : Layout c (L ++ g :: R) loose) {g' : Group}
    (hg' : g' ∈ L ++ R) {a : Nat} (ha : a ∈ addrs g'.cells) :
    a ∉ addrs g.cells ++ addrs loose := by
  have hnd := (keyAddrs_perm L R g loose).nodup_iff.mp h.keyNodup
  rw [List.nodup_append] at hnd
  exact fun hmem => hnd.2.2 a hmem a (addrs_cells_subset hg' ha) rfl

theorem mem_cons_middle {g' x : Group} (h : g' ∈ L ++ x :: R) : g' = x ∨ g' ∈ L ++ R := by
  rcases List.mem_append.mp h with hL | hR
  · exact .inr (List.mem_append_left _ hL)
  · rcases List.mem_cons.mp hR with rfl | hR
    · exact .inl rfl
    · exact .inr (List.mem_append_right _ hR)

/-! ## Operations on one group

Whatever a call does with the nodes of one group and the loose ones, the other groups keep their
nodes and their lists. -/

/-- A call on the list of `g` that keeps to the nodes of `g` and the loose ones. -/
theorem Layout.onList (h : Layout c (L ++ g :: R) loose) (g' : Group)
    (loose' : List (Nat × Key)) {keyHeap : KeyHeap}
    (f : KeyList → KeyHeap → Option (KeyList × KeyHeap))
    (hf : f g.list c.keyHeap = some (g'.list, keyHeap)) (haddr : g'.addr = g.addr)
    (hl : Linked keyHeap none g'.cells none)
    (hframe : Frame c.keyHeap keyHeap (addrs g.cells ++ addrs loose))
    (hperm : (addrs g'.cells ++ addrs loose').Perm (addrs g.cells ++ addrs loose))
    (hloose : ∀ x ∈ loose', ∃ n, keyHeap.lookup x.1 = some n ∧ n.value = x.2) :
    ∃ freqHeap, c.onList (some g.addr) f
        = some { c with keyHeap := keyHeap, freqHeap := freqHeap } ∧
      Layout { c with keyHeap := keyHeap, freqHeap := freqHeap } (L ++ g' :: R) loose' := by
  -- only the value of the group's node changes in the chain of groups
  have hchain := h.chain
  have hfnd := h.freqNodup
  rw [entries_append, entries_cons] at hchain hfnd
  obtain ⟨freqHeap, hfreq, hchain', hfframe⟩ := setValue_mid (w := g'.list) hchain hfnd
  have hentries : entries (L ++ g' :: R) = entries L ++ (g.addr, g'.list) :: entries R := by
    rw [entries_append, entries_cons, haddr]
  have haddrs : addrs (entries (L ++ g' :: R)) = addrs (entries (L ++ g :: R)) := by
    rw [hentries, entries_append, entries_cons, addrs_append, addrs_append, addrs_cons, addrs_cons]
  have hperm' : (keyAddrs (L ++ g' :: R) ++ addrs loose').Perm
      (keyAddrs (L ++ g :: R) ++ addrs loose) :=
    (keyAddrs_perm L R g' loose').trans
      ((hperm.append_right _).trans (keyAddrs_perm L R g loose).symm)
  -- the fields of the layout, in their order
  refine ⟨freqHeap, ?_, ?_, ?_, fun x hx => ?_, hloose, ?_, hperm'.nodup_iff.mpr h.keyNodup,
    fun a ha => ?_, fun a ha => ?_⟩
  · simp only [LFUCache.onList, load_some, h.lookup_freq, hf, hfreq, Option.bind_eq_bind,
      Option.bind_some]
  · show c.dummyHead = _
    rw [h.head, hentries, entries_append, entries_cons, firstPtr_append, firstPtr_append]
    rfl
  · rw [hentries]
    exact hchain'
  · -- the list of another group has no node of this one
    rcases mem_cons_middle hx with rfl | hx
    · exact hl
    · refine (h.lists x ?_).frame hframe fun a ha => h.other_group hx ha
      rcases List.mem_append.mp hx with hL | hR
      · exact List.mem_append_left _ hL
      · exact List.mem_append_right _ (List.mem_cons_of_mem _ hR)
  · rw [haddrs]
    exact h.freqNodup
  · rw [haddrs]
    refine h.freqOnly a ?_
    rwa [← Finmap.mem_keys, ← hfframe.keys, Finmap.mem_keys]
  · refine hperm'.mem_iff.mpr (h.keyOnly a ?_)
    rwa [← Finmap.mem_keys, ← hframe.keys, Finmap.mem_keys]

/-- A loose node goes to the front of a group. -/
theorem onList_add (h : Layout c (L ++ g :: R) ((b, k) :: loose)) :
    ∃ keyHeap freqHeap, c.onList (some g.addr) (fun l h => l.add h (some b))
        = some { c with keyHeap := keyHeap, freqHeap := freqHeap } ∧
      Layout { c with keyHeap := keyHeap, freqHeap := freqHeap }
        (L ++ { g with nodes := (b, k) :: g.nodes } :: R) loose := by
  obtain ⟨n, hn, hk⟩ := h.looseNodes (b, k) List.mem_cons_self
  have hnd := (keyAddrs_perm L R g ((b, k) :: loose)).nodup_iff.mp h.keyNodup
  rw [List.nodup_append] at hnd
  have hperm : (addrs g.cells ++ addrs ((b, k) :: loose)).Perm
      (b :: addrs g.cells ++ addrs loose) := List.perm_middle
  have hnd' := hperm.nodup_iff.mp hnd.1
  rw [List.nodup_append] at hnd'
  obtain ⟨keyHeap, hadd, hl, hframe⟩ :=
    KeyList.add_spec g.freq (h.lists g h.mem_group) hn hnd'.1
  have hk' : n.value = k := hk
  subst hk'
  obtain ⟨freqHeap, hon, hlay⟩ := h.onList { g with nodes := (b, n.value) :: g.nodes } loose
    (fun l h => l.add h (some b)) hadd rfl hl
    (hframe.mono fun a ha => hperm.mem_iff.mpr (List.mem_append_left _ ha))
    (((List.Perm.swap _ _ _).append_right _).trans hperm.symm)
    (fun x hx => by
      obtain ⟨m, hm, hmx⟩ := h.looseNodes x (List.mem_cons_of_mem _ hx)
      refine ⟨m, ?_, hmx⟩
      rw [hframe.same x.1 fun hmem => hnd'.2.2 x.1 hmem x.1 (mem_addrs hx) rfl]
      exact hm)
  exact ⟨keyHeap, freqHeap, hon, hlay⟩

/-- A node of a group becomes loose. -/
theorem onList_del (h : Layout c (L ++ g :: R) loose) (hnodes : g.nodes = xs ++ (b, k) :: ys) :
    ∃ keyHeap freqHeap, c.onList (some g.addr) (fun l h => l.del h (some b))
        = some { c with keyHeap := keyHeap, freqHeap := freqHeap } ∧
      Layout { c with keyHeap := keyHeap, freqHeap := freqHeap }
        (L ++ { g with nodes := xs ++ ys } :: R) ((b, k) :: loose) := by
  have hl := h.lists g h.mem_group
  have hnd := h.cells_nodup
  have hlist : g.list = KeyList.mk g.freq (some g.dummy)
      (lastPtr none ((g.dummy, default) :: (xs ++ (b, k) :: ys))) := by
    rw [Group.list, Group.cells, hnodes]
  -- the nodes of all groups are different, so those of other groups are in the frame
  have hsplit := (keyAddrs_perm L R g loose).nodup_iff.mp h.keyNodup
  rw [List.nodup_append, List.nodup_append] at hsplit
  rw [Group.cells, hnodes] at hl hnd
  obtain ⟨keyHeap, n, hdel, hl', hb, hk, hframe⟩ := KeyList.del_spec g.freq hl hnd
  rw [← hlist] at hdel
  have hcells : addrs g.cells = g.dummy :: (addrs xs ++ b :: addrs ys) := by
    rw [Group.cells, hnodes, addrs_cons, addrs_append, addrs_cons]
  have hsub : ∀ a ∈ addrs ((g.dummy, (default : Key)) :: xs) ++ addrs ys, a ∈ addrs g.cells := by
    intro a ha
    rw [hcells]
    simp only [addrs_cons, List.mem_append, List.mem_cons] at ha ⊢
    tauto
  -- the node moves from the list to the loose nodes
  have hperm : (addrs (Group.cells { g with nodes := xs ++ ys }) ++ addrs ((b, k) :: loose)).Perm
      (addrs g.cells ++ addrs loose) := by
    rw [hcells, Group.cells, addrs_cons, addrs_append, addrs_cons]
    have hmid : (addrs xs ++ addrs ys ++ b :: addrs loose).Perm
        (addrs xs ++ b :: addrs ys ++ addrs loose) := by
      simpa using (List.perm_middle.trans (List.Perm.refl _)).append_left (addrs xs)
    exact hmid.cons _
  obtain ⟨freqHeap, hon, hlay⟩ := h.onList { g with nodes := xs ++ ys } ((b, k) :: loose)
    (fun l h => l.del h (some b)) hdel rfl hl'
    (hframe.mono fun a ha => List.mem_append_left _ (hsub a ha)) hperm
    (fun x hx => by
      rcases List.mem_cons.mp hx with rfl | hx
      · exact ⟨n, hb, hk⟩
      · obtain ⟨m, hm, hmx⟩ := h.looseNodes x hx
        refine ⟨m, ?_, hmx⟩
        rw [hframe.same x.1 fun hmem => hsplit.1.2.2 x.1 (hsub x.1 hmem) x.1
          (mem_addrs hx) rfl]
        exact hm)
  exact ⟨keyHeap, freqHeap, hon, hlay⟩

/-! ## Operations on the frequency list -/

/-- `del` on a group behind the head: the group and its nodes are freed. -/
theorem del_spec (h : Layout c (L ++ g :: R) loose) (hL : L ≠ []) :
    ∃ keyHeap freqHeap, c.del (some g.addr)
        = some { c with keyHeap := keyHeap, freqHeap := freqHeap } ∧
      Layout { c with keyHeap := keyHeap, freqHeap := freqHeap } (L ++ R) loose := by
  have hchain := h.chain
  have hfnd := h.freqNodup
  rw [entries_append, entries_cons] at hchain hfnd
  have hne : entries L ≠ [] := fun hnil => hL (List.map_eq_nil_iff.mp hnil)
  obtain ⟨f₁, f₂, hg, hf₁, hg₁, hf₂, hg₂, hchain₂, hframe₂⟩ := unlink_spec hchain hne hfnd
  have hnd := (keyAddrs_perm L R g loose).nodup_iff.mp h.keyNodup
  rw [List.nodup_append, List.nodup_append] at hnd
  obtain ⟨keyHeap, hdestroy, hlook⟩ : ∃ keyHeap, g.list.destroy c.keyHeap
        = some (KeyList.mk g.freq none (lastPtr none g.cells), keyHeap) ∧
      ∀ a, keyHeap.lookup a = if a ∈ addrs g.cells then none else c.keyHeap.lookup a :=
    KeyList.destroy_spec (h.lists g h.mem_group) h.cells_nodup
  obtain ⟨f₃, hf₃, hg₃, hframe₃⟩ := update_spec hg₂ fun n =>
    { n with value := KeyList.mk g.freq none (lastPtr none g.cells) }
  rw [addrs_append, List.nodup_append, addrs_cons, List.nodup_cons] at hfnd
  have hgL : g.addr ∉ addrs (entries L ++ entries R) := by
    rw [addrs_append, List.mem_append, not_or]
    exact ⟨fun hmem => hfnd.2.2 _ hmem _ List.mem_cons_self rfl, hfnd.2.1.1⟩
  have hmem₃ : ∀ a, a ∈ f₃ ↔ a ∈ c.freqHeap := fun a => by
    rw [← Finmap.mem_keys, hframe₃.keys, hframe₂.keys, Finmap.mem_keys]
  refine ⟨keyHeap, f₃.erase g.addr, ?_, ?_, ?_, fun x hx => ?_, fun x hx => ?_, ?_, ?_,
    fun a ha => ?_, fun a ha => ?_⟩
  · simp only [LFUCache.del, LFUCache.onList, setValue, load_some, hg, hf₁, hg₁, hf₂, hg₂, hf₃,
      hdestroy, free, Option.bind_eq_bind, Option.bind_some, if_pos (mem_of_lookup hg₃)]
  · show c.dummyHead = _
    rw [h.head, entries_append, entries_append, firstPtr_append, firstPtr_append]
    exact firstPtr_of_ne_nil _ _ hne
  · rw [entries_append]
    refine (hchain₂.frame hframe₃ fun a ha hag => ?_).erase_other hgL
    exact hgL (List.mem_singleton.mp hag ▸ ha)
  · -- the lists of the other groups
    have hx' : x ∈ L ++ g :: R := by
      rcases List.mem_append.mp hx with hL | hR
      · exact List.mem_append_left _ hL
      · exact List.mem_append_right _ (List.mem_cons_of_mem _ hR)
    refine (h.lists x hx').congr fun a ha => ?_
    have hag := h.other_group hx ha
    rw [List.mem_append, not_or] at hag
    exact (hlook a).trans (if_neg hag.1)
  · obtain ⟨n, hn, hnx⟩ := h.looseNodes x hx
    refine ⟨n, ?_, hnx⟩
    have hxg : x.1 ∉ addrs g.cells := fun hmem =>
      hnd.1.2.2 x.1 hmem x.1 (mem_addrs hx) rfl
    exact ((hlook x.1).trans (if_neg hxg)).trans hn
  · rw [entries_append, addrs_append]
    rw [List.nodup_append]
    exact ⟨hfnd.1, hfnd.2.1.2, fun a ha b hb => hfnd.2.2 a ha b (List.mem_cons_of_mem _ hb)⟩
  · have hperm : (keyAddrs (L ++ R) ++ addrs loose).Perm (addrs loose ++ keyAddrs (L ++ R)) :=
      List.perm_append_comm
    rw [hperm.nodup_iff, List.nodup_append]
    exact ⟨hnd.1.2.1, hnd.2.1, fun a ha b hb =>
      hnd.2.2 a (List.mem_append_right _ ha) b hb⟩
  · rw [Finmap.mem_erase, hmem₃] at ha
    have hin := h.freqOnly a ha.2
    rw [entries_append, entries_cons, addrs_append, addrs_cons, List.mem_append,
      List.mem_cons] at hin
    rw [entries_append, addrs_append, List.mem_append]
    exact hin.imp id fun hin => hin.resolve_left ha.1
  · have hlk := hlook a
    rw [← Finmap.lookup_isSome] at ha
    rw [hlk] at ha
    split at ha
    · cases ha
    · next hag =>
      have hin := (keyAddrs_perm L R g loose).mem_iff.mp
        (h.keyOnly a (Finmap.lookup_isSome.mp ha))
      rw [List.mem_append, List.mem_append] at hin
      rw [List.mem_append]
      rcases hin with (hin | hin) | hin
      · exact absurd hin hag
      · exact .inr hin
      · exact .inl hin

/-- A new frequency node with an empty list, in no list of nodes yet. -/
theorem newFreq_spec (rt : Runtime) (c : LFUCache) (freq : Int) :
    c.newFreq rt freq
      = some (some (rt.freqs.choose c.freqHeap),
          { c with
            keyHeap := c.keyHeap.insert (rt.keys.choose c.keyHeap) ⟨default, none, none⟩
            freqHeap := c.freqHeap.insert (rt.freqs.choose c.freqHeap)
              ⟨KeyList.mk freq (some (rt.keys.choose c.keyHeap)) (some (rt.keys.choose c.keyHeap)),
                none, none⟩ }) := by
  simp only [LFUCache.newFreq, LFUCache.onList, alloc, KeyList.init, load_some, setValue, update,
    Finmap.lookup_insert, Finmap.insert_insert, Option.bind_eq_bind, Option.bind_some,
    Option.map_some]

/-- `n` is the group of the next frequency behind `g`, found in `R` or put before it. -/
def Behind (inc : Int → Int) (g : Group) (R : List Group) (n : Group) (R' : List Group) : Prop :=
  n.freq = inc g.freq ∧
    (R = n :: R' ∨ (R' = R ∧ n.nodes = [] ∧ ∀ m R'', R = m :: R'' → m.freq ≠ inc g.freq))

theorem nextFreq_found {n : Group} (h : Layout c (L ++ g :: n :: R) loose)
    (hfreq : n.freq = rt.inc g.freq) : c.nextFreq rt (some g.addr) = some (some n.addr, c) := by
  have hg := h.lookup_freq
  have hn := Layout.lookup_freq (L := L ++ [g]) (R := R) (g := n) (by simpa using h)
  have hvalue : n.list.freq = rt.inc g.list.freq := hfreq
  simp [LFUCache.nextFreq, LFUCache.lacksNext, load_some, hg, entries_cons, firstPtr, hn, hvalue]

theorem Layout.mem_keyHeap (h : Layout c L loose) {a : Nat}
    (ha : a ∈ keyAddrs L ++ addrs loose) : a ∈ c.keyHeap := by
  rcases List.mem_append.mp ha with ha | ha
  · obtain ⟨g, hg, ha⟩ := List.mem_flatMap.mp ha
    exact (h.lists g hg).mem ha
  · obtain ⟨x, hx, rfl⟩ := List.mem_map.mp ha
    obtain ⟨n, hn, -⟩ := h.looseNodes x hx
    exact mem_of_lookup hn

/-- The test of `addFreq` where the next frequency is not there. -/
theorem lacksNext_missing (h : Layout c (L ++ g :: R) loose)
    (hfreq : ∀ m R'', R = m :: R'' → m.freq ≠ rt.inc g.freq) :
    c.lacksNext rt ⟨g.list, lastPtr none (entries L), firstPtr none (entries R)⟩ = some true := by
  cases R with
  | nil => rfl
  | cons m R =>
      have hm := Layout.lookup_freq (L := L ++ [g]) (R := R) (g := m) (by simpa using h)
      simp only [LFUCache.lacksNext, entries_cons, firstPtr, load_some, hm, Option.map_some,
        Option.some.injEq, decide_eq_true_eq]
      exact hfreq m R rfl

/-- The entries up to a group, and those behind it. -/
theorem entries_split (L R : List Group) (g : Group) :
    entries (L ++ g :: R) = (entries L ++ [(g.addr, g.list)]) ++ entries R := by
  rw [entries_append, entries_cons, List.append_assoc]
  rfl

/-- An empty group adds its dummy node. -/
theorem keyAddrs_insert {n : Group} (hn : n.nodes = []) :
    (keyAddrs (L ++ g :: n :: R) ++ addrs loose).Perm
      (n.dummy :: (keyAddrs (L ++ g :: R) ++ addrs loose)) := by
  have hone := keyAddrs_perm (L ++ [g]) R n loose
  have hcells : addrs n.cells = [n.dummy] := by rw [Group.cells, hn]; rfl
  have htwo : (addrs loose ++ keyAddrs (L ++ g :: R)).Perm
      (keyAddrs (L ++ g :: R) ++ addrs loose) := List.perm_append_comm
  rw [show L ++ [g] ++ n :: R = L ++ g :: n :: R from by simp,
    show L ++ [g] ++ R = L ++ g :: R from by simp, List.append_assoc, hcells] at hone
  exact hone.trans (htwo.cons n.dummy)

/-- The layout with a new group behind `g`, its node linked in and its dummy node stored. -/
theorem Layout.insert_group (h : Layout c (L ++ g :: R) loose) {n : Group} (hn : n.nodes = [])
    (hb : n.addr ∉ c.freqHeap) (hd : n.dummy ∉ c.keyHeap) {freqHeap : FreqHeap}
    (hlinked : Linked freqHeap none
      ((entries L ++ [(g.addr, g.list)]) ++ (n.addr, n.list) :: entries R) none)
    (hmem : ∀ a, a ∈ freqHeap ↔ a = n.addr ∨ a ∈ c.freqHeap) :
    Layout { c with
      keyHeap := c.keyHeap.insert n.dummy ⟨default, none, none⟩
      freqHeap := freqHeap } (L ++ g :: n :: R) loose := by
  -- the new group has two new addresses, its own and that of its dummy node
  have hkeys : (keyAddrs (L ++ g :: n :: R) ++ addrs loose).Perm
      (n.dummy :: (keyAddrs (L ++ g :: R) ++ addrs loose)) := keyAddrs_insert hn
  have hentries : entries (L ++ g :: n :: R)
      = (entries L ++ [(g.addr, g.list)]) ++ (n.addr, n.list) :: entries R := entries_split L _ g
  have hperm : (addrs (entries (L ++ g :: n :: R))).Perm
      (n.addr :: addrs (entries (L ++ g :: R))) := by
    rw [hentries, entries_split, addrs_append, addrs_cons, addrs_append (_ ++ _)]
    exact List.perm_middle
  -- the fields of the layout, in their order
  refine ⟨?_, ?_, fun x hx => ?_, fun x hx => ?_, ?_, ?_, fun a ha => ?_, fun a ha => ?_⟩
  · show c.dummyHead = _
    rw [h.head, hentries, entries_append, entries_cons, firstPtr_append, firstPtr_append,
      firstPtr_append]
    rfl
  · rw [hentries]
    exact hlinked
  · rcases List.mem_append.mp hx with hL | hR
    · exact (h.lists x (List.mem_append_left _ hL)).insert_fresh hd _
    · rcases List.mem_cons.mp hR with rfl | hR
      · exact (h.lists x h.mem_group).insert_fresh hd _
      · rcases List.mem_cons.mp hR with rfl | hR
        · -- the new list has its dummy node only
          rw [Group.cells, hn]
          exact ⟨Finmap.lookup_insert _, trivial⟩
        · exact (h.lists x (List.mem_append_right _ (List.mem_cons_of_mem _ hR))).insert_fresh
            hd _
  · obtain ⟨m, hm, hmx⟩ := h.looseNodes x hx
    refine ⟨m, ?_, hmx⟩
    have hxd : x.1 ≠ n.dummy := fun heq => hd (heq ▸ mem_of_lookup hm)
    exact (Finmap.lookup_insert_of_ne _ hxd).trans hm
  · rw [hperm.nodup_iff, List.nodup_cons]
    exact ⟨fun hin => hb (h.chain.mem hin), h.freqNodup⟩
  · rw [hkeys.nodup_iff, List.nodup_cons]
    exact ⟨fun hin => hd (h.mem_keyHeap hin), h.keyNodup⟩
  · rw [hperm.mem_iff, List.mem_cons]
    exact ((hmem a).mp ha).imp id (h.freqOnly a)
  · rw [hkeys.mem_iff, List.mem_cons]
    exact (Finmap.mem_insert.mp ha).imp id (h.keyOnly a)

theorem nextFreq_missing (h : Layout c (L ++ g :: R) loose)
    (hfreq : ∀ m R'', R = m :: R'' → m.freq ≠ rt.inc g.freq) :
    ∃ n keyHeap freqHeap, c.nextFreq rt (some g.addr)
        = some (some n.addr, { c with keyHeap := keyHeap, freqHeap := freqHeap }) ∧
      n.freq = rt.inc g.freq ∧ n.nodes = [] ∧
      Layout { c with keyHeap := keyHeap, freqHeap := freqHeap } (L ++ g :: n :: R) loose := by
  have hg := h.lookup_freq
  have hb := rt.freqs.fresh c.freqHeap
  have hd := rt.keys.fresh c.keyHeap
  have hnew := newFreq_spec rt c (rt.inc g.freq)
  generalize rt.freqs.choose c.freqHeap = b at hb hnew
  generalize rt.keys.choose c.keyHeap = d at hd hnew
  -- the new group, linked in behind `g`
  let n : Group := { addr := b, freq := rt.inc g.freq, dummy := d, nodes := [] }
  have hchain := h.chain
  have hfnd := h.freqNodup
  rw [entries_split] at hchain hfnd
  obtain ⟨f₁, f₂, f₃, f₄, hf₁, hf₂, hf₃, hf₄, hlinked, hmem⟩ :=
    insert_behind hchain (by simp) hfnd hb n.list
  rw [lastPtr_append] at hf₃ hf₄
  refine ⟨n, _, f₄, ?_, rfl, rfl, h.insert_group rfl hb hd hlinked hmem⟩
  have hlacks : c.lacksNext rt ⟨g.list, lastPtr none (entries L), firstPtr none (entries R)⟩
      = some true := lacksNext_missing rt h hfreq
  have hg₁ : (c.freqHeap.insert b ⟨n.list, none, none⟩).lookup g.addr
      = some ⟨g.list, lastPtr none (entries L), firstPtr none (entries R)⟩ := by
    have hne : g.addr ≠ b := fun heq => hb (heq ▸ mem_of_lookup hg)
    rw [Finmap.lookup_insert_of_ne _ hne]
    exact hg
  have hnew' : c.newFreq rt (rt.inc g.list.freq) = some (some b, { c with
      keyHeap := c.keyHeap.insert d ⟨default, none, none⟩
      freqHeap := c.freqHeap.insert b ⟨n.list, none, none⟩ }) := hnew
  simp only [LFUCache.nextFreq, load_some, hg, Option.bind_eq_bind, Option.bind_some, hlacks,
    if_true, hnew', hg₁, hf₁, hf₂]
  simp only [show setNext f₂ (some g.addr) (some b) = some f₃ from hf₃,
    show setPre f₃ (some b) (some g.addr) = some f₄ from hf₄, Option.bind_some]
  rfl

theorem nextFreq_spec (h : Layout c (L ++ g :: R) loose) :
    ∃ n R' keyHeap freqHeap, Behind rt.inc g R n R' ∧
      c.nextFreq rt (some g.addr)
        = some (some n.addr, { c with keyHeap := keyHeap, freqHeap := freqHeap }) ∧
      Layout { c with keyHeap := keyHeap, freqHeap := freqHeap } (L ++ g :: n :: R') loose := by
  by_cases hfound : ∃ n R', R = n :: R' ∧ n.freq = rt.inc g.freq
  · obtain ⟨n, R', rfl, hfreq⟩ := hfound
    exact ⟨n, R', c.keyHeap, c.freqHeap, ⟨hfreq, .inl rfl⟩, nextFreq_found rt h hfreq, h⟩
  · have hmissing : ∀ m R'', R = m :: R'' → m.freq ≠ rt.inc g.freq :=
      fun m R'' hR hfreq => hfound ⟨m, R'', hR, hfreq⟩
    obtain ⟨n, keyHeap, freqHeap, hnext, hfreq, hnodes, hlay⟩ := nextFreq_missing rt h hmissing
    exact ⟨n, R, keyHeap, freqHeap, ⟨hfreq, .inr ⟨rfl, hnodes, hmissing⟩⟩, hnext, hlay⟩

/-! ## Loose nodes

A node that is in no list: one that was just made, or was just taken out and is moved or freed
next. -/

/-- A layout does not speak of the maps. -/
theorem Layout.maps (h : Layout c L loose) (kmap fmap : Finmap fun _ : Str => Option Nat) :
    Layout { c with kmap := kmap, fmap := fmap } L loose :=
  ⟨h.head, h.chain, h.lists, h.looseNodes, h.freqNodup, h.keyNodup, h.freqOnly, h.keyOnly⟩

theorem Layout.new_loose (h : Layout c L loose) (hb : b ∉ c.keyHeap) (k : Key) :
    Layout { c with keyHeap := c.keyHeap.insert b ⟨k, none, none⟩ } L ((b, k) :: loose) := by
  refine ⟨h.head, h.chain, fun g hg => (h.lists g hg).insert_fresh hb _, fun x hx => ?_,
    h.freqNodup, ?_, h.freqOnly, fun a ha => ?_⟩
  · rcases List.mem_cons.mp hx with rfl | hx
    · exact ⟨_, Finmap.lookup_insert _, rfl⟩
    · obtain ⟨n, hn, hnx⟩ := h.looseNodes x hx
      have hxb : x.1 ≠ b := fun heq => hb (heq ▸ mem_of_lookup hn)
      exact ⟨n, (Finmap.lookup_insert_of_ne _ hxb).trans hn, hnx⟩
  · rw [addrs_cons, List.nodup_middle, List.nodup_cons]
    exact ⟨fun hmem => hb (h.mem_keyHeap hmem), h.keyNodup⟩
  · rw [addrs_cons, List.mem_append, List.mem_cons]
    rcases Finmap.mem_insert.mp ha with hab | ha
    · exact .inr (.inl hab)
    · exact (List.mem_append.mp (h.keyOnly a ha)).imp id .inr

theorem Layout.free_loose (h : Layout c L ((b, k) :: loose)) :
    free c.keyHeap (some b) = some (c.keyHeap.erase b) ∧
      Layout { c with keyHeap := c.keyHeap.erase b } L loose := by
  obtain ⟨n, hn, -⟩ := h.looseNodes (b, k) List.mem_cons_self
  have hnd := h.keyNodup
  rw [addrs_cons, List.nodup_middle, List.nodup_cons, List.mem_append, not_or] at hnd
  refine ⟨if_pos (mem_of_lookup hn), h.head, h.chain, fun g hg => ?_, fun x hx => ?_,
    h.freqNodup, hnd.2, h.freqOnly, fun a ha => ?_⟩
  · exact (h.lists g hg).erase_other fun hmem => hnd.1.1 (addrs_cells_subset hg hmem)
  · obtain ⟨m, hm, hmx⟩ := h.looseNodes x (List.mem_cons_of_mem _ hx)
    have hxl : x.1 ∈ addrs loose := mem_addrs hx
    have hxb : x.1 ≠ b := fun heq => hnd.1.2 (heq ▸ hxl)
    exact ⟨m, (Finmap.lookup_erase_ne hxb).trans hm, hmx⟩
  · obtain ⟨hab, ha⟩ := Finmap.mem_erase.mp ha
    have hin := h.keyOnly a ha
    rw [addrs_cons, List.mem_append, List.mem_cons] at hin
    rw [List.mem_append]
    exact hin.imp id fun hin => hin.resolve_left hab

end Layout

end HttpWebserver.Lfu
