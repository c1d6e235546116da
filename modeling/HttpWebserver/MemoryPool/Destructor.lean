import HttpWebserver.MemoryPool.Routes
import Mathlib.Data.List.Nodup

/-!
# MemoryPool — the destructors

The model of `~MemoryPool` of `MemoryPool/MemoryPool.cc`, for the array of pools at the end of the
program. A pool walks its blocks through their headers, and gives each to `operator delete`.

* `deleteBlocks`: the loop. What `operator delete` leaves of a block is up to it (`junk`), so that a
  header may only be read before.
* `deleteBlocks_spec`: where the headers are a chain of blocks, the loop ends and deletes these
  blocks and no other region;
* **`pools_destroyed`** — after every run the destructors end, delete each block once, and leave
  the regions of the large objects that are still there.
-/

namespace HttpWebserver.MemoryPool

open ByteMemory Machine

namespace Heap

/-- The block is deleted; what is in it now is not known. -/
def overwrite (m : Memory) (b : Nat) (junk : Memory) : Memory := fun x =>
  if b ≤ x ∧ x < b + BlockSize then junk x else m x

/-- The loop of `~MemoryPool` at `cur`, for so many rounds. -/
def deleteBlocks (junk : Memory) : Nat → Heap → Nat → Option Heap
  | 0, _, _ => none
  | rounds + 1, h, cur =>
    if cur = 0 then some h
    else
      let next := readWord h.memory cur
      (h.operatorDelete cur).bind fun h' =>
        deleteBlocks junk rounds { h' with memory := overwrite h'.memory cur junk } next

/-- The destructors of the pools with the given indices. -/
def destroyPools (junk : Memory) (rounds : Nat) : List Nat → Heap → Option Heap
  | [], h => some h
  | i :: is, h => (deleteBlocks junk rounds h (h.memorypool i).currentBlock).bind fun h' =>
    destroyPools junk rounds is h'

/-- `memorypool_[64]`: the last element goes first. -/
def destructors (junk : Memory) (rounds : Nat) (h : Heap) : Option Heap :=
  destroyPools junk rounds (List.range 64).reverse h

/-! ## One pool

`~MemoryPool` reads the address of the next block from the block before it deletes it; what a
deleted block holds is not known any more. -/

section Delete

variable {h : Heap} {b : Nat} {r : Region} {as : List Nat} {rest : List Region}

/-- The regions of some blocks. -/
def regionsOf (as : List Nat) : List Region := as.map fun b => ⟨b, BlockSize⟩

/-- The live regions do not meet, and none is empty or at null. -/
structure Disjoint (regions : List Region) : Prop where
  apart : regions.Pairwise Region.Apart
  pos : ∀ r ∈ regions, 0 < r.start ∧ 0 < r.size

theorem Disjoint.perm {regions : List Region} (hd : Disjoint regions) {regions' : List Region}
    (hperm : regions.Perm regions') : Disjoint regions' :=
  ⟨hperm.pairwise hd.apart fun hrq => hrq.symm, fun r hr => hd.pos r (hperm.mem_iff.mpr hr)⟩

theorem Disjoint.of_cons {regions : List Region} (hd : Disjoint (r :: regions)) :
    Disjoint regions ∧ ∀ q ∈ regions, r.Apart q := by
  have hapart := List.pairwise_cons.mp hd.apart
  exact ⟨⟨hapart.2, fun q hq => hd.pos q (List.mem_cons_of_mem _ hq)⟩, hapart.1⟩

/-- A region is found by its start. -/
theorem operatorDelete_region (hd : Disjoint h.regions) (hr : r ∈ h.regions) :
    h.operatorDelete r.start = some { h with regions := h.regions.erase r } := by
  have hpos := hd.pos r hr
  have hfound : ∃ q, (h.regions.find? fun q => q.start = r.start) = some q := by
    apply Option.isSome_iff_exists.mp
    rw [List.find?_isSome]
    exact ⟨r, hr, by simp⟩
  obtain ⟨q, hq⟩ := hfound
  have hmem := List.mem_of_find?_eq_some hq
  have hstart : q.start = r.start := by simpa using List.find?_some hq
  have heq : q = r := by
    by_contra hne
    have hsize := hd.pos q hmem
    rcases hd.apart.forall hmem hr hne with hapart | hapart <;> omega
  unfold operatorDelete
  rw [if_neg (by omega), hq, heq]

theorem overwrite_outside {m junk : Memory} {x : Nat} (hx : x < b ∨ b + BlockSize ≤ x) :
    overwrite m b junk x = m x := if_neg (by omega)

/-- **The loop.** It needs one round more than there are blocks. -/
theorem deleteBlocks_spec (junk : Memory) {rounds : Nat} (hd : Disjoint h.regions)
    (hchain : Chain h.memory b as) (hregions : h.regions.Perm (regionsOf as ++ rest))
    (hrounds : as.length < rounds) :
    ∃ h', deleteBlocks junk rounds h b = some h' ∧ h'.regions.Perm rest ∧
      h'.memorypool = h.memorypool ∧
      ∀ x, (∀ a ∈ as, x < a ∨ a + BlockSize ≤ x) → h'.memory x = h.memory x := by
  induction as generalizing rounds h b with
  | nil =>
    obtain ⟨n, rfl⟩ : ∃ n, rounds = n + 1 := ⟨rounds - 1, by simp at hrounds; omega⟩
    exact ⟨h, if_pos hchain, hregions, rfl, fun _ _ => rfl⟩
  | cons a as ih =>
    obtain ⟨rfl, hpos, hnext⟩ := hchain
    obtain ⟨n, rfl⟩ : ∃ n, rounds = n + 1 := ⟨rounds - 1, by omega⟩
    have hmem : (⟨b, BlockSize⟩ : Region) ∈ h.regions :=
      hregions.mem_iff.mpr (List.mem_append_left _ List.mem_cons_self)
    have hdelete := operatorDelete_region hd hmem
    -- the regions behind this one
    have herase : (h.regions.erase ⟨b, BlockSize⟩).Perm (regionsOf as ++ rest) := by
      have hcons := (List.perm_cons_erase hmem).symm.trans hregions
      exact hcons.cons_inv
    obtain ⟨hd', hapart⟩ := (hd.perm hregions).of_cons
    have hblocks : ∀ c ∈ as, b + BlockSize ≤ c ∨ c + BlockSize ≤ b := fun c hc =>
      hapart ⟨c, BlockSize⟩ (List.mem_append_left _ (List.mem_map.mpr ⟨c, hc, rfl⟩))
    have hchain' : Chain (overwrite h.memory b junk) (readWord h.memory b) as :=
      hnext.frame fun c hc i hi => overwrite_outside (by
        have hsize : BlockSize = 4096 := rfl
        have := hblocks c hc
        omega)
    obtain ⟨h', hloop, hrest, hpools, hmemory⟩ :=
      ih (h := { h with regions := h.regions.erase ⟨b, BlockSize⟩
                        memory := overwrite h.memory b junk })
        (hd'.perm herase.symm) hchain' herase (by simpa using hrounds : as.length < n)
    refine ⟨h', ?_, hrest, hpools, fun x hx => ?_⟩
    · rw [deleteBlocks, if_neg (by omega)]
      simp only [hdelete, Option.bind_some]
      exact hloop
    · rw [hmemory x fun c hc => hx c (List.mem_cons_of_mem _ hc)]
      exact overwrite_outside (hx b List.mem_cons_self)

end Delete

/-! ## All pools

The blocks of the heap, sorted by their pools. The 64 destructors delete the blocks of one pool
after the other. -/

section Pools

variable {L : Sizes} {h h' : Heap} {is : List Nat} {rest : List Region}

theorem destroyPools_spec (junk : Memory) (blocks : Nat → List Nat) {rounds : Nat}
    (hd : Disjoint h.regions)
    (hchains : ∀ i ∈ is, Chain h.memory (h.memorypool i).currentBlock (blocks i))
    (hregions : h.regions.Perm ((is.flatMap fun i => regionsOf (blocks i)) ++ rest))
    (hrounds : ∀ i ∈ is, (blocks i).length < rounds) :
    ∃ h', destroyPools junk rounds is h = some h' ∧ h'.regions.Perm rest := by
  induction is generalizing h with
  | nil => exact ⟨h, rfl, hregions⟩
  | cons i is ih =>
    rw [List.flatMap_cons, List.append_assoc] at hregions
    obtain ⟨h₁, hloop, hleft, hpools, hmemory⟩ := deleteBlocks_spec junk hd
      (hchains i List.mem_cons_self) hregions (hrounds i List.mem_cons_self)
    have hapart := List.pairwise_append.mp (hd.perm hregions).apart
    have hd₁ : Disjoint h₁.regions := Disjoint.perm
      ⟨hapart.2.1, fun r hr => (hd.perm hregions).pos r (List.mem_append_right _ hr)⟩ hleft.symm
    have hchains₁ : ∀ j ∈ is, Chain h₁.memory (h₁.memorypool j).currentBlock (blocks j) := by
      intro j hj
      rw [hpools]
      refine (hchains j (List.mem_cons_of_mem _ hj)).frame fun a ha k hk => hmemory _ ?_
      -- a header of another pool is outside of the blocks of this one
      intro b hb
      have hmem : (⟨a, BlockSize⟩ : Region) ∈ (is.flatMap fun i => regionsOf (blocks i)) ++ rest :=
        List.mem_append_left _ (List.mem_flatMap.mpr ⟨j, hj, List.mem_map.mpr ⟨a, ha, rfl⟩⟩)
      have hsize : BlockSize = 4096 := rfl
      rcases hapart.2.2 ⟨b, BlockSize⟩ (List.mem_map.mpr ⟨b, hb, rfl⟩) _ hmem with hba | hab
      · simp only at hba
        omega
      · simp only at hab
        omega
    obtain ⟨h', hrest, hperm⟩ :=
      ih hd₁ hchains₁ hleft fun j hj => hrounds j (List.mem_cons_of_mem _ hj)
    refine ⟨h', ?_, hperm⟩
    rw [destroyPools, hloop, Option.bind_some, hrest]

theorem count_filter_eq {α : Type} [BEq α] [LawfulBEq α] (p : α → Bool) (l : List α) (a : α) :
    (l.filter p).count a = if p a then l.count a else 0 := by
  split
  · next hp => exact List.count_filter hp
  · next hp =>
    refine List.count_eq_zero.mpr fun hmem => ?_
    exact hp (List.mem_filter.mp hmem).2

/-- The blocks, pool by pool. -/
theorem blocks_perm (blocks : List (Nat × Nat)) (hnodup : is.Nodup) :
    (is.flatMap fun i => blocks.filter fun b => b.1 = i).Perm
      (blocks.filter fun b => b.1 ∈ is) := by
  induction is with
  | nil => simp
  | cons i is ih =>
    obtain ⟨hi, hnodup⟩ := List.nodup_cons.mp hnodup
    rw [List.flatMap_cons]
    refine ((List.Perm.refl _).append (ih hnodup)).trans (List.perm_iff_count.mpr fun b => ?_)
    rw [List.count_append, count_filter_eq, count_filter_eq, count_filter_eq]
    by_cases hb : b.1 = i
    · simp [hb, hi]
    · simp [hb]

/-- All blocks are of one of the 64 pools. -/
def Indexed (h : Heap) : Prop := ∀ b ∈ h.blocks, b.1 < 64

theorem newElement_indexed {t : Element} {b : Nat} (hi : Indexed h)
    (hn : newElement L h t b = some h') : Indexed h' := by
  obtain ⟨⟨p, h₁⟩, huse, rfl⟩ := Option.map_eq_some_iff.mp hn
  show ∀ b ∈ h₁.blocks, b.1 < 64
  unfold useMemory at huse
  split at huse
  · cases huse
    exact hi
  · split at huse
    · obtain ⟨h₂, hnew, heq⟩ := Option.map_eq_some_iff.mp huse
      cases heq
      unfold operatorNew at hnew
      split at hnew
      · cases hnew
        exact hi
      · cases hnew
    · next hsmall =>
      obtain ⟨-, -, -, -, -, hblocks, -, -⟩ := allocate_spec huse
      rw [hblocks]
      intro c hc
      split at hc
      · rcases List.mem_cons.mp hc with rfl | hc
        · exact poolIndex_lt (Nat.not_lt.mp hsmall)
        · exact hi c hc
      · exact hi c hc

theorem operatorDelete_blocks {p : Nat} (hdelete : h.operatorDelete p = some h') :
    h'.blocks = h.blocks := by
  unfold operatorDelete at hdelete
  split at hdelete
  · cases hdelete
    rfl
  · split at hdelete
    · cases hdelete
    · cases hdelete
      rfl

theorem freeMemory_blocks {size p : Nat} (hfree : h.freeMemory size p = some h') :
    h'.blocks = h.blocks := by
  unfold freeMemory at hfree
  split at hfree
  · cases hfree
    rfl
  · split at hfree
    · exact operatorDelete_blocks hfree
    · cases hfree
      rfl

theorem step_indexed {l : ElementLabel} (hi : Indexed h) (hs : h.step L l = some h') :
    Indexed h' := by
  cases l with
  | construct t b => exact newElement_indexed hi hs
  | destroy t p =>
    simp only [step] at hs
    split at hs
    · obtain ⟨h₁, hrelease, rfl⟩ := Option.map_eq_some_iff.mp hs
      have hblocks : h₁.blocks = h.blocks := by
        cases t with
        | channel => exact operatorDelete_blocks hrelease
        | buffer => exact operatorDelete_blocks hrelease
        | keyNode => exact freeMemory_blocks hrelease
        | keyListNode => exact freeMemory_blocks hrelease
      show ∀ b ∈ h₁.blocks, b.1 < 64
      rw [hblocks]
      exact hi
    · cases hs
  | write t p i v =>
    simp only [step] at hs
    split at hs
    · cases hs
      exact hi
    · cases hs

/-- **The destructors.** For every target, after every run that constructs and writes event loops,
log buffers and nodes of the cache, and releases log buffers and nodes (to release an event loop is
undefined, and no run does it): the destructors of the pools end, whatever `operator delete` leaves
in a block. Each block is deleted once, nothing else is, and the regions left are those of the large
objects that have not been released. -/
theorem pools_destroyed {m : Memory} {ls : List ElementLabel}
    (hrun : exec (step L) (start m) ls = some h) (junk : Memory) {rounds : Nat}
    (hrounds : h.blocks.length < rounds) :
    ∃ h', h.destructors junk rounds = some h' ∧ h'.regions.Perm (largeRegions L h.objects) ∧
      h.regions.Perm (blockRegions h.blocks ++ h'.regions) := by
  -- the invariant of the whole run: every block belongs to one of the 64 pools
  obtain ⟨hsound, hindexed⟩ : Sound L h ∧ Indexed h :=
    exec_invariant (I := fun h => Sound L h ∧ Indexed h)
      (fun _ _ _ hi hs => ⟨step_sound hi.1 hs, step_indexed hi.2 hs⟩)
      ⟨start_sound L m, nofun⟩ hrun
  have hd : Disjoint h.regions :=
    ⟨hsound.apart, fun r hr => ⟨hsound.pos r hr, hsound.region_size hr⟩⟩
  -- so the chains of the 64 pools are all blocks
  have hall : (h.blocks.filter fun b => b.1 ∈ (List.range 64).reverse) = h.blocks := by
    refine List.filter_eq_self.mpr fun b hb => ?_
    simpa using hindexed b hb
  have hblocks : ((List.range 64).reverse.flatMap fun i => regionsOf (blocksOf h.blocks i)).Perm
      (blockRegions h.blocks) := by
    have hperm := (blocks_perm h.blocks
      (List.nodup_reverse.2 (List.nodup_range (n := 64)))).map fun b => (⟨b.2, BlockSize⟩ : Region)
    rw [hall, List.map_flatMap] at hperm
    refine List.Perm.trans (List.Perm.of_eq ?_) hperm
    refine congrArg List.flatten (List.map_congr_left fun i _ => ?_)
    exact List.map_map
  -- each chain is followed through the first words of its blocks
  have hchains : ∀ i ∈ (List.range 64).reverse,
      Chain h.memory (h.memorypool i).currentBlock (blocksOf h.blocks i) :=
    fun i hi => (hsound.pools i (by simpa using hi)).blockChain
  have hlength : ∀ i ∈ (List.range 64).reverse, (blocksOf h.blocks i).length < rounds := by
    intro i _
    have hle : (blocksOf h.blocks i).length ≤ h.blocks.length := by
      rw [blocksOf, List.length_map]
      exact List.length_filter_le _ _
    omega
  obtain ⟨h', hdestroy, hleft⟩ := destroyPools_spec junk (blocksOf h.blocks) hd hchains
    (hsound.owned.trans (List.perm_append_comm.trans (hblocks.symm.append_right _))) hlength
  exact ⟨h', hdestroy, hleft,
    hsound.owned.trans (List.perm_append_comm.trans (hleft.symm.append_left _))⟩

/-- A node of the cache and the channel of a loop, each with a new block, and a log buffer. -/
def twoPools : List ElementLabel :=
  [.construct .keyNode 4096, .construct .channel 8192, .construct .buffer 16384]

theorem pools_destroyed_two :
    ∃ h, exec (step lp64) (start fun _ => 0) twoPools = some h ∧ h.blocks = [(21, 8192), (9, 4096)] ∧
      ∃ h', h.destructors (fun _ => 255) 3 = some h' ∧
        h'.regions.Perm (largeRegions lp64 h.objects) ∧
        h.regions.Perm (blockRegions h.blocks ++ h'.regions) :=
  ⟨_, rfl, rfl, pools_destroyed (L := lp64) (show exec (step lp64) _ twoPools = _ from rfl) _
    (by decide)⟩

end Pools

end Heap

end HttpWebserver.MemoryPool
