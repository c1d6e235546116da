import HttpWebserver.MemoryPool.Elements
import HttpWebserver.MemoryPool.Slots

/-!
# MemoryPool — memory goes back to where it came from

Each pool alone keeps its slots in its blocks (`Inv`). Here the 64 pools and the regions from
`operator new` share a memory: what one of them writes is in a region of its own.

* `view`: what one pool sees of the heap, with `Inv.of_memory` for the steps of the others;
* `Sound`: all pools keep their invariant, and the live regions are the blocks and the large
  objects, so a slot is never the start of a region (`operatorDelete_slot`);
* `allocate_sound`, `deAllocate_sound`, …: the steps;
* **`released_iff`** — every release is by the route that `useMemory` took, exactly when no event
  loop is destroyed.
-/

namespace HttpWebserver.MemoryPool

open ByteMemory Machine

/-! ## Sizes and their pools -/

section Sizes

theorem poolIndex_lt {size : Nat} (hle : size ≤ 512) : poolIndex size < 64 := by
  unfold poolIndex
  rw [Nat.shiftRight_eq_div_pow]
  omega

/-- The slots of the pool are large enough. -/
theorem size_le_slot (size : Nat) : size ≤ 8 * (poolIndex size + 1) := by
  unfold poolIndex
  rw [Nat.shiftRight_eq_div_pow]
  omega

end Sizes

/-! ## One pool in a shared memory

The invariant of a pool speaks of the whole memory. It depends only on the blocks of the pool, so
that steps of other pools and writes elsewhere keep it. -/

section Shared

variable {s : State}

/-- Others write into the memory, and not into the blocks of the pool. -/
theorem Inv.of_memory (h : Inv s) {m : Memory}
    (hsame : ∀ b ∈ s.blocks, ∀ i < BlockSize, m (b + i) = s.memory (b + i)) :
    Inv { s with memory := m } := by
  have hsize := h.size
  have hblock : BlockSize = 4096 := rfl
  have hchains := h.chains (m := m) fun a ha i hi => ?_
  · exact inv_move h rfl (List.Perm.refl _) hchains.1 hchains.2
  · rcases ha with ha | ha
    · -- the first word of a freed slot is in its block
      obtain ⟨b, hb, hlo, hhi⟩ := (h.inBlock a (List.mem_append_right _ ha)).block
      have hin := hsame b hb (a - b + i) (by omega)
      rwa [show b + (a - b + i) = a + i by omega] at hin
    · exact hsame a ha i (by omega)

theorem Inv.of_held (h : Inv s) {held : List Nat} (hperm : held.Perm s.held) :
    Inv { s with held := held } :=
  inv_move h rfl (hperm.append_right s.freed) h.freeChain h.blockChain

/-- Only the header of a new block is written. -/
theorem allocate_memory {pool : Pool} {m : Memory} {b x : Nat}
    (hx : pool.NeedsBlock → x < b ∨ b + 8 ≤ x) : (pool.allocate m b).2.2 x = m x := by
  unfold Pool.allocate Pool.nofreeSolve
  split
  · rfl
  · next hfree =>
    split
    · next hfull => exact writeWord_other (hx ⟨not_not.mp hfree, hfull⟩)
    · rfl

theorem deAllocate_memory {pool : Pool} {m : Memory} {p x : Nat} (hx : x < p ∨ p + 8 ≤ x) :
    (pool.deAllocate m p).2 x = m x := by
  unfold Pool.deAllocate
  split
  · exact writeWord_other hx
  · rfl

theorem deAllocate_slotSize (pool : Pool) (m : Memory) (p : Nat) :
    (pool.deAllocate m p).1.slotSize = pool.slotSize := by
  unfold Pool.deAllocate
  split
  · rfl
  · rfl

end Shared

instance : Std.Symm Region.Apart := ⟨fun _ _ h => Or.symm h⟩

namespace Heap

/-! ## The invariant

Each of the 64 pools is in order as it sees the heap, and the live regions are the blocks and the
large objects, apart from each other. -/

section Invariant

variable {L : Sizes} {h h' : Heap} {t : Element} {p i j b : Nat}

/-- The slots that hold objects of the pool with the index `i`. -/
def heldSlots (L : Sizes) (objects : List (Element × Nat)) (i : Nat) : List Nat :=
  (objects.filter fun o => L.sizeof o.1 ≤ 512 ∧ poolIndex (L.sizeof o.1) = i).map Prod.snd

/-- The blocks of the pool with the index `i`. -/
def blocksOf (blocks : List (Nat × Nat)) (i : Nat) : List Nat :=
  (blocks.filter fun b => b.1 = i).map Prod.snd

/-- What the pool with the index `i` sees. -/
def view (L : Sizes) (h : Heap) (i : Nat) : State where
  pool := h.memorypool i
  memory := h.memory
  blocks := blocksOf h.blocks i
  held := heldSlots L h.objects i
  freed := h.freed i

/-- The regions of the objects that are too large for the pools. -/
def largeRegions (L : Sizes) (objects : List (Element × Nat)) : List Region :=
  (objects.filter fun o => 512 < L.sizeof o.1).map fun o => ⟨o.2, L.sizeof o.1⟩

def blockRegions (blocks : List (Nat × Nat)) : List Region :=
  blocks.map fun b => ⟨b.2, BlockSize⟩

structure Sound (L : Sizes) (h : Heap) : Prop where
  slotSize : ∀ i, (h.memorypool i).slotSize = 8 * (i + 1)
  pools : ∀ i < 64, Inv (h.view L i)
  owned : h.regions.Perm (largeRegions L h.objects ++ blockRegions h.blocks)
  apart : h.regions.Pairwise Region.Apart
  pos : ∀ r ∈ h.regions, 0 < r.start

theorem mem_heldSlots {objects : List (Element × Nat)} (hmem : (t, p) ∈ objects)
    (hsmall : L.sizeof t ≤ 512) : p ∈ heldSlots L objects (poolIndex (L.sizeof t)) :=
  List.mem_map.mpr ⟨(t, p), List.mem_filter.mpr ⟨hmem, by simpa using hsmall⟩, rfl⟩

theorem mem_blocksOf {blocks : List (Nat × Nat)} : b ∈ blocksOf blocks i ↔ (i, b) ∈ blocks := by
  simp [blocksOf]

theorem heldSlots_cons_self {objects : List (Element × Nat)} (hsmall : L.sizeof t ≤ 512) :
    heldSlots L ((t, p) :: objects) (poolIndex (L.sizeof t))
      = p :: heldSlots L objects (poolIndex (L.sizeof t)) := by
  unfold heldSlots
  rw [List.filter_cons_of_pos (by simpa using hsmall), List.map_cons]

theorem heldSlots_cons_other {objects : List (Element × Nat)}
    (hother : ¬ (L.sizeof t ≤ 512 ∧ poolIndex (L.sizeof t) = i)) :
    heldSlots L ((t, p) :: objects) i = heldSlots L objects i := by
  unfold heldSlots
  rw [List.filter_cons_of_neg (by simpa using hother)]

theorem heldSlots_perm {objects objects' : List (Element × Nat)} (hperm : objects.Perm objects')
    (i : Nat) : (heldSlots L objects i).Perm (heldSlots L objects' i) :=
  (hperm.filter _).map _

theorem largeRegions_cons {objects : List (Element × Nat)} : largeRegions L ((t, p) :: objects)
    = if 512 < L.sizeof t then ⟨p, L.sizeof t⟩ :: largeRegions L objects
      else largeRegions L objects := by
  unfold largeRegions
  split
  · next hlarge => rw [List.filter_cons_of_pos (by simpa using hlarge), List.map_cons]
  · next hsmall => rw [List.filter_cons_of_neg (by simpa using hsmall)]

theorem largeRegions_perm {objects objects' : List (Element × Nat)}
    (hperm : objects.Perm objects') :
    (largeRegions L objects).Perm (largeRegions L objects') :=
  (hperm.filter _).map _

/-! ## Where the objects are -/

theorem Sound.region_of_block (hs : Sound L h) (hb : (i, b) ∈ h.blocks) :
    ⟨b, BlockSize⟩ ∈ h.regions := by
  apply hs.owned.mem_iff.mpr
  exact List.mem_append_right _ (List.mem_map.mpr ⟨(i, b), hb, rfl⟩)

theorem Sound.region_of_object (hs : Sound L h) (ht : (t, p) ∈ h.objects)
    (hlarge : 512 < L.sizeof t) : ⟨p, L.sizeof t⟩ ∈ h.regions := by
  apply hs.owned.mem_iff.mpr
  apply List.mem_append_left
  exact List.mem_map.mpr ⟨(t, p), List.mem_filter.mpr ⟨ht, by simpa using hlarge⟩, rfl⟩

theorem Sound.region_size (hs : Sound L h) {r : Region} (hr : r ∈ h.regions) : 0 < r.size := by
  rcases List.mem_append.mp (hs.owned.mem_iff.mp hr) with hr | hr
  · obtain ⟨o, -, rfl⟩ := List.mem_map.mp hr
    exact L.pos o.1
  · obtain ⟨b, -, rfl⟩ := List.mem_map.mp hr
    show 0 < BlockSize
    decide

/-- No region starts inside another one. -/
theorem Sound.start_outside (hs : Sound L h) {r q : Region} (hr : r ∈ h.regions)
    (hq : q ∈ h.regions) (hne : r ≠ q) : r.start < q.start ∨ q.start + q.size ≤ r.start := by
  have hsize := hs.region_size hr
  rcases hs.apart.forall hr hq hne with hapart | hapart
  · left
    omega
  · exact .inr hapart

/-- The slot of an object is in a block of its pool, behind the header. -/
theorem Sound.slot (hs : Sound L h) (ht : (t, p) ∈ h.objects) (hsmall : L.sizeof t ≤ 512) :
    ∃ b, (poolIndex (L.sizeof t), b) ∈ h.blocks ∧ b + 8 ≤ p ∧
      p + 8 * (poolIndex (L.sizeof t) + 1) ≤ b + BlockSize := by
  have hinv := hs.pools _ (poolIndex_lt hsmall)
  obtain ⟨b, hb, hlo, hhi⟩ :=
    (hinv.inBlock p (List.mem_append_left _ (mem_heldSlots ht hsmall))).block
  refine ⟨b, mem_blocksOf.mp hb, hlo, ?_⟩
  rw [← hs.slotSize]
  exact hhi

/-- Blocks of different pools do not meet. -/
theorem Sound.blocks_apart (hs : Sound L h) {c : Nat} (hb : (i, b) ∈ h.blocks)
    (hc : (j, c) ∈ h.blocks) (hne : i ≠ j) : b + BlockSize ≤ c ∨ c + BlockSize ≤ b := by
  have hpair := (hs.owned.pairwise_iff fun {r q} hrq => hrq.symm).mp hs.apart
  have hblocks := List.pairwise_map.mp (List.pairwise_append.mp hpair).2.1
  have hsymm : Std.Symm fun x y : Nat × Nat =>
      Region.Apart ⟨x.2, BlockSize⟩ ⟨y.2, BlockSize⟩ := ⟨fun _ _ hxy => hxy.symm⟩
  exact hblocks.forall hb hc fun heq => hne (Prod.mk.inj heq).1

/-! ## `operator delete`

It is defined only for the start of a live region. A slot of a pool lies behind the header of its
block and is never one. -/

/-- A slot is not the start of a region. -/
theorem operatorDelete_slot (hs : Sound L h) (ht : (t, p) ∈ h.objects)
    (hsmall : L.sizeof t ≤ 512) : h.operatorDelete p = none := by
  obtain ⟨b, hb, hlo, hhi⟩ := hs.slot ht hsmall
  have hregion := hs.region_of_block hb
  have hpos := hs.pos _ hregion
  unfold operatorDelete
  rw [if_neg (by simp only at hpos; omega)]
  have hnone : (h.regions.find? fun r => r.start = p) = none := by
    rw [List.find?_eq_none]
    intro r hr hstart
    have hstart : r.start = p := by simpa using hstart
    have hne : r ≠ ⟨b, BlockSize⟩ := by
      rintro rfl
      simp only at hstart
      omega
    -- the region would start inside the block of the slot
    have hout := hs.start_outside hr hregion hne
    simp only at hout
    omega
  rw [hnone]

theorem operatorDelete_object (hs : Sound L h) (ht : (t, p) ∈ h.objects)
    (hlarge : 512 < L.sizeof t) :
    h.operatorDelete p = some { h with regions := h.regions.erase ⟨p, L.sizeof t⟩ } := by
  have hregion := hs.region_of_object ht hlarge
  have hpos := hs.pos _ hregion
  unfold operatorDelete
  rw [if_neg (show p ≠ 0 by simp only at hpos; omega)]
  have hfound : ∃ r, (h.regions.find? fun r => r.start = p) = some r := by
    apply Option.isSome_iff_exists.mp
    rw [List.find?_isSome]
    exact ⟨_, hregion, by simp⟩
  obtain ⟨r, hr⟩ := hfound
  rw [hr]
  have hmem := List.mem_of_find?_eq_some hr
  have hstart : r.start = p := by simpa using List.find?_some hr
  have heq : r = ⟨p, L.sizeof t⟩ := by
    by_contra hne
    have hout := hs.start_outside hmem hregion hne
    simp only at hout
    omega
  rw [heq]

end Invariant

/-! ## The steps

An object of a pool is a step of that pool, seen from its view, and a frame for all other pools. A
large object is a region of its own. -/

section Steps

variable {L : Sizes} {h h' : Heap} {t : Element} {p b : Nat} {l : ElementLabel}

theorem start_sound (L : Sizes) (m : Memory) : Sound L (start m) where
  slotSize i := by
    show (i + 1) <<< 3 = 8 * (i + 1)
    rw [Nat.shiftLeft_eq]
    omega
  pools i hi := by
    have hslot : (i + 1) <<< 3 = 8 * (i + 1) := by
      rw [Nat.shiftLeft_eq]
      omega
    refine start_inv (Nat.dvd_mul_right 8 (i + 1)) (by omega) (by omega) ?_ m
    unfold init
    rw [if_pos (by omega)]
    show _ = some (Pool.mk ((i + 1) <<< 3) 0 0 0 0)
    rw [hslot]
  owned := .nil
  apart := .nil
  pos := nofun

/-- A pool whose blocks a step has not written to. -/
theorem Sound.view_memory (hs : Sound L h) {j : Nat} (hj : j < 64) {m : Memory}
    (hsame : ∀ c, (j, c) ∈ h.blocks → ∀ k < BlockSize, m (c + k) = h.memory (c + k)) :
    Inv { h.view L j with memory := m } :=
  (hs.pools j hj).of_memory fun c hc k hk => hsame c (mem_blocksOf.mp hc) k hk

theorem allocate_spec {i : Nat} (ha : h.allocate i b = some (p, h')) :
    ((h.memorypool i).NeedsBlock → FreshRegion h.regions ⟨b, BlockSize⟩) ∧
      p = ((h.memorypool i).allocate h.memory b).1 ∧
      h'.memory = ((h.memorypool i).allocate h.memory b).2.2 ∧
      h'.memorypool
        = Function.update h.memorypool i ((h.memorypool i).allocate h.memory b).2.1 ∧
      h'.regions = (if (h.memorypool i).NeedsBlock then ⟨b, BlockSize⟩ :: h.regions
        else h.regions) ∧
      h'.blocks = (if (h.memorypool i).NeedsBlock then (i, b) :: h.blocks else h.blocks) ∧
      h'.freed = Function.update h.freed i ((h.freed i).erase p) ∧ h'.objects = h.objects := by
  unfold allocate at ha
  simp only at ha
  split at ha
  · next hfresh =>
    cases ha
    exact ⟨hfresh, rfl, rfl, rfl, rfl, rfl, rfl, rfl⟩
  · cases ha

/-- The step of one pool does not change the size of its slots. -/
theorem Sound.update_slotSize (hs : Sound L h) {i : Nat} {pool : Pool}
    (hpool : pool.slotSize = (h.memorypool i).slotSize) (j : Nat) :
    (Function.update h.memorypool i pool j).slotSize = 8 * (j + 1) := by
  rcases eq_or_ne j i with rfl | hne
  · rw [Function.update_self, hpool]
    exact hs.slotSize j
  · rw [Function.update_of_ne hne]
    exact hs.slotSize j

/-- In the pool of the object `allocate` is the pool's own step. -/
theorem allocate_own (hs : Sound L h) (hsmall : L.sizeof t ≤ 512)
    (ha : h.allocate (poolIndex (L.sizeof t)) b = some (p, h')) :
    Inv (view L { h' with objects := (t, p) :: h'.objects } (poolIndex (L.sizeof t))) := by
  obtain ⟨hfresh, hp, hmemory, hpool, -, hblocks, hfreed, hobjects⟩ := allocate_spec ha
  have hfresh' : (h.view L (poolIndex (L.sizeof t))).pool.NeedsBlock →
      FreshBlock (h.view L (poolIndex (L.sizeof t))).blocks b := by
    intro hneeds
    obtain ⟨haligned, hpos, hspace, hapart⟩ := hfresh hneeds
    exact ⟨haligned, hpos, hspace, fun c hc =>
      hapart _ (hs.region_of_block (mem_blocksOf.mp hc))⟩
  have hstep : (h.view L (poolIndex (L.sizeof t))).step (.allocate b)
      = some (view L { h' with objects := (t, p) :: h'.objects } (poolIndex (L.sizeof t))) := by
    rw [State.step, if_pos hfresh']
    unfold view
    simp only [hmemory, hpool, hblocks, hfreed, hobjects, hp, Function.update_self,
      heldSlots_cons_self hsmall]
    split
    · simp [blocksOf]
    · rfl
  exact step_inv (hs.pools _ (poolIndex_lt hsmall)) hstep

/-- The blocks of another pool do not meet the header of a new block. -/
theorem allocate_other (hs : Sound L h) {j : Nat} (hj : j < 64)
    (hne : j ≠ poolIndex (L.sizeof t))
    (ha : h.allocate (poolIndex (L.sizeof t)) b = some (p, h')) :
    Inv (view L { h' with objects := (t, p) :: h'.objects } j) := by
  obtain ⟨hfresh, -, hmemory, hpool, -, hblocks, hfreed, hobjects⟩ := allocate_spec ha
  have hsame := hs.view_memory hj (m := h'.memory) fun c hc k hk => by
    rw [hmemory]
    refine allocate_memory fun hneeds => ?_
    have hapart := (hfresh hneeds).apart _ (hs.region_of_block hc)
    unfold Region.Apart at hapart
    have hblock : BlockSize = 4096 := rfl
    simp only at hapart
    omega
  have hview : view L { h' with objects := (t, p) :: h'.objects } j
      = { h.view L j with memory := h'.memory } := by
    unfold view
    simp only [hpool, hblocks, hfreed, hobjects, Function.update_of_ne hne]
    rw [heldSlots_cons_other fun hboth => hne hboth.2.symm]
    split
    · simp [blocksOf, hne.symm]
    · rfl
  rw [hview]
  exact hsame

/-- The slot that `allocate` returns becomes an object. -/
theorem allocate_sound (hs : Sound L h) (hsmall : L.sizeof t ≤ 512)
    (ha : h.allocate (poolIndex (L.sizeof t)) b = some (p, h')) :
    Sound L { h' with objects := (t, p) :: h'.objects } := by
  obtain ⟨hfresh, -, -, hpool, hregions, hblocks, -, hobjects⟩ := allocate_spec ha
  constructor
  · intro j
    show (h'.memorypool j).slotSize = 8 * (j + 1)
    rw [hpool]
    exact hs.update_slotSize (allocate_slotSize ..) j
  · intro j hj
    rcases eq_or_ne j (poolIndex (L.sizeof t)) with rfl | hne
    · exact allocate_own hs hsmall ha
    · exact allocate_other hs hj hne ha
  · -- a new block is a region and one of the blocks, so both sides grow by it
    show h'.regions.Perm (largeRegions L ((t, p) :: h'.objects) ++ blockRegions h'.blocks)
    rw [largeRegions_cons, if_neg (by omega), hregions, hblocks, hobjects]
    split
    · exact (hs.owned.cons _).trans List.perm_middle.symm
    · exact hs.owned
  · show h'.regions.Pairwise Region.Apart
    rw [hregions]
    split
    · next hneeds => exact List.pairwise_cons.mpr ⟨(hfresh hneeds).apart, hs.apart⟩
    · exact hs.apart
  · show ∀ r ∈ h'.regions, 0 < r.start
    rw [hregions]
    split
    · next hneeds => exact List.forall_mem_cons.mpr ⟨(hfresh hneeds).pos, hs.pos⟩
    · exact hs.pos

theorem heldSlots_erase (ht : (t, p) ∈ h.objects) (hsmall : L.sizeof t ≤ 512) :
    (heldSlots L (h.objects.erase (t, p)) (poolIndex (L.sizeof t))).Perm
      ((heldSlots L h.objects (poolIndex (L.sizeof t))).erase p) := by
  have hperm := heldSlots_perm (L := L) (List.perm_cons_erase ht) (poolIndex (L.sizeof t))
  rw [heldSlots_cons_self hsmall] at hperm
  have herase := hperm.erase p
  rw [List.erase_cons_head] at herase
  exact herase.symm

theorem heldSlots_erase_other {j : Nat} (ht : (t, p) ∈ h.objects)
    (hother : ¬ (L.sizeof t ≤ 512 ∧ poolIndex (L.sizeof t) = j)) :
    (heldSlots L (h.objects.erase (t, p)) j).Perm (heldSlots L h.objects j) := by
  have hperm := heldSlots_perm (L := L) (List.perm_cons_erase ht) j
  rw [heldSlots_cons_other hother] at hperm
  exact hperm.symm

/-- What is written at an object of a pool is not in the blocks of another pool. -/
theorem Sound.outside_of_slot (hs : Sound L h) (ht : (t, p) ∈ h.objects)
    (hsmall : L.sizeof t ≤ 512) {j c : Nat} (hne : j ≠ poolIndex (L.sizeof t))
    (hc : (j, c) ∈ h.blocks) : c + BlockSize ≤ p ∨
      p + 8 * (poolIndex (L.sizeof t) + 1) ≤ c := by
  obtain ⟨b, hb, hlo, hhi⟩ := hs.slot ht hsmall
  rcases hs.blocks_apart hc hb hne with hapart | hapart
  · left
    omega
  · right
    omega

/-- In the pool of the object `deAllocate` is the pool's own step. -/
theorem deAllocate_own (hs : Sound L h) (ht : (t, p) ∈ h.objects) (hsmall : L.sizeof t ≤ 512) :
    Inv (view L { h.deAllocate (poolIndex (L.sizeof t)) p with
      objects := h.objects.erase (t, p) } (poolIndex (L.sizeof t))) := by
  have hheld : p ∈ (h.view L (poolIndex (L.sizeof t))).held := mem_heldSlots ht hsmall
  have hstep : (h.view L (poolIndex (L.sizeof t))).step (.deAllocate p)
      = some { (h.deAllocate (poolIndex (L.sizeof t)) p).view L (poolIndex (L.sizeof t)) with
          held := (heldSlots L h.objects (poolIndex (L.sizeof t))).erase p } := by
    rw [State.step, if_pos hheld]
    unfold view deAllocate
    simp only [Function.update_self]
  have hinv := step_inv (hs.pools _ (poolIndex_lt hsmall)) hstep
  exact hinv.of_held (heldSlots_erase ht hsmall)

/-- The link that `deAllocate` writes is not in a block of another pool. -/
theorem deAllocate_other (hs : Sound L h) (ht : (t, p) ∈ h.objects) (hsmall : L.sizeof t ≤ 512)
    {j : Nat} (hj : j < 64) (hne : j ≠ poolIndex (L.sizeof t)) :
    Inv (view L { h.deAllocate (poolIndex (L.sizeof t)) p with
      objects := h.objects.erase (t, p) } j) := by
  have hsame := hs.view_memory hj
    (m := ((h.memorypool (poolIndex (L.sizeof t))).deAllocate h.memory p).2) fun c hc k hk => by
    apply deAllocate_memory
    rcases hs.outside_of_slot ht hsmall hne hc with hout | hout
    · left
      omega
    · right
      omega
  have hview : (h.deAllocate (poolIndex (L.sizeof t)) p).view L j = { h.view L j with
      memory := ((h.memorypool (poolIndex (L.sizeof t))).deAllocate h.memory p).2 } := by
    unfold view deAllocate
    simp only [Function.update_of_ne hne]
  rw [← hview] at hsame
  exact hsame.of_held (heldSlots_erase_other ht fun hboth => hne hboth.2.symm)

/-- An object of a pool goes back to the pool. -/
theorem deAllocate_sound (hs : Sound L h) (ht : (t, p) ∈ h.objects) (hsmall : L.sizeof t ≤ 512) :
    Sound L { h.deAllocate (poolIndex (L.sizeof t)) p with objects := h.objects.erase (t, p) } := by
  constructor
  · exact hs.update_slotSize (deAllocate_slotSize ..)
  · intro j hj
    rcases eq_or_ne j (poolIndex (L.sizeof t)) with rfl | hne
    · exact deAllocate_own hs ht hsmall
    · exact deAllocate_other hs ht hsmall hj hne
  · show h.regions.Perm (largeRegions L (h.objects.erase (t, p)) ++ blockRegions h.blocks)
    have hperm := largeRegions_perm (L := L) (List.perm_cons_erase ht)
    rw [largeRegions_cons, if_neg (by omega)] at hperm
    exact hs.owned.trans (hperm.append_right _)
  · exact hs.apart
  · exact hs.pos

/-- A large object goes back to `operator delete`. -/
theorem delete_sound (hs : Sound L h) (ht : (t, p) ∈ h.objects) (hlarge : 512 < L.sizeof t) :
    Sound L { h with regions := h.regions.erase ⟨p, L.sizeof t⟩
                     objects := h.objects.erase (t, p) } where
  slotSize := hs.slotSize
  pools j hj := (hs.pools j hj).of_held (heldSlots_erase_other ht fun hboth => by omega)
  owned := by
    have hperm := largeRegions_perm (L := L) (List.perm_cons_erase ht)
    rw [largeRegions_cons, if_pos hlarge] at hperm
    have howned := (hs.owned.trans (hperm.append_right _)).erase ⟨p, L.sizeof t⟩
    rw [List.cons_append, List.erase_cons_head] at howned
    exact howned
  apart := hs.apart.sublist List.erase_sublist
  pos r hr := hs.pos r (List.mem_of_mem_erase hr)

/-- A region from `operator new` becomes an object. -/
theorem new_sound (hs : Sound L h) (hlarge : 512 < L.sizeof t)
    (hfresh : FreshRegion h.regions ⟨b, L.sizeof t⟩) :
    Sound L { h with regions := ⟨b, L.sizeof t⟩ :: h.regions
                     objects := (t, b) :: h.objects } where
  slotSize := hs.slotSize
  pools j hj := by
    have hother : heldSlots L ((t, b) :: h.objects) j = heldSlots L h.objects j :=
      heldSlots_cons_other fun hboth => by omega
    show Inv { h.view L j with held := heldSlots L ((t, b) :: h.objects) j }
    rw [hother]
    exact hs.pools j hj
  owned := by
    show (⟨b, L.sizeof t⟩ :: h.regions).Perm (largeRegions L ((t, b) :: h.objects) ++ _)
    rw [largeRegions_cons, if_pos hlarge]
    exact hs.owned.cons _
  apart := List.pairwise_cons.mpr ⟨hfresh.apart, hs.apart⟩
  pos := List.forall_mem_cons.mpr ⟨hfresh.pos, hs.pos⟩

/-- A write to an object. -/
theorem write_sound (hs : Sound L h) (ht : (t, p) ∈ h.objects) {k : Nat} (hk : k < L.sizeof t)
    (v : UInt8) : Sound L { h with memory := writeByte h.memory (p + k) v } where
  slotSize := hs.slotSize
  pools j hj := by
    show Inv { h.view L j with memory := writeByte h.memory (p + k) v }
    by_cases hsmall : L.sizeof t ≤ 512
    · -- a small object is a slot of one pool; the write is a step of that pool
      have hslot := size_le_slot (L.sizeof t)
      rcases eq_or_ne j (poolIndex (L.sizeof t)) with rfl | hne
      · have hin : p ∈ (h.view L (poolIndex (L.sizeof t))).held ∧
            k < (h.view L (poolIndex (L.sizeof t))).pool.slotSize := by
          refine ⟨mem_heldSlots ht hsmall, ?_⟩
          show k < (h.memorypool _).slotSize
          rw [hs.slotSize]
          omega
        have hstep : (h.view L (poolIndex (L.sizeof t))).step (.write p k v)
            = some { h.view L (poolIndex (L.sizeof t)) with
                memory := writeByte h.memory (p + k) v } := by
          rw [State.step, if_pos hin]
          rfl
        exact step_inv (hs.pools _ hj) hstep
      · -- the blocks of the other pools are elsewhere
        refine hs.view_memory hj fun c hc i hi => writeByte_other ?_
        rcases hs.outside_of_slot ht hsmall hne hc with hout | hout
        · omega
        · omega
    · -- a large object has a region of its own
      have hlarge : 512 < L.sizeof t := Nat.lt_of_not_le hsmall
      refine hs.view_memory hj fun c hc i hi => writeByte_other ?_
      have hpair := (hs.owned.pairwise_iff fun {r q} hrq => hrq.symm).mp hs.apart
      have hapart := (List.pairwise_append.mp hpair).2.2 ⟨p, L.sizeof t⟩
        (List.mem_map.mpr ⟨(t, p), List.mem_filter.mpr ⟨ht, by simpa using hlarge⟩, rfl⟩)
        ⟨c, BlockSize⟩ (List.mem_map.mpr ⟨(j, c), hc, rfl⟩)
      rcases hapart with hapart | hapart
      · simp only at hapart
        omega
      · simp only at hapart
        omega
  owned := hs.owned
  apart := hs.apart
  pos := hs.pos

theorem newElement_sound (hs : Sound L h) (hn : newElement L h t b = some h') : Sound L h' := by
  obtain ⟨⟨p, h₁⟩, huse, rfl⟩ := Option.map_eq_some_iff.mp hn
  unfold useMemory at huse
  rw [if_neg (Nat.ne_of_gt (L.pos t))] at huse
  split at huse
  · next hlarge =>
    obtain ⟨h₂, hnew, heq⟩ := Option.map_eq_some_iff.mp huse
    cases heq
    unfold operatorNew at hnew
    split at hnew
    · next hfresh =>
      cases hnew
      exact new_sound hs hlarge hfresh
    · cases hnew
  · next hsmall => exact allocate_sound hs (Nat.le_of_not_lt hsmall) huse

theorem object_ne_zero (hs : Sound L h) (ht : (t, p) ∈ h.objects) : p ≠ 0 := by
  by_cases hsmall : L.sizeof t ≤ 512
  · obtain ⟨b, -, hlo, -⟩ := hs.slot ht hsmall
    omega
  · have hpos := hs.pos _ (hs.region_of_object ht (Nat.lt_of_not_le hsmall))
    exact Nat.ne_of_gt hpos

/-- `freeMemory` with the size of the object takes it back. -/
theorem freeMemory_spec (hs : Sound L h) (ht : (t, p) ∈ h.objects) :
    ∃ h', h.freeMemory (L.sizeof t) p = some h' ∧ Returned h h' (L.sizeof t) p ∧
      Sound L { h' with objects := h.objects.erase (t, p) } := by
  have hp := object_ne_zero hs ht
  unfold freeMemory
  rw [if_neg hp]
  by_cases hlarge : 512 < L.sizeof t
  · rw [if_pos hlarge, operatorDelete_object hs ht hlarge]
    refine ⟨_, rfl, ⟨fun hsmall => absurd hsmall (Nat.not_le_of_lt hlarge), fun _ => ?_⟩,
      delete_sound hs ht hlarge⟩
    exact ⟨hs.region_of_object ht hlarge, rfl, rfl⟩
  · have hsmall := Nat.le_of_not_lt hlarge
    rw [if_neg hlarge]
    refine ⟨_, rfl, ⟨fun _ => ⟨?_, rfl⟩, fun h => absurd h hlarge⟩, deAllocate_sound hs ht hsmall⟩
    show (Function.update h.memorypool (poolIndex (L.sizeof t))
      ((h.memorypool (poolIndex (L.sizeof t))).deAllocate h.memory p).1 _).freeSlot = p
    rw [Function.update_self]
    unfold Pool.deAllocate
    rw [if_pos hp]

/-- The owner of any other object than a loop's channel calls what `freeMemory` does. -/
theorem release_eq (hs : Sound L h) (ht : (t, p) ∈ h.objects) (hne : t ≠ .channel) :
    h.release L t p = h.freeMemory (L.sizeof t) p := by
  cases t with
  | channel => exact absurd rfl hne
  | buffer =>
    show h.operatorDelete p = h.freeMemory (L.sizeof .buffer) p
    unfold freeMemory
    rw [if_neg (object_ne_zero hs ht), if_pos L.lt_buffer]
  | keyNode => rfl
  | keyListNode => rfl

/-- The channel of a loop is a slot, and the loop gives it to `operator delete`. -/
theorem release_channel (hs : Sound L h) (ht : (.channel, p) ∈ h.objects) :
    h.release L .channel p = none :=
  operatorDelete_slot hs ht L.channel_le

theorem step_sound (hs : Sound L h) (hstep : h.step L l = some h') : Sound L h' := by
  cases l with
  | construct t b => exact newElement_sound hs hstep
  | destroy t p =>
    simp only [step] at hstep
    split at hstep
    · next ht =>
      obtain ⟨h₁, hrelease, rfl⟩ := Option.map_eq_some_iff.mp hstep
      by_cases hchannel : t = .channel
      · subst hchannel
        rw [release_channel hs ht] at hrelease
        cases hrelease
      · rw [release_eq hs ht hchannel] at hrelease
        obtain ⟨h₂, hfree, -, hsound⟩ := freeMemory_spec hs ht
        cases hrelease.symm.trans hfree
        exact hsound
    · cases hstep
  | write t p i v =>
    simp only [step] at hstep
    split at hstep
    · next ht =>
      cases hstep
      exact write_sound hs ht.1 ht.2 v
    · cases hstep

theorem matched_iff (hs : Sound L h) : Matched L h l ↔ LoopKept h l := by
  constructor
  · intro hmatched p hl ht
    obtain ⟨h', hstep, -⟩ := hmatched .channel p hl ht
    rw [hl, step, if_pos ht, release_channel hs ht] at hstep
    cases hstep
  · intro hkept t p hl ht
    have hne : t ≠ .channel := by
      rintro rfl
      exact hkept p hl ht
    obtain ⟨h', hfree, hreturned, -⟩ := freeMemory_spec hs ht
    refine ⟨{ h' with objects := h.objects.erase (t, p) }, ?_, ?_⟩
    · rw [hl, step, if_pos ht, release_eq hs ht hne, hfree, Option.map_some]
    · exact ⟨hreturned.toPool, hreturned.toOperator⟩

end Steps

/-- **Memory goes back to where it came from.** For every target, whatever `operator new` returns
and whatever is written into the objects, in every run that constructs and destroys event loops,
log buffers and nodes of the cache in any order: each release is defined and by the route that
`useMemory` took for the size, exactly when no event loop is destroyed in the run. -/
theorem released_iff (L : Sizes) (m : Memory) (ls : List ElementLabel) :
    Along (step L) (Matched L) (start m) ls ↔ Along (step L) LoopKept (start m) ls :=
  along_congr (fun _ _ _ hs hstep => step_sound hs hstep) (fun _ _ hs => matched_iff hs)
    (start_sound L m)

/-- The sizes of a target with 64-bit words. -/
def lp64 : Sizes where
  sizeof t :=
    match t with
    | .channel => 176
    | .buffer => 4000008
    | .keyNode => 80
    | .keyListNode => 40
  pos t := by cases t <;> decide
  channel_le := by decide
  lt_buffer := by decide

/-- An event loop is constructed, with a new block at 4096, and destroyed. Its channel is in the
first slot of the block, which `deleteElement` would take back. -/
theorem loop_destroyed :
    (∃ h h', exec (step lp64) (start fun _ => 0) [.construct .channel 4096] = some h ∧
      (.channel, 4240) ∈ h.objects ∧ h.regions = [⟨4096, 4096⟩] ∧
      h.freeMemory (lp64.sizeof .channel) 4240 = some h' ∧ h.release lp64 .channel 4240 = none) ∧
      ¬ Along (step lp64) (Matched lp64) (start fun _ => 0)
        [.construct .channel 4096, .destroy .channel 4240] := by
  constructor
  · exact ⟨_, _, rfl, List.mem_singleton_self _, rfl, rfl, rfl⟩
  · intro h
    have hmatched := (h.2 _ rfl).1 .channel 4240 rfl (List.mem_singleton_self _)
    obtain ⟨h', hstep, -⟩ := hmatched
    cases hstep

end Heap

end HttpWebserver.MemoryPool
