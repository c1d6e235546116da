import HttpWebserver.MemoryPool.Routes

/-!
# MemoryPool — slots are aligned for their type

`padPointer` subtracts on `size_t` and takes the remainder by a slot size that need not be a power
of two. A power of two that divides the slot size divides `2 ^ 64` as well, so it survives both.

* `padPointer_aligned`: the padded address is a multiple of every common divisor of the slot size
  and `2 ^ 64`;
* **`padPointer_nextMultiple`** — when it is a multiple of the slot size itself;
* `AlignedBy`, `step_aligned`: all slots of a pool are aligned, in a block and in the free list;
* `SizedUse`: `useMemory` and `freeMemory` for objects of one size, each step a step of the pool
  (`step_view`);
* **`memory_aligned`** — what `useMemory` returns is aligned for the size and has its bytes in a
  block, apart from all that is held.
-/

namespace HttpWebserver.MemoryPool

open ByteMemory MachineInt Machine

/-! ## Padding -/

section Padding

variable {a align p : Nat}

theorem sizeSub_add_dvd (ha : a ∣ align) (hspace : a ∣ 2 ^ 64) (hp : p ≤ align + 2 ^ 64) :
    a ∣ p + sizeSub align p := by
  unfold sizeSub
  split
  · next hle =>
    rw [Nat.add_sub_of_le hle]
    exact ha
  · next hgt =>
    -- the difference has wrapped
    have hsum : p + (2 ^ 64 - (p - align)) = align + 2 ^ 64 := by omega
    rw [hsum]
    exact Nat.dvd_add ha hspace

theorem padPointer_aligned (ha : a ∣ align) (hspace : a ∣ 2 ^ 64) (hp : p ≤ align + 2 ^ 64) :
    a ∣ p + padPointer p align := by
  have hsub := sizeSub_add_dvd ha hspace hp
  have hmod : sizeSub align p % align % a = sizeSub align p % a := Nat.mod_mod_of_dvd _ ha
  rw [padPointer]
  apply Nat.dvd_of_mod_eq_zero
  rw [Nat.add_mod, hmod, ← Nat.add_mod]
  exact Nat.mod_eq_zero_of_dvd hsub

/-! ## Padding to the slot size

`padPointer` computes `(align - p) % align` in `size_t`. For `p` above `align` the subtraction
wraps at `2 ^ 64`, which is right up to multiples of `align` only where `align` divides `2 ^
64`. -/

/-- The padding to the next multiple of `align`, where that is an address. -/
structure PadsToMultiple (p align : Nat) : Prop where
  lt : padPointer p align < align
  dvd : p + padPointer p align < 2 ^ 64 → align ∣ p + padPointer p align

theorem padPointer_of_le (hle : p ≤ align) : align ∣ p + padPointer p align := by
  rw [padPointer, sizeSub_of_le hle]
  apply Nat.dvd_of_mod_eq_zero
  rw [Nat.add_mod_mod, Nat.add_sub_of_le hle, Nat.mod_self]

/-- Behind `align` the subtraction wraps: the padding leads to `2 ^ 64` and not to zero, up to
multiples of `align`. -/
theorem padPointer_wrapped (hlt : align < p) (hp : p ≤ 2 ^ 64) :
    padPointer p align = (2 ^ 64 - p) % align := by
  have hsub : 2 ^ 64 - (p - align) = 2 ^ 64 - p + align := by omega
  rw [padPointer, sizeSub, if_neg (Nat.not_le.mpr hlt), hsub, Nat.add_mod_right]

theorem padPointer_wrapped_dvd (hlt : align < p) (hp : p ≤ 2 ^ 64) :
    align ∣ p + padPointer p align ↔ align ∣ 2 ^ 64 := by
  rw [padPointer_wrapped hlt hp, Nat.dvd_iff_mod_eq_zero, Nat.add_mod_mod, Nat.add_sub_of_le hp,
    ← Nat.dvd_iff_mod_eq_zero]

theorem padPointer_dvd_iff (hp : p ≤ 2 ^ 64) :
    align ∣ p + padPointer p align ↔ p ≤ align ∨ align ∣ 2 ^ 64 := by
  rcases Nat.lt_or_ge align p with hlt | hle
  · rw [padPointer_wrapped_dvd hlt hp]
    exact ⟨.inr, fun h => h.resolve_left (Nat.not_le.mpr hlt)⟩
  · exact ⟨fun _ => .inl hle, fun _ => padPointer_of_le hle⟩

/-- The padded address is the end of the address space only from the last slot on. -/
theorem padPointer_inSpace (hlt : align < p) (hp : p < 2 ^ 64) (hpos : 0 < align) :
    p + padPointer p align < 2 ^ 64 ↔ p + align ≤ 2 ^ 64 := by
  rw [padPointer_wrapped hlt hp.le]
  have hpad : (2 ^ 64 - p) % align < align := Nat.mod_lt _ hpos
  constructor
  · intro hin
    by_contra hlast
    -- a remainder by a larger number
    rw [Nat.mod_eq_of_lt (by omega)] at hin
    omega
  · intro hspace
    omega

theorem padsToMultiple_iff (hp : p < 2 ^ 64) (hpos : 0 < align) :
    PadsToMultiple p align ↔ p ≤ align ∨ align ∣ 2 ^ 64 ∨ 2 ^ 64 < p + align := by
  rcases Nat.lt_or_ge align p with hlt | hle
  · have hin := padPointer_inSpace hlt hp hpos
    have hdvd := padPointer_wrapped_dvd hlt hp.le
    constructor
    · intro h
      rcases Nat.lt_or_ge (2 ^ 64) (p + align) with hlast | hroom
      · exact .inr (.inr hlast)
      · exact .inr (.inl (hdvd.mp (h.dvd (hin.mpr hroom))))
    · intro h
      refine ⟨padPointer_lt hpos, fun haddr => ?_⟩
      have hroom := hin.mp haddr
      rcases h with hle | hspace | hlast
      · omega
      · exact hdvd.mpr hspace
      · -- no address is left to be a multiple
        omega
  · exact ⟨fun _ => .inl hle, fun _ => ⟨padPointer_lt hpos, fun _ => padPointer_of_le hle⟩⟩

/-- The first slot of a block. -/
theorem allocateBlock_dvd_iff (pool : Pool) (m : Memory) {newBlock : Nat}
    (hspace : newBlock + BlockSize ≤ 2 ^ 64) :
    pool.slotSize ∣ (pool.allocateBlock m newBlock).1
      ↔ newBlock + 8 ≤ pool.slotSize ∨ pool.slotSize ∣ 2 ^ 64 := by
  have hbody : newBlock + 8 ≤ 2 ^ 64 := by
    have hsize : BlockSize = 4096 := rfl
    omega
  show pool.slotSize ∣ newBlock + 8 + padPointer (newBlock + 8) pool.slotSize ↔ _
  exact padPointer_dvd_iff hbody

/-- **When `padPointer` pads to a multiple of the slot size.** For every address and every slot
size: up to the slot size, where the subtraction does not wrap, and less than a slot below the end
of the address space; between these for a slot size that divides `2 ^ 64` only. The first slot of a
block is aligned to the slot size where the block is as near to zero, or the slot size divides
`2 ^ 64`. -/
theorem padPointer_nextMultiple {k : Nat} (hp : p < 2 ^ 64) (hlo : 1 ≤ k) :
    (PadsToMultiple p (8 * k) ↔ p ≤ 8 * k ∨ 8 * k ∣ 2 ^ 64 ∨ 2 ^ 64 < p + 8 * k) ∧
      ∀ (pool : Pool) (m : Memory) (newBlock : Nat), pool.slotSize = 8 * k →
        newBlock + BlockSize ≤ 2 ^ 64 →
        (8 * k ∣ (pool.allocateBlock m newBlock).1 ↔ newBlock + 8 ≤ 8 * k ∨ 8 * k ∣ 2 ^ 64) :=
  ⟨padsToMultiple_iff hp (by omega),
    fun pool m _ hsize hspace => hsize ▸ allocateBlock_dvd_iff pool m hspace⟩

/-- At 4104, behind the pointer of a block at 4096, for slots of 24 and of 32 bytes. -/
theorem padPointer_nextMultiple_sample :
    ¬ PadsToMultiple 4104 (8 * 3) ∧ PadsToMultiple 4104 (8 * 4) ∧
      ∀ pool ∈ init (8 * 4), 8 * 4 ∣ (pool.allocateBlock (fun _ => 0) 4096).1 := by
  have hwraps := (padPointer_nextMultiple (p := 4104) (k := 3) (by decide) (by decide)).1
  obtain ⟨hpads, hfirst⟩ := padPointer_nextMultiple (p := 4104) (k := 4) (by decide) (by decide)
  refine ⟨hwraps.not.mpr (by decide), hpads.mpr (by decide), fun pool hpool => ?_⟩
  cases hpool
  exact (hfirst _ _ _ rfl (by decide)).mpr (by decide)

/-- The first slot of 24 bytes in a block at 4096 is at 4120. -/
theorem firstSlot_not_multiple :
    ¬ (∀ p k, p < 2 ^ 64 → 1 ≤ k → k ≤ 64 → PadsToMultiple p (8 * k)) ∧
      ∃ pool, init 24 = some pool ∧ (pool.allocateBlock (fun _ => 0) 4096).1 = 4120 ∧
        ¬ 24 ∣ 4120 := by
  constructor
  · intro h
    have hdvd := (h 4104 3 (by decide) (by decide) (by decide)).dvd (by decide)
    exact absurd hdvd (by decide)
  · exact ⟨_, rfl, by decide, by decide⟩

end Padding

/-! ## One pool

A power of two divides `2 ^ 64`, so an alignment that divides the slot size is kept by the
padding, wrapped or not. -/

/-- All slots that are held or freed, and the next one of the block, are multiples of `a`. -/
structure AlignedBy (a : Nat) (s : State) : Prop where
  slots : ∀ p ∈ s.held ++ s.freed, a ∣ p
  current : a ∣ s.pool.currentSlot

section Pool

variable {a : Nat} {s s' : State} {l : Label}

theorem start_aligned (a : Nat) {size : Nat} {pool : Pool} (hinit : init size = some pool)
    (m : Memory) : AlignedBy a (State.start pool m) := by
  rw [init] at hinit
  split at hinit
  · cases hinit
    exact ⟨fun p hp => absurd hp List.not_mem_nil, Nat.dvd_zero a⟩
  · cases hinit

theorem nextSlot_aligned {pool : Pool} (hdvd : 8 ∣ pool.slotSize) (ha : a ∣ pool.slotSize)
    (hslot : a ∣ pool.currentSlot) : a ∣ pool.nextSlot.currentSlot := by
  rw [nextSlot_currentSlot pool hdvd]
  exact Nat.dvd_add hslot ha

/-- The slot that `allocate` returns, and the next one. -/
theorem allocate_aligned (h : Inv s) (ha : a ∣ s.pool.slotSize) (hspace : a ∣ 2 ^ 64)
    (hal : AlignedBy a s) (newBlock : Nat) (hblock : s.pool.NeedsBlock → newBlock + 8 ≤ 2 ^ 64) :
    a ∣ (s.pool.allocate s.memory newBlock).1 ∧
      a ∣ (s.pool.allocate s.memory newBlock).2.1.currentSlot := by
  have hdvd := h.size.1
  rw [Pool.allocate]
  split
  · next hfree =>
    -- a freed slot comes back
    obtain ⟨rest, hfreed, -⟩ := h.freeChain.head hfree
    have hmem : s.pool.freeSlot ∈ s.held ++ s.freed := by
      rw [hfreed]
      exact List.mem_append_right _ List.mem_cons_self
    exact ⟨hal.slots _ hmem, hal.current⟩
  · next hfree =>
    rw [Pool.nofreeSolve]
    split
    · next hfull =>
      -- the first slot of a new block
      have hbody : newBlock + 8 ≤ s.pool.slotSize + 2 ^ 64 :=
        Nat.le_trans (hblock ⟨not_not.mp hfree, hfull⟩) (Nat.le_add_left _ _)
      have hfirst := padPointer_aligned ha hspace hbody
      exact ⟨hfirst, nextSlot_aligned hdvd ha hfirst⟩
    · -- the next slot of the block
      exact ⟨hal.current, nextSlot_aligned hdvd ha hal.current⟩

theorem step_aligned (h : Inv s) (ha : a ∣ s.pool.slotSize) (hspace : a ∣ 2 ^ 64)
    (hal : AlignedBy a s) (hs : s.step l = some s') : AlignedBy a s' := by
  cases l with
  | allocate newBlock =>
    simp only [State.step] at hs
    split at hs
    · next hfresh =>
      cases hs
      -- a fresh block lies below 2^64, so the padding did not wrap
      obtain ⟨hslot, hnext⟩ := allocate_aligned h ha hspace hal newBlock
        fun hneeds => by
          have hin := (hfresh hneeds).inSpace
          have hsize : BlockSize = 4096 := rfl
          omega
      refine ⟨fun q hq => ?_, hnext⟩
      rcases List.mem_append.mp hq with hq | hq
      · rcases List.mem_cons.mp hq with rfl | hq
        · exact hslot
        · exact hal.slots q (List.mem_append_left _ hq)
      · exact hal.slots q (List.mem_append_right _ (List.mem_of_mem_erase hq))
    · cases hs
  | deAllocate p =>
    simp only [State.step] at hs
    split at hs
    · next hp =>
      cases hs
      refine ⟨fun q hq => ?_, ?_⟩
      · rcases List.mem_append.mp hq with hq | hq
        · exact hal.slots q (List.mem_append_left _ (List.mem_of_mem_erase hq))
        · rcases List.mem_cons.mp hq with rfl | hq
          · exact hal.slots q (List.mem_append_left _ hp)
          · exact hal.slots q (List.mem_append_right _ hq)
      · -- freeing moves the free list alone, never `currentSlot_`
        unfold Pool.deAllocate
        split
        · exact hal.current
        · exact hal.current
    · cases hs
  | write p i v =>
    simp only [State.step] at hs
    split at hs
    · cases hs
      exact ⟨hal.slots, hal.current⟩
    · cases hs

end Pool

/-! ## Objects of one size

The pool of the size sees the calls of `useMemory` and `freeMemory` for this size as calls of its
own. What is proved of a pool is carried to the objects by this. -/

/-- The heap, and the addresses that `useMemory` has returned and that are not freed. -/
structure SizedUse where
  heap : Heap
  held : List Nat

inductive UseLabel where
  | useMemory (newBlock : Nat)
  | freeMemory (p : Nat)
  | write (p i : Nat) (v : UInt8)

namespace SizedUse

def start (m : Memory) : SizedUse := ⟨Heap.start m, []⟩

/-- A call for objects of `size` bytes, or a write to a byte of an object. -/
def step (size : Nat) (u : SizedUse) : UseLabel → Option SizedUse
  | .useMemory newBlock => (u.heap.useMemory size newBlock).map fun (p, h) => ⟨h, p :: u.held⟩
  | .freeMemory p =>
    if p ∈ u.held then (u.heap.freeMemory size p).map fun h => ⟨h, u.held.erase p⟩ else none
  | .write p i v =>
    if p ∈ u.held ∧ i < size then
      some { u with heap := { u.heap with memory := writeByte u.heap.memory (p + i) v } }
    else none

/-- What the pool of the size sees. -/
def view (size : Nat) (u : SizedUse) : State where
  pool := u.heap.memorypool (poolIndex size)
  memory := u.heap.memory
  blocks := Heap.blocksOf u.heap.blocks (poolIndex size)
  held := u.held
  freed := u.heap.freed (poolIndex size)

end SizedUse

def UseLabel.view : UseLabel → Label
  | useMemory newBlock => .allocate newBlock
  | freeMemory p => .deAllocate p
  | write p i v => .write p i v

namespace SizedUse

section Runs

variable {size a : Nat} {u u' : SizedUse} {l : UseLabel}

/-- The pool of the size, with its blocks among the regions. -/
structure Sound (size a : Nat) (u : SizedUse) : Prop where
  inv : Inv (u.view size)
  aligned : AlignedBy a (u.view size)
  slotSize : (u.view size).pool.slotSize = 8 * (poolIndex size + 1)
  regions : ∀ b ∈ (u.view size).blocks, ⟨b, BlockSize⟩ ∈ u.heap.regions

/-- An alignment divides the slot size, since slots are a multiple of eight bytes. -/
theorem dvd_slotSize {k : Nat} (hpos : 0 < size) (hdvd : 2 ^ k ∣ size) :
    2 ^ k ∣ 8 * (poolIndex size + 1) := by
  rcases Nat.le_total k 3 with hk | hk
  · have height : 2 ^ k ∣ 8 := Nat.pow_dvd_pow 2 hk
    exact Nat.dvd_mul_right_of_dvd height _
  · -- a size that is a multiple of eight is the slot size
    obtain ⟨n, rfl⟩ : 8 ∣ size := Nat.dvd_trans (Nat.pow_dvd_pow 2 hk) hdvd
    have hindex : poolIndex (8 * n) + 1 = n := by
      rw [poolIndex, Nat.shiftRight_eq_div_pow]
      omega
    rwa [hindex]

theorem start_sound {a : Nat} (hle : size ≤ 512) (m : Memory) : Sound size a (start m) := by
  have hsize : (poolIndex size + 1) <<< 3 = 8 * (poolIndex size + 1) := by
    rw [Nat.shiftLeft_eq, Nat.mul_comm]
  have hindex := poolIndex_lt hle
  have hinit : init ((poolIndex size + 1) <<< 3) = some ((start m).view size).pool :=
    if_pos (by omega)
  refine ⟨?_, start_aligned a hinit m, hsize, nofun⟩
  exact start_inv (hsize ▸ Nat.dvd_mul_right 8 _) (by omega) (by omega) hinit m

theorem blocksOf_needs (needs : Prop) [Decidable needs] (blocks : List (Nat × Nat)) (i b : Nat) :
    Heap.blocksOf (if needs then (i, b) :: blocks else blocks) i
      = if needs then b :: Heap.blocksOf blocks i else Heap.blocksOf blocks i := by
  split
  · rw [Heap.blocksOf, List.filter_cons_of_pos (by simp), List.map_cons]
    rfl
  · rfl

/-- **A call for the size is a call of its pool.** -/
theorem step_view (hpos : 0 < size) (hle : size ≤ 512) (h : Sound size a u)
    (hs : u.step size l = some u') :
    (u.view size).step l.view = some (u'.view size) ∧
      ∀ b ∈ (u'.view size).blocks, ⟨b, BlockSize⟩ ∈ u'.heap.regions := by
  have hsmall : ¬ 512 < size := Nat.not_lt.mpr hle
  cases l with
  -- `useMemory` of at most 512 bytes is `allocate` of the pool of this size
  | useMemory newBlock =>
    obtain ⟨⟨p, heap⟩, huse, rfl⟩ := Option.map_eq_some_iff.mp hs
    rw [Heap.useMemory, if_neg hpos.ne', if_neg hsmall, Heap.allocate] at huse
    dsimp only at huse
    split at huse
    · next hfresh =>
      cases huse
      have hblock : (u.view size).pool.NeedsBlock → FreshBlock (u.view size).blocks newBlock := by
        intro hneeds
        obtain ⟨haligned, hstart, hspace, hapart⟩ := hfresh hneeds
        exact ⟨haligned, hstart, hspace, fun c hc => hapart _ (h.regions c hc)⟩
      have hblocks := blocksOf_needs (u.heap.memorypool (poolIndex size)).NeedsBlock
        u.heap.blocks (poolIndex size) newBlock
      constructor
      · rw [UseLabel.view, State.step, if_pos hblock]
        simp only [view, Function.update_self, hblocks]
        rfl
      · intro b hb
        simp only [view, hblocks] at hb
        split at hb
        · next hneeds =>
          rw [if_pos hneeds]
          rcases List.mem_cons.mp hb with rfl | hb
          · exact List.mem_cons_self
          · exact List.mem_cons_of_mem _ (h.regions b hb)
        · next hneeds =>
          rw [if_neg hneeds]
          exact h.regions b hb
    · cases huse
  | freeMemory p =>
    simp only [step] at hs
    split at hs
    · next hp =>
      -- `freeMemory` of a null pointer would do nothing, but a held slot is none
      have hne : p ≠ 0 := (h.inv.slot_lt (List.mem_append_left _ hp)).1.ne'
      rw [Heap.freeMemory, if_neg hne, if_neg hsmall] at hs
      cases hs
      refine ⟨?_, h.regions⟩
      have hheld : p ∈ (u.view size).held := hp
      rw [UseLabel.view, State.step, if_pos hheld]
      simp only [view, Heap.deAllocate, Function.update_self]
    · cases hs
  | write p i v =>
    simp only [step] at hs
    split at hs
    · next hp =>
      cases hs
      refine ⟨?_, h.regions⟩
      have hslot : i < (u.view size).pool.slotSize := by
        have hfits := size_le_slot size
        rw [h.slotSize]
        omega
      exact if_pos ⟨hp.1, hslot⟩
    · cases hs

theorem step_sound {k : Nat} (hpos : 0 < size) (hle : size ≤ 512) (hk : k ≤ 64)
    (hdvd : 2 ^ k ∣ size) (h : Sound size (2 ^ k) u) (hs : u.step size l = some u') :
    Sound size (2 ^ k) u' := by
  obtain ⟨hview, hregions⟩ := step_view hpos hle h hs
  have hslot : 2 ^ k ∣ (u.view size).pool.slotSize := by
    rw [h.slotSize]
    exact dvd_slotSize hpos hdvd
  have hspace : 2 ^ k ∣ 2 ^ 64 := Nat.pow_dvd_pow 2 hk
  exact ⟨step_inv h.inv hview, step_aligned h.inv hslot hspace h.aligned hview,
    (step_slotSize hview).trans h.slotSize, hregions⟩

/-- The memory at `p` is good for an object of `size` bytes with the alignment `a`: it is in a block
that `operator new` has returned, and apart from the memory of all other objects. -/
structure Usable (size a : Nat) (u : SizedUse) (p : Nat) : Prop where
  aligned : a ∣ p
  block : ∃ r ∈ u.heap.regions, r.start < p ∧ p + size ≤ r.start + r.size
  apart : ∀ q ∈ u.held.erase p, Apart size p q

theorem Sound.usable (h : Sound size a u) {p : Nat} (hp : p ∈ u.held) :
    Usable size a u p := by
  have hfits := size_le_slot size
  have hmem : p ∈ (u.view size).held ++ (u.view size).freed := List.mem_append_left _ hp
  obtain ⟨b, hb, hlo, hhi⟩ := (h.inv.inBlock p hmem).block
  rw [h.slotSize] at hhi
  refine ⟨h.aligned.slots p hmem, ⟨_, h.regions b hb, ?_, ?_⟩, fun q hq => ?_⟩
  · show b < p
    omega
  · show p + size ≤ b + BlockSize
    omega
  · have hnodup : u.held.Nodup :=
      (List.nodup_append.mp (apart_nodup h.inv.size_pos h.inv.slots)).1
    have hne : p ≠ q := fun heq => hnodup.not_mem_erase (heq ▸ hq)
    have hslots := h.inv.slot_apart hmem
      (List.mem_append_left _ (List.mem_of_mem_erase hq)) hne
    rw [h.slotSize] at hslots
    rcases hslots with hpq | hqp
    · exact .inl (by omega)
    · exact .inr (by omega)

/-- **Memory is aligned for its type.** For every size of one to 512 bytes, every power of two that
divides it and every run of `useMemory`, `freeMemory` of what it returned and writes into it, after
`initMemoryPool`, whatever aligned blocks `operator new` returns: what the next `useMemory` returns
is a multiple of the power, and has its bytes in a block, apart from all that is held. -/
theorem memory_aligned {k : Nat} (hlo : 1 ≤ size) (hhi : size ≤ 512) (hdvd : 2 ^ k ∣ size)
    (m : Memory) {ls : List UseLabel} (hrun : exec (step size) (start m) ls = some u)
    {newBlock p : Nat} {heap : Heap} (huse : u.heap.useMemory size newBlock = some (p, heap)) :
    Usable size (2 ^ k) ⟨heap, p :: u.held⟩ p := by
  have hk : k ≤ 64 := by
    by_contra hlarge
    have hle := Nat.le_of_dvd hlo hdvd
    have hpow : 2 ^ 64 ≤ 2 ^ k := Nat.pow_le_pow_right (by decide) (by omega)
    omega
  have hstep : u.step size (.useMemory newBlock) = some ⟨heap, p :: u.held⟩ := by
    rw [step, huse]
    rfl
  have hsound := exec_invariant (fun v l w hv hw => step_sound hlo hhi hk hdvd hv hw)
    (start_sound hhi m) hrun
  exact (step_sound hlo hhi hk hdvd hsound hstep).usable List.mem_cons_self

/-- Objects of 48 bytes, aligned to 16: the first slot, behind a padding that has wrapped, is freed
and used again. -/
theorem memory_aligned_sample :
    ∃ u, exec (step 48) (start fun _ => 0) [.useMemory 4096, .useMemory 0, .freeMemory 4144]
        = some u ∧
      ∃ heap, u.heap.useMemory 48 0 = some (4144, heap) ∧
        Usable 48 (2 ^ 4) ⟨heap, 4144 :: u.held⟩ 4144 :=
  ⟨_, rfl, _, rfl, memory_aligned (by decide) (by decide) (by decide) (fun _ => 0)
    (show exec (step 48) (start fun _ => 0)
      [.useMemory 4096, .useMemory 0, .freeMemory 4144] = some _ from rfl) rfl⟩

end Runs

end SizedUse

end HttpWebserver.MemoryPool
