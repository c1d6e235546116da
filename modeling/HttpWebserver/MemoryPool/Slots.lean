import HttpWebserver.MemoryPool.MemoryPool
import HttpWebserver.Lib.Machine
import Mathlib.Data.List.Pairwise
import Mathlib.Data.List.Perm.Basic

/-!
# MemoryPool — slots never overlap

`Inv` says where the slots are: those held and those freed lie apart from each other, from the
block headers and from the part of the current block that is not issued yet, and the two chains
in memory are the freed slots and the blocks.

* `padPointer_lt`, `padPointer_dvd`: the padding keeps the first slot in the block and aligned,
  even where the subtraction wraps;
* `inv_issue`: a slot that nobody has enters the held ones;
* `inv_allocateBlock`, `inv_bump`, `inv_reuse`, `inv_deAllocate`, `inv_write`: the steps;
* **`slots_apart`** — in every state of every run, with what a client's write can reach.
-/

namespace HttpWebserver.MemoryPool

open ByteMemory MachineInt Machine

/-! ## Padding -/

section Padding

variable {p align : Nat}

theorem padPointer_lt (h : 0 < align) : padPointer p align < align := Nat.mod_lt _ h

theorem padPointer_dvd (hp : 8 ∣ p) (ha : 8 ∣ align) : 8 ∣ padPointer p align := by
  refine (Nat.dvd_mod_iff ha).mpr ?_
  unfold sizeSub
  split
  · exact Nat.dvd_sub ha hp
  · exact Nat.dvd_sub (by norm_num) (Nat.dvd_sub hp ha)

end Padding

instance (n : Nat) : Std.Symm (Apart n) := ⟨fun _ _ h => Or.symm h⟩

theorem apart_nodup {n : Nat} (hn : 0 < n) {l : List Nat} (h : l.Pairwise (Apart n)) : l.Nodup := by
  refine h.imp fun {p q} hpq => ?_
  rcases hpq with hpq | hpq <;> omega

/-! ## The invariant

The slots that were handed out and the freed ones, all in blocks and apart; the free list runs
through the first words of the freed slots, the list of blocks through the headers. -/

/-- The slot lies in a block, behind the header. -/
structure InBlock (size : Nat) (blocks : List Nat) (p : Nat) : Prop where
  aligned : 8 ∣ p
  block : ∃ b ∈ blocks, b + 8 ≤ p ∧ p + size ≤ b + BlockSize

/-- The current block: `currentSlot_` is behind its header, and the slots are outside of the
rest of it. -/
structure Current (pool : Pool) (blocks slots : List Nat) : Prop where
  head : pool.currentBlock ∈ blocks
  aligned : 8 ∣ pool.currentSlot
  behind : pool.currentBlock + 8 ≤ pool.currentSlot
  within : pool.currentSlot ≤ pool.currentBlock + BlockSize
  last : pool.lastSlot = pool.currentBlock + BlockSize - pool.slotSize + 1
  issued : ∀ p ∈ slots, p + pool.slotSize ≤ pool.currentSlot ∨ pool.currentBlock + BlockSize ≤ p

structure Inv (s : State) : Prop where
  size : 8 ∣ s.pool.slotSize ∧ 8 ≤ s.pool.slotSize ∧ s.pool.slotSize ≤ 512
  block : ∀ b ∈ s.blocks, 8 ∣ b ∧ 0 < b ∧ b + BlockSize ≤ 2 ^ 64
  blocks : s.blocks.Pairwise (Apart BlockSize)
  inBlock : ∀ p ∈ s.held ++ s.freed, InBlock s.pool.slotSize s.blocks p
  slots : (s.held ++ s.freed).Pairwise (Apart s.pool.slotSize)
  current : (s.blocks = [] ∧ s.pool.lastSlot ≤ s.pool.currentSlot) ∨
    Current s.pool s.blocks (s.held ++ s.freed)
  freeChain : Chain s.memory s.pool.freeSlot s.freed
  blockChain : Chain s.memory s.pool.currentBlock s.blocks

section Steps

variable {s : State} {p q b : Nat}

theorem Inv.size_pos (h : Inv s) : 0 < s.pool.slotSize := by
  have := h.size
  omega

/-- A slot and a header do not meet. -/
theorem Inv.header_apart (h : Inv s) (hp : p ∈ s.held ++ s.freed) (hb : b ∈ s.blocks) :
    b + 8 ≤ p ∨ p + s.pool.slotSize ≤ b := by
  obtain ⟨c, hc, hlo, hhi⟩ := (h.inBlock p hp).block
  rcases eq_or_ne b c with rfl | hne
  · exact .inl hlo
  · rcases h.blocks.forall hb hc hne with hbc | hcb
    · have : BlockSize = 4096 := rfl
      omega
    · omega

theorem Inv.slot_lt (h : Inv s) (hp : p ∈ s.held ++ s.freed) : 0 < p ∧ p < 2 ^ 64 := by
  obtain ⟨c, hc, hlo, hhi⟩ := (h.inBlock p hp).block
  obtain ⟨-, -, hspace⟩ := h.block c hc
  have hsize := h.size_pos
  omega

theorem Inv.slot_apart (h : Inv s) (hp : p ∈ s.held ++ s.freed) (hq : q ∈ s.held ++ s.freed)
    (hne : p ≠ q) : Apart s.pool.slotSize p q :=
  h.slots.forall hp hq hne

/-- A memory that agrees on the headers and on the freed slots' first words. -/
theorem Inv.chains (h : Inv s) {m : Memory}
    (hsame : ∀ a, a ∈ s.freed ∨ a ∈ s.blocks → ∀ i < 8, m (a + i) = s.memory (a + i)) :
    Chain m s.pool.freeSlot s.freed ∧ Chain m s.pool.currentBlock s.blocks :=
  ⟨h.freeChain.frame fun a ha => hsame a (.inl ha),
    h.blockChain.frame fun a ha => hsame a (.inr ha)⟩

/-- A client's write stays out of the chains and of all other slots. -/
theorem Inv.write_frame (h : Inv s) (hp : p ∈ s.held) {i : Nat} (hi : i < s.pool.slotSize)
    (v : UInt8) :
    Chain (writeByte s.memory (p + i) v) s.pool.freeSlot s.freed ∧
      Chain (writeByte s.memory (p + i) v) s.pool.currentBlock s.blocks ∧
      ∀ q ∈ s.held, q ≠ p → ∀ j < s.pool.slotSize,
        writeByte s.memory (p + i) v (q + j) = s.memory (q + j) := by
  have hother : ∀ a, a ≠ p + i → writeByte s.memory (p + i) v a = s.memory a :=
    fun a ha => writeByte_other ha
  have hpm : p ∈ s.held ++ s.freed := List.mem_append_left _ hp
  have hsize := h.size
  have hchains := h.chains fun a ha j hj => hother (a + j) ?_
  · refine ⟨hchains.1, hchains.2, fun q hq hne j hj => hother (q + j) ?_⟩
    rcases h.slot_apart hpm (List.mem_append_left _ hq) (Ne.symm hne) with hpq | hqp <;> omega
  · rcases ha with ha | ha
    · have hne : p ≠ a := fun heq => by
        have hnd := apart_nodup h.size_pos h.slots
        exact (List.nodup_append.mp hnd).2.2 p hp a ha heq
      rcases h.slot_apart hpm (List.mem_append_right _ ha) hne with hpa | hap <;> omega
    · rcases h.header_apart hpm ha with hlo | hhi <;> omega

/-! ## The steps -/

theorem start_inv {size : Nat} {pool : Pool} (hdvd : 8 ∣ size) (hlo : 8 ≤ size) (hhi : size ≤ 512)
    (hinit : init size = some pool) (m : Memory) : Inv (State.start pool m) := by
  rw [init, if_pos (by omega)] at hinit
  cases hinit
  exact ⟨⟨hdvd, hlo, hhi⟩, nofun, .nil, nofun, .nil, .inl ⟨rfl, Nat.le_refl 0⟩, rfl, rfl⟩

/-- A slot apart from all others is handed out. -/
theorem inv_issue {pool : Pool} {m : Memory} {blocks : List Nat} (h : Inv s)
    (hsize : pool.slotSize = s.pool.slotSize)
    (hblock : ∀ b ∈ blocks, 8 ∣ b ∧ 0 < b ∧ b + BlockSize ≤ 2 ^ 64)
    (hblocks : blocks.Pairwise (Apart BlockSize)) (hsub : ∀ b ∈ s.blocks, b ∈ blocks)
    (hp : InBlock pool.slotSize blocks p)
    (hapart : ∀ q ∈ s.held ++ s.freed, Apart pool.slotSize p q)
    (hcur : Current pool blocks (p :: (s.held ++ s.freed)))
    (hfree : Chain m pool.freeSlot s.freed) (hchain : Chain m pool.currentBlock blocks) :
    Inv { pool := pool, memory := m, blocks := blocks, held := p :: s.held
          freed := s.freed.erase p } := by
  have hnot : p ∉ s.freed := fun hmem => by
    rcases hapart p (List.mem_append_right _ hmem) with hpp | hpp <;>
      have := h.size_pos <;> omega
  rw [List.erase_of_not_mem hnot]
  refine ⟨?_, hblock, hblocks, fun q hq => ?_, ?_, .inr hcur, hfree, hchain⟩
  · rw [hsize]
    exact h.size
  · rcases List.mem_cons.mp hq with rfl | hq
    · exact hp
    · obtain ⟨haligned, b, hb, hin⟩ := h.inBlock q hq
      refine ⟨haligned, b, hsub b hb, ?_⟩
      rw [hsize]
      exact hin
  · refine List.pairwise_cons.mpr ⟨hapart, ?_⟩
    rw [hsize]
    exact h.slots

theorem nextSlot_currentSlot (pool : Pool) (h : 8 ∣ pool.slotSize) :
    pool.nextSlot.currentSlot = pool.currentSlot + pool.slotSize := by
  rw [Pool.nextSlot, Nat.shiftRight_eq_div_pow]
  show pool.currentSlot + 8 * (pool.slotSize / 8) = _
  rw [Nat.mul_div_cancel' h]

/-- The next slot of the current block. -/
theorem inv_bump (h : Inv s) (hroom : s.pool.currentSlot < s.pool.lastSlot) :
    Inv { s with pool := s.pool.nextSlot, held := s.pool.currentSlot :: s.held
                 freed := s.freed.erase s.pool.currentSlot } := by
  have hsize := h.size
  have hblock : BlockSize = 4096 := rfl
  rcases h.current with ⟨-, hnone⟩ | hcur
  · exact absurd hroom (Nat.not_lt.mpr hnone)
  · have hlast := hcur.last
    have hbehind := hcur.behind
    have hfits : s.pool.currentSlot + s.pool.slotSize ≤ s.pool.currentBlock + BlockSize := by omega
    have hnext := nextSlot_currentSlot s.pool hsize.1
    refine inv_issue h rfl h.block h.blocks (fun _ hb => hb)
      ⟨hcur.aligned, _, hcur.head, hbehind, hfits⟩ (fun q hq => ?_)
      ⟨hcur.head, ?_, ?_, ?_, hlast, fun q hq => ?_⟩ h.freeChain h.blockChain
    · -- the slot is apart from all issued ones, which lie before it or in other blocks
      show Apart s.pool.slotSize _ _
      rcases hcur.issued q hq with hlow | hhigh
      · exact .inr hlow
      · exact .inl (by omega)
    · rw [hnext]
      exact Nat.dvd_add hcur.aligned hsize.1
    · show s.pool.currentBlock + 8 ≤ _
      omega
    · rw [hnext]
      exact hfits
    · show q + s.pool.slotSize ≤ _ ∨ s.pool.currentBlock + BlockSize ≤ q
      rcases List.mem_cons.mp hq with rfl | hq
      · omega
      · rcases hcur.issued q hq with hlow | hhigh <;> omega

/-- The first slot of a new block. -/
theorem inv_allocateBlock (h : Inv s) {newBlock : Nat} (hfresh : FreshBlock s.blocks newBlock) :
    Inv { pool := (s.pool.allocateBlock s.memory newBlock).2.1
          memory := (s.pool.allocateBlock s.memory newBlock).2.2
          blocks := newBlock :: s.blocks
          held := (s.pool.allocateBlock s.memory newBlock).1 :: s.held
          freed := s.freed.erase (s.pool.allocateBlock s.memory newBlock).1 } := by
  obtain ⟨haligned, hpos, hspace, hapart⟩ := hfresh
  have hsize := h.size
  have hblock : BlockSize = 4096 := rfl
  have hpad : padPointer (newBlock + 8) s.pool.slotSize < s.pool.slotSize :=
    padPointer_lt h.size_pos
  have hpad8 : 8 ∣ padPointer (newBlock + 8) s.pool.slotSize :=
    padPointer_dvd (Nat.dvd_add haligned (Nat.dvd_refl 8)) hsize.1
  simp only [Pool.allocateBlock]
  generalize padPointer (newBlock + 8) s.pool.slotSize = pad at hpad hpad8
  have hnext := nextSlot_currentSlot { s.pool with
    currentBlock := newBlock, currentSlot := newBlock + 8 + pad
    lastSlot := newBlock + BlockSize - s.pool.slotSize + 1 } hsize.1
  simp only at hnext
  -- the new block is outside of every old one, so of every slot
  have hslots : ∀ q ∈ s.held ++ s.freed,
      q + s.pool.slotSize ≤ newBlock ∨ newBlock + BlockSize ≤ q := fun q hq => by
    obtain ⟨c, hc, hlo, hhi⟩ := (h.inBlock q hq).block
    rcases hapart c hc with hbc | hcb <;> omega
  have hchains := h.chains fun a ha i hi =>
    writeWord_other (m := s.memory) (a := newBlock) (b := a + i) (w := s.pool.currentBlock) ?_
  · refine inv_issue h rfl (fun b hb => ?_) (List.pairwise_cons.mpr ⟨hapart, h.blocks⟩)
      (fun b hb => List.mem_cons_of_mem _ hb)
      ⟨Nat.dvd_add (Nat.dvd_add haligned (Nat.dvd_refl 8)) hpad8, newBlock, List.mem_cons_self,
        by omega, ?_⟩ (fun q hq => ?_)
      ⟨List.mem_cons_self, ?_, ?_, ?_, rfl, fun q hq => ?_⟩ hchains.1 ?_
    · rcases List.mem_cons.mp hb with rfl | hb
      · exact ⟨haligned, hpos, hspace⟩
      · exact h.block b hb
    · show newBlock + 8 + pad + s.pool.slotSize ≤ _
      omega
    · show Apart s.pool.slotSize _ _
      rcases hslots q hq with hlow | hhigh
      · exact .inr (by omega)
      · exact .inl (by omega)
    · rw [hnext]
      exact Nat.dvd_add (Nat.dvd_add (Nat.dvd_add haligned (Nat.dvd_refl 8)) hpad8) hsize.1
    · show newBlock + 8 ≤ _
      omega
    · rw [hnext]
      show _ ≤ newBlock + BlockSize
      omega
    · show q + s.pool.slotSize ≤ _ ∨ newBlock + BlockSize ≤ q
      rcases List.mem_cons.mp hq with rfl | hq
      · omega
      · rcases hslots q hq with hlow | hhigh <;> omega
    · refine h.blockChain.cons hpos ?_ fun c hc => ?_
      · exact h.blockChain.lt (by norm_num) fun c hc => by
          have := h.block c hc
          omega
      · rcases hapart c hc with hbc | hcb <;> omega
  · rcases ha with ha | ha
    · rcases hslots a (List.mem_append_right _ ha) with hlow | hhigh <;> omega
    · rcases hapart a ha with hbc | hcb <;> omega

/-- A slot goes from the held ones to the freed ones or back. -/
theorem inv_move {pool : Pool} {m : Memory} {held freed : List Nat} (h : Inv s)
    (hpool : pool = { s.pool with freeSlot := pool.freeSlot })
    (hperm : (held ++ freed).Perm (s.held ++ s.freed)) (hfree : Chain m pool.freeSlot freed)
    (hchain : Chain m s.pool.currentBlock s.blocks) :
    Inv { pool := pool, memory := m, blocks := s.blocks, held := held, freed := freed } := by
  obtain ⟨slotSize, currentBlock, currentSlot, lastSlot, freeSlot⟩ := pool
  cases hpool
  refine ⟨h.size, h.block, h.blocks, fun p hp => h.inBlock p (hperm.mem_iff.mp hp),
    hperm.symm.pairwise h.slots fun hpq => hpq.symm, ?_, hfree, hchain⟩
  refine h.current.imp id fun hcur => ⟨hcur.head, hcur.aligned, hcur.behind, hcur.within, hcur.last,
    fun p hp => hcur.issued p (hperm.mem_iff.mp hp)⟩

/-- The first freed slot is handed out again. -/
theorem inv_reuse (h : Inv s) (hne : s.pool.freeSlot ≠ 0) :
    Inv { s with pool := { s.pool with freeSlot := readWord s.memory s.pool.freeSlot }
                 held := s.pool.freeSlot :: s.held, freed := s.freed.erase s.pool.freeSlot } := by
  obtain ⟨rest, hfreed, hrest⟩ := h.freeChain.head hne
  refine inv_move h rfl ?_ ?_ h.blockChain
  · rw [hfreed, List.erase_cons_head]
    exact List.perm_middle.symm
  · rw [hfreed, List.erase_cons_head]
    exact hrest

theorem inv_deAllocate (h : Inv s) (hp : p ∈ s.held) :
    Inv { s with pool := { s.pool with freeSlot := p }
                 memory := writeWord s.memory p s.pool.freeSlot
                 held := s.held.erase p, freed := p :: s.freed } := by
  have hpm : p ∈ s.held ++ s.freed := List.mem_append_left _ hp
  have hsize := h.size
  obtain ⟨hpos, -⟩ := h.slot_lt hpm
  have hne : ∀ q ∈ s.freed, p ≠ q := fun q hq heq =>
    (List.nodup_append.mp (apart_nodup h.size_pos h.slots)).2.2 p hp q hq heq
  refine inv_move h rfl ?_ ?_ (h.blockChain.frame fun b hb i hi => writeWord_other ?_)
  · refine List.perm_middle.trans ?_
    exact ((List.perm_cons_erase hp).append_right s.freed).symm
  · refine h.freeChain.cons hpos ?_ fun q hq => ?_
    · exact h.freeChain.lt (by norm_num) fun q hq => (h.slot_lt (List.mem_append_right _ hq)).2
    · rcases h.slot_apart hpm (List.mem_append_right _ hq) (hne q hq) with hpq | hqp <;> omega
  · rcases h.header_apart hpm hb with hlo | hhi <;> omega

theorem step_inv {s' : State} (h : Inv s) {l : Label} (hs : s.step l = some s') : Inv s' := by
  cases l with
  | allocate newBlock =>
      simp only [State.step] at hs
      split at hs
      · next hfresh =>
          cases hs
          by_cases hfree : s.pool.freeSlot ≠ 0
          · -- the three ways of `allocate`: a freed slot, a new block, the next slot
            have hneeds : ¬ s.pool.NeedsBlock := fun hneeds => hfree hneeds.1
            simp only [Pool.allocate, if_pos hfree, if_neg hneeds]
            exact inv_reuse h hfree
          · by_cases hfull : s.pool.lastSlot ≤ s.pool.currentSlot
            · have hneeds : s.pool.NeedsBlock := ⟨not_not.mp hfree, hfull⟩
              simp only [Pool.allocate, if_neg hfree, Pool.nofreeSolve, if_pos hfull, if_pos hneeds]
              exact inv_allocateBlock h (hfresh hneeds)
            · have hneeds : ¬ s.pool.NeedsBlock := fun hneeds => hfull hneeds.2
              simp only [Pool.allocate, if_neg hfree, Pool.nofreeSolve, if_neg hfull, if_neg hneeds]
              exact inv_bump h (Nat.not_le.mp hfull)
      · cases hs
  | deAllocate p =>
      simp only [State.step] at hs
      split at hs
      · next hp =>
          cases hs
          have hpos := (h.slot_lt (List.mem_append_left _ hp)).1
          simp only [Pool.deAllocate, if_pos (show p ≠ 0 from by omega)]
          exact inv_deAllocate h hp
      · cases hs
  | write p i v =>
      simp only [State.step] at hs
      split at hs
      · next hp =>
          cases hs
          obtain ⟨hfree, hchain, -⟩ := h.write_frame hp.1 hp.2 v
          -- a client writes inside its slot, so the two chains are as they were
          exact inv_move h rfl (List.Perm.refl _) hfree hchain
      · cases hs

theorem allocate_slotSize (pool : Pool) (m : Memory) (newBlock : Nat) :
    (pool.allocate m newBlock).2.1.slotSize = pool.slotSize := by
  unfold Pool.allocate Pool.nofreeSolve
  split
  · rfl
  · split <;> rfl

theorem step_slotSize {s' : State} {l : Label} (hs : s.step l = some s') :
    s'.pool.slotSize = s.pool.slotSize := by
  cases l with
  | allocate newBlock =>
      simp only [State.step] at hs
      split at hs
      · cases hs
        exact allocate_slotSize s.pool s.memory newBlock
      · cases hs
  | deAllocate p =>
      simp only [State.step] at hs
      split at hs
      · cases hs
        unfold Pool.deAllocate
        split <;> rfl
      · cases hs
  | write p i v =>
      simp only [State.step] at hs
      split at hs
      · cases hs
        rfl
      · cases hs

end Steps

/-! ## Runs -/

/-- What holds of the slots of size `size` in a state of the pool. -/
structure Separated (size : Nat) (s : State) : Prop where
  inBlock : ∀ p ∈ s.held, ∃ b ∈ s.blocks, b + 8 ≤ p ∧ p + size ≤ b + BlockSize
  heldApart : s.held.Pairwise (Apart size)
  notFreed : ∀ p ∈ s.held, ∀ q ∈ s.freed, Apart size p q
  notUnissued : ∀ p ∈ s.held,
    p + size ≤ s.pool.currentSlot ∨ s.pool.currentBlock + BlockSize ≤ p
  /-- The free list is finite, and has each freed slot once. -/
  freeList : Chain s.memory s.pool.freeSlot s.freed ∧ s.freed.Nodup
  blockList : Chain s.memory s.pool.currentBlock s.blocks
  /-- Whatever a client writes into its slot. -/
  write : ∀ p ∈ s.held, ∀ i < size, ∀ v,
    Chain (writeByte s.memory (p + i) v) s.pool.freeSlot s.freed ∧
      Chain (writeByte s.memory (p + i) v) s.pool.currentBlock s.blocks ∧
      ∀ q ∈ s.held, q ≠ p → ∀ j < size,
        writeByte s.memory (p + i) v (q + j) = s.memory (q + j)

theorem Inv.separated {s : State} (h : Inv s) : Separated s.pool.slotSize s := by
  have happ := List.pairwise_append.mp h.slots
  refine ⟨fun p hp => (h.inBlock p (List.mem_append_left _ hp)).block, happ.1, happ.2.2,
    fun p hp => ?_, ⟨h.freeChain, apart_nodup h.size_pos happ.2.1⟩, h.blockChain,
    fun p hp i hi v => h.write_frame hp hi v⟩
  rcases h.current with ⟨hnone, -⟩ | hcur
  · -- without a block there is no slot
    obtain ⟨b, hb, -⟩ := (h.inBlock p (List.mem_append_left _ hp)).block
    rw [hnone] at hb
    cases hb
  · exact hcur.issued p (List.mem_append_left _ hp)

/-- **Slots never overlap.** For every slot size of eight to 512 bytes and every run of
`allocate`, `deAllocate` of a held slot and writes of the clients into their slots, whatever
blocks `operator new` returns, and whatever the memory had in it. -/
theorem slots_apart {k : Nat} (hlo : 1 ≤ k) (hhi : k ≤ 64) {pool : Pool}
    (hinit : init (8 * k) = some pool) (m : Memory) {ls : List Label} {s : State}
    (hrun : exec State.step (State.start pool m) ls = some s) : Separated (8 * k) s := by
  have hstart : Inv (State.start pool m) ∧ pool.slotSize = 8 * k := by
    refine ⟨start_inv (Nat.dvd_mul_right 8 k) (by omega) (by omega) hinit m, ?_⟩
    rw [init, if_pos (by omega)] at hinit
    cases hinit
    rfl
  have hinv := exec_invariant (I := fun s => Inv s ∧ s.pool.slotSize = 8 * k)
    (fun s l t h hs => ⟨step_inv h.1 hs, (step_slotSize hs).trans h.2⟩) hstart hrun
  rw [← hinv.2]
  exact hinv.1.separated

/-- Slots of 24 bytes in a block at 4096; the first one, behind a padding that has wrapped, is
given back and handed out again. -/
def sampleRun : List Label :=
  [.allocate 4096, .allocate 0, .deAllocate 4120, .write 4144 0 7, .allocate 0]

def samplePool : Pool where
  slotSize := 24
  currentBlock := 0
  currentSlot := 0
  lastSlot := 0
  freeSlot := 0

theorem slots_apart_sample :
    1 ≤ 3 ∧ 3 ≤ 64 ∧ init (8 * 3) = some samplePool ∧
      ∃ s, exec State.step (State.start samplePool fun _ => 0) sampleRun = some s ∧
        s.held = [4120, 4144] ∧ Separated (8 * 3) s :=
  ⟨by decide, by decide, rfl, _, rfl, rfl,
    slots_apart (k := 3) (by decide) (by decide)
      (show init (8 * 3) = some samplePool from rfl) (fun _ => 0)
      (show exec State.step (State.start samplePool fun _ => 0) sampleRun = some _ from rfl)⟩

end HttpWebserver.MemoryPool
