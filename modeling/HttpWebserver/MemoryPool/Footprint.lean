import HttpWebserver.MemoryPool.Routes

/-!
# MemoryPool — how much memory the pools take

A pool asks for a block only when it has no slot left, and gives none back before its destructor.
So its blocks follow the largest number of objects that it has had at one time.

* `leastSlots`, `mostSlots`: the slots of a block, which depend on its padding;
* `Filled`: the blocks behind the current one are used up;
* `Filled.newBlock`, `Filled.nextSlot`: the two ways to a slot that was never handed out;
* `Change`, `step_change`: what a step of the heap does to the slots of one pool;
* **`blocks_follow_use`** — a pool with `n` blocks has had more objects at one time than `n - 1`
  blocks are sure to have room for, and has no more than `n` blocks can have.
-/

namespace HttpWebserver.MemoryPool

open ByteMemory Machine

/-- The slots that a block has, whatever its padding. -/
def leastSlots (size : Nat) : Nat := BlockSize / size - 1

/-- The slots that a block can have. -/
def mostSlots (size : Nat) : Nat := (BlockSize - 8) / size

/-- The slots that a pool has handed out or got back, in its blocks: `full` of them are behind the
current block, and `current` in it. -/
structure Filled (pool : Pool) (blocks slots full current : Nat) : Prop where
  total : slots = full + current
  least : (blocks - 1) * leastSlots pool.slotSize ≤ full
  most : full ≤ (blocks - 1) * mostSlots pool.slotSize
  unused : blocks = 0 → slots = 0
  used : blocks ≠ 0 →
    pool.currentBlock + 8 + current * pool.slotSize ≤ pool.currentSlot ∧
      pool.currentSlot ≤ pool.currentBlock + (current + 1) * pool.slotSize

section Filled

variable {pool : Pool} {blocks slots full current : Nat} {bs ss : List Nat}

theorem leastSlots_le {size : Nat} (hsize : 0 < size) (h : BlockSize < (current + 2) * size) :
    leastSlots size ≤ current := by
  have hlt := (Nat.div_lt_iff_lt_mul hsize).mpr h
  unfold leastSlots
  omega

theorem Filled.le_mostSlots (h : Filled pool blocks slots full current) (hsize : 0 < pool.slotSize)
    (hcur : Current pool bs ss) (hblocks : blocks ≠ 0) : current ≤ mostSlots pool.slotSize := by
  refine (Nat.le_div_iff_mul_le hsize).mpr ?_
  have hlow := (h.used hblocks).1
  have hwithin := hcur.within
  omega

/-- No pool has more slots than its blocks have room for. -/
theorem Filled.slots_le (h : Filled pool blocks slots full current) (hsize : 0 < pool.slotSize)
    (hcur : blocks ≠ 0 → Current pool bs ss) : slots ≤ blocks * mostSlots pool.slotSize := by
  rcases Nat.eq_zero_or_pos blocks with hzero | hpos
  · rw [h.unused hzero]
    exact Nat.zero_le _
  · have hne := Nat.ne_of_gt hpos
    have hmost := h.most
    have hcurrent := h.le_mostSlots hsize (hcur hne) hne
    obtain ⟨n, rfl⟩ := Nat.exists_eq_succ_of_ne_zero hne
    rw [Nat.succ_sub_one] at hmost
    rw [h.total, Nat.succ_mul]
    omega

/-- A pool that has used its blocks up has handed out what they are sure to have. -/
theorem Filled.le_slots (h : Filled pool blocks slots full current) (hsize : 0 < pool.slotSize)
    (hcur : blocks ≠ 0 → Current pool bs ss) (hfull : pool.lastSlot ≤ pool.currentSlot) :
    blocks * leastSlots pool.slotSize ≤ slots := by
  rcases Nat.eq_zero_or_pos blocks with hzero | hpos
  · rw [hzero, Nat.zero_mul]
    exact Nat.zero_le _
  · have hne := Nat.ne_of_gt hpos
    have hleast := h.least
    have hcurrent : leastSlots pool.slotSize ≤ current := by
      refine leastSlots_le hsize ?_
      have hlast := (hcur hne).last
      have hhigh := (h.used hne).2
      have hblock : BlockSize = 4096 := rfl
      rw [Nat.add_mul] at hhigh ⊢
      omega
    obtain ⟨n, rfl⟩ := Nat.exists_eq_succ_of_ne_zero hne
    rw [Nat.succ_sub_one] at hleast
    rw [h.total, Nat.succ_mul]
    omega

/-- The first slot of a new block. -/
theorem Filled.newBlock (h : Filled pool blocks slots full current) (hsize : 0 < pool.slotSize)
    (hdvd : 8 ∣ pool.slotSize) (hcur : blocks ≠ 0 → Current pool bs ss)
    (hfull : pool.lastSlot ≤ pool.currentSlot) {b : Nat} (hb : 8 ∣ b) (m : Memory) :
    Filled (pool.allocateBlock m b).2.1 (blocks + 1) (slots + 1) slots 1 := by
  have hlt : padPointer (b + 8) pool.slotSize < pool.slotSize := padPointer_lt hsize
  have hpad : 8 ∣ padPointer (b + 8) pool.slotSize :=
    padPointer_dvd (Nat.dvd_add hb (Nat.dvd_refl 8)) hdvd
  refine ⟨rfl, h.le_slots hsize hcur hfull, h.slots_le hsize hcur,
    fun hzero => absurd hzero (Nat.succ_ne_zero _), fun _ => ?_⟩
  have hnext := nextSlot_currentSlot { pool with
    currentBlock := b, currentSlot := b + 8 + padPointer (b + 8) pool.slotSize
    lastSlot := b + BlockSize - pool.slotSize + 1 } hdvd
  simp only [Pool.allocateBlock]
  rw [hnext]
  show b + 8 + 1 * pool.slotSize ≤ _ ∧ _ ≤ b + (1 + 1) * pool.slotSize
  simp only
  omega

/-- The next slot of the current block. -/
theorem Filled.nextSlot (h : Filled pool blocks slots full current) (hdvd : 8 ∣ pool.slotSize)
    (hblocks : blocks ≠ 0) : Filled pool.nextSlot blocks (slots + 1) full (current + 1) := by
  refine ⟨congrArg Nat.succ h.total, h.least, h.most, fun hzero => absurd hzero hblocks,
    fun hne => ?_⟩
  obtain ⟨hlow, hhigh⟩ := h.used hne
  rw [nextSlot_currentSlot pool hdvd]
  show pool.currentBlock + 8 + (current + 1) * pool.slotSize ≤ _ ∧
    _ ≤ pool.currentBlock + (current + 1 + 1) * pool.slotSize
  rw [Nat.succ_mul (current + 1), Nat.succ_mul current] at *
  omega

end Filled

namespace Heap

/-! ## Steps of the heap -/

section Steps

variable {L : Sizes} {h h' : Heap} {t : Element} {p b i : Nat} {l : ElementLabel}

/-- The slots of a pool that hold an object, or have been given back. -/
def slotsOf (L : Sizes) (h : Heap) (i : Nat) : Nat :=
  (heldSlots L h.objects i).length + (h.freed i).length

/-- What a step does to the pool with the index `i`. -/
inductive Change (L : Sizes) (h h' : Heap) (i : Nat) : Prop where
  | newBlock (b : Nat) (hb : 8 ∣ b)
      (hfull : (h.memorypool i).lastSlot ≤ (h.memorypool i).currentSlot)
      (hpool : h'.memorypool i = ((h.memorypool i).allocateBlock h.memory b).2.1)
      (hblocks : (blocksOf h'.blocks i).length = (blocksOf h.blocks i).length + 1)
      (hheld : (heldSlots L h'.objects i).length = (heldSlots L h.objects i).length + 1)
      (hfreed : h.freed i = []) (hfreed' : h'.freed i = [])
  | nextSlot (hroom : (h.memorypool i).currentSlot < (h.memorypool i).lastSlot)
      (hpool : h'.memorypool i = (h.memorypool i).nextSlot)
      (hblocks : (blocksOf h'.blocks i).length = (blocksOf h.blocks i).length)
      (hslots : slotsOf L h' i = slotsOf L h i + 1)
  | keep (free : Nat) (hpool : h'.memorypool i = { h.memorypool i with freeSlot := free })
      (hblocks : (blocksOf h'.blocks i).length = (blocksOf h.blocks i).length)
      (hslots : slotsOf L h' i = slotsOf L h i)

/-- The step leaves the pool alone. -/
theorem Change.same (hpool : h'.memorypool i = h.memorypool i)
    (hblocks : blocksOf h'.blocks i = blocksOf h.blocks i) (hfreed : h'.freed i = h.freed i)
    (hheld : (heldSlots L h'.objects i).length = (heldSlots L h.objects i).length) :
    Change L h h' i := by
  refine .keep (h.memorypool i).freeSlot hpool (by rw [hblocks]) ?_
  unfold slotsOf
  rw [hheld, hfreed]

theorem Sound.freed_eq_nil (hs : Sound L h) (hi : i < 64) (hfree : (h.memorypool i).freeSlot = 0) :
    h.freed i = [] := by
  have hchain : Chain h.memory (h.memorypool i).freeSlot (h.freed i) := (hs.pools i hi).freeChain
  cases hfreed : h.freed i with
  | nil => rfl
  | cons q qs =>
    rw [hfreed] at hchain
    obtain ⟨hq, hpos, -⟩ := hchain
    omega

/-- `allocate`, in the pool of the object. -/
theorem allocate_change (hs : Sound L h) (hsmall : L.sizeof t ≤ 512)
    (ha : h.allocate (poolIndex (L.sizeof t)) b = some (p, h')) :
    Change L h { h' with objects := (t, p) :: h'.objects } (poolIndex (L.sizeof t)) := by
  obtain ⟨hfresh, hp, -, hpool, -, hblocks, hfreed, hobjects⟩ := allocate_spec ha
  have hlt := poolIndex_lt hsmall
  generalize hi : poolIndex (L.sizeof t) = i at *
  have hheld : (heldSlots L ((t, p) :: h'.objects) i).length =
      (heldSlots L h.objects i).length + 1 := by
    rw [hobjects, ← hi, heldSlots_cons_self hsmall, List.length_cons]
  by_cases hfree : (h.memorypool i).freeSlot = 0
  · have hnil := hs.freed_eq_nil hlt hfree
    have hnil' : h'.freed i = [] := by
      rw [hfreed, Function.update_self, hnil]
      rfl
    by_cases hfull : (h.memorypool i).lastSlot ≤ (h.memorypool i).currentSlot
    · -- nothing freed and no room in the current block: `allocateBlock`
      have hneeds : (h.memorypool i).NeedsBlock := ⟨hfree, hfull⟩
      refine .newBlock b (hfresh hneeds).aligned hfull ?_ ?_ hheld hnil hnil'
      · show h'.memorypool i = _
        rw [hpool, Function.update_self, Pool.allocate, if_neg (not_not.mpr hfree),
          Pool.nofreeSolve, if_pos hfull]
      · show (blocksOf h'.blocks i).length = _
        rw [hblocks, if_pos hneeds]
        simp [blocksOf]
    · -- the next slot of the current block
      have hneeds : ¬ (h.memorypool i).NeedsBlock := fun hneeds => hfull hneeds.2
      refine .nextSlot (Nat.not_le.mp hfull) ?_ ?_ ?_
      · show h'.memorypool i = _
        rw [hpool, Function.update_self, Pool.allocate, if_neg (not_not.mpr hfree),
          Pool.nofreeSolve, if_neg hfull]
      · show (blocksOf h'.blocks i).length = _
        rw [hblocks, if_neg hneeds]
      · show (heldSlots L ((t, p) :: h'.objects) i).length + (h'.freed i).length = _
        rw [hheld, hnil', slotsOf, hnil]
        rfl
  · -- the first freed slot is handed out again
    have hneeds : ¬ (h.memorypool i).NeedsBlock := fun hneeds => hfree hneeds.1
    have hchain : Chain h.memory (h.memorypool i).freeSlot (h.freed i) := (hs.pools i hlt).freeChain
    obtain ⟨rest, hrest, -⟩ := hchain.head hfree
    rw [Pool.allocate, if_pos hfree] at hp hpool
    refine .keep (readWord h.memory (h.memorypool i).freeSlot) ?_ ?_ ?_
    · show h'.memorypool i = _
      rw [hpool, Function.update_self]
    · show (blocksOf h'.blocks i).length = _
      rw [hblocks, if_neg hneeds]
    · show (heldSlots L ((t, p) :: h'.objects) i).length + (h'.freed i).length = _
      rw [hheld, hfreed, Function.update_self, slotsOf, hrest, hp, List.erase_cons_head,
        List.length_cons]
      omega

theorem newElement_change (hs : Sound L h) (hi : i < 64) (hn : newElement L h t b = some h') :
    Change L h h' i := by
  obtain ⟨⟨p, h₁⟩, huse, rfl⟩ := Option.map_eq_some_iff.mp hn
  unfold useMemory at huse
  rw [if_neg (Nat.ne_of_gt (L.pos t))] at huse
  split at huse
  · next hlarge =>
    obtain ⟨h₂, hnew, heq⟩ := Option.map_eq_some_iff.mp huse
    cases heq
    unfold operatorNew at hnew
    split at hnew
    · -- a large object comes from `operator new` and changes no pool
      cases hnew
      refine .same rfl rfl rfl (congrArg List.length ?_)
      exact heldSlots_cons_other fun hboth => absurd hboth.1 (Nat.not_le_of_lt hlarge)
    · cases hnew
  · next hsmall =>
    have hsmall := Nat.le_of_not_lt hsmall
    rcases eq_or_ne i (poolIndex (L.sizeof t)) with rfl | hne
    · exact allocate_change hs hsmall huse
    · -- the pool of another size
      obtain ⟨-, -, -, hpool, -, hblocks, hfreed, hobjects⟩ := allocate_spec huse
      refine .same ?_ ?_ ?_ ?_
      · show h₁.memorypool i = _
        rw [hpool, Function.update_of_ne hne]
      · show blocksOf h₁.blocks i = _
        rw [hblocks]
        split
        · simp [blocksOf, hne.symm]
        · rfl
      · show h₁.freed i = _
        rw [hfreed, Function.update_of_ne hne]
      · show (heldSlots L ((t, p) :: h₁.objects) i).length = _
        rw [hobjects, heldSlots_cons_other fun hboth => hne hboth.2.symm]

/-- `deAllocate`: the slot of the object becomes a freed one. -/
theorem deAllocate_change (hs : Sound L h) (ht : (t, p) ∈ h.objects) (hsmall : L.sizeof t ≤ 512) :
    Change L h { h.deAllocate (poolIndex (L.sizeof t)) p with objects := h.objects.erase (t, p) }
      i := by
  rcases eq_or_ne i (poolIndex (L.sizeof t)) with rfl | hne
  · have hp := object_ne_zero hs ht
    have hheld := (heldSlots_erase ht hsmall).length_eq
    have hmem := mem_heldSlots ht hsmall
    have hpos := List.length_pos_of_mem hmem
    rw [List.length_erase_of_mem hmem] at hheld
    refine .keep p ?_ rfl ?_
    · show Function.update h.memorypool (poolIndex (L.sizeof t))
        ((h.memorypool (poolIndex (L.sizeof t))).deAllocate h.memory p).1 _ = _
      rw [Function.update_self]
      unfold Pool.deAllocate
      rw [if_pos hp]
    · show (heldSlots L (h.objects.erase (t, p)) _).length + (Function.update h.freed _ _ _).length
        = _
      rw [Function.update_self, hheld, slotsOf, List.length_cons]
      omega
  · refine .same ?_ rfl ?_ (heldSlots_erase_other ht fun hboth => hne hboth.2.symm).length_eq
    · exact Function.update_of_ne hne _ _
    · exact Function.update_of_ne hne _ _

theorem freeMemory_change (hs : Sound L h) (ht : (t, p) ∈ h.objects)
    (hfree : h.freeMemory (L.sizeof t) p = some h') :
    Change L h { h' with objects := h.objects.erase (t, p) } i := by
  unfold freeMemory at hfree
  rw [if_neg (object_ne_zero hs ht)] at hfree
  split at hfree
  · next hlarge =>
    rw [operatorDelete_object hs ht hlarge] at hfree
    cases hfree
    refine .same rfl rfl rfl (heldSlots_erase_other ht fun hboth => ?_).length_eq
    exact absurd hboth.1 (Nat.not_le_of_lt hlarge)
  · next hsmall =>
    cases hfree
    exact deAllocate_change hs ht (Nat.le_of_not_lt hsmall)

/-- **What a step does to a pool.** It takes a block, or the next slot of the current one, only
where no freed slot is left; otherwise the slots in use and the freed ones stay as many. -/
theorem step_change (hs : Sound L h) (hi : i < 64) (hstep : h.step L l = some h') :
    Change L h h' i := by
  cases l with
  | construct t b => exact newElement_change hs hi hstep
  | destroy t p =>
    simp only [step] at hstep
    split at hstep
    · next ht =>
      obtain ⟨h₁, hrelease, rfl⟩ := Option.map_eq_some_iff.mp hstep
      by_cases hchannel : t = .channel
      · subst hchannel
        rw [release_channel hs ht] at hrelease
        cases hrelease
      · rw [release_eq hs ht hchannel] at hrelease
        exact freeMemory_change hs ht hrelease
    · cases hstep
  | write t p i v =>
    simp only [step] at hstep
    split at hstep
    · cases hstep
      exact .same rfl rfl rfl rfl
    · cases hstep

/-! ## Runs

A pool takes a block only where all its slots are in use, so the number of its blocks follows the
largest number of slots in use so far. -/

/-- The pool has used its blocks up to `currentSlot_`. -/
def UsedUp (L : Sizes) (h : Heap) (i : Nat) : Prop :=
  ∃ full current, Filled (h.memorypool i) (blocksOf h.blocks i).length (slotsOf L h i) full current

/-- A pool that has a block has a current one. -/
theorem Sound.current (hs : Sound L h) (hi : i < 64) (hne : (blocksOf h.blocks i).length ≠ 0) :
    Current (h.memorypool i) (blocksOf h.blocks i) (heldSlots L h.objects i ++ h.freed i) := by
  rcases (hs.pools i hi).current with ⟨hnil, -⟩ | hcur
  · exact absurd (congrArg List.length hnil) hne
  · exact hcur

theorem Change.usedUp (c : Change L h h' i) (hs : Sound L h) (hi : i < 64) (hu : UsedUp L h i) :
    UsedUp L h' i := by
  obtain ⟨full, current, hf⟩ := hu
  have hsize := (hs.pools i hi).size_pos
  have hdvd := (hs.pools i hi).size.1
  change 0 < (h.memorypool i).slotSize at hsize
  change 8 ∣ (h.memorypool i).slotSize at hdvd
  cases c with
  | newBlock b hb hfull hpool hblocks hheld hfreed hfreed' =>
    -- nothing was freed before, so the new slot is one more in use
    have hslots : slotsOf L h' i = slotsOf L h i + 1 := by
      rw [slotsOf, hheld, hfreed', slotsOf, hfreed]
      rfl
    refine ⟨slotsOf L h i, 1, ?_⟩
    rw [hpool, hblocks, hslots]
    exact hf.newBlock hsize hdvd (hs.current hi) hfull hb h.memory
  | nextSlot hroom hpool hblocks hslots =>
    -- without a block there is no room in one
    have hne : (blocksOf h.blocks i).length ≠ 0 := fun hzero => by
      rcases (hs.pools i hi).current with ⟨-, hfull⟩ | hcur
      · exact absurd hroom (Nat.not_lt.mpr hfull)
      · have hpos := List.length_pos_of_mem hcur.head
        change 0 < (blocksOf h.blocks i).length at hpos
        omega
    refine ⟨full, current + 1, ?_⟩
    rw [hpool, hblocks, hslots]
    exact hf.nextSlot hdvd hne
  | keep free hpool hblocks hslots =>
    refine ⟨full, current, ?_⟩
    rw [hpool, hblocks, hslots]
    exact ⟨hf.total, hf.least, hf.most, hf.unused, hf.used⟩

/-- When a pool takes a block, all slots that it has are in use. -/
theorem Change.peak (c : Change L h h' i) (hs : Sound L h) (hi : i < 64) (hu : UsedUp L h i)
    (hne : (blocksOf h.blocks i).length ≠ (blocksOf h'.blocks i).length) :
    (blocksOf h'.blocks i).length = (blocksOf h.blocks i).length + 1 ∧
      (blocksOf h.blocks i).length * leastSlots (8 * (i + 1)) <
        (heldSlots L h'.objects i).length := by
  cases c with
  | newBlock b hb hfull hpool hblocks hheld hfreed hfreed' =>
    obtain ⟨full, current, hf⟩ := hu
    have hle := hf.le_slots (hs.pools i hi).size_pos (hs.current hi) hfull
    rw [hs.slotSize, slotsOf, hfreed] at hle
    refine ⟨hblocks, ?_⟩
    rw [hheld]
    exact Nat.lt_succ_of_le hle
  | nextSlot hroom hpool hblocks hslots => exact absurd hblocks.symm hne
  | keep free hpool hblocks hslots => exact absurd hblocks.symm hne

theorem start_usedUp (L : Sizes) (m : Memory) (i : Nat) : UsedUp L (start m) i := by
  refine ⟨0, 0, ⟨rfl, ?_, Nat.zero_le _, fun _ => rfl, fun hne => absurd rfl hne⟩⟩
  show (0 - 1) * _ ≤ 0
  rw [Nat.zero_sub, Nat.zero_mul]

variable {m : Memory} {ls : List ElementLabel}

theorem run_usedUp (hrun : exec (step L) (start m) ls = some h) (hi : i < 64) :
    Sound L h ∧ UsedUp L h i :=
  exec_invariant (I := fun h => Sound L h ∧ UsedUp L h i)
    (fun _ _ _ hg hl => ⟨step_sound hg.1 hl, (step_change hg.1 hi hl).usedUp hg.1 hi hg.2⟩)
    ⟨start_sound L m, start_usedUp L m i⟩ hrun

/-- **Memory follows use.** For every target, in every run that constructs and writes event loops,
log buffers and nodes of the cache, and releases log buffers and nodes (to release an event loop is
undefined, and no run does it): a pool with `n` blocks has had, at some time, more than `n - 1`
times the objects that a block is sure to have room for; and it has no more objects than `n` blocks
can have. -/
theorem blocks_follow_use (hrun : exec (step L) (start m) ls = some h) (hi : i < 64) :
    (blocksOf h.blocks i = [] ∨ ∃ js g, js <+: ls ∧ exec (step L) (start m) js = some g ∧
      ((blocksOf h.blocks i).length - 1) * leastSlots (8 * (i + 1)) <
        (heldSlots L g.objects i).length) ∧
      (heldSlots L h.objects i).length ≤
        (blocksOf h.blocks i).length * mostSlots (8 * (i + 1)) := by
  obtain ⟨hs, hu⟩ := run_usedUp hrun hi
  refine ⟨?_, ?_⟩
  · rcases exec_last_change (fun h => (blocksOf h.blocks i).length) hrun with
      hnone | ⟨js, l, g, g', hjs, hg, hl, hsame, hne⟩
    · exact .inl (List.eq_nil_of_length_eq_zero hnone)
    · -- the step that took the last block
      obtain ⟨hs', hu'⟩ := run_usedUp hg hi
      obtain ⟨hblocks, hlt⟩ := (step_change hs' hi hl).peak hs' hi hu' hne
      refine .inr ⟨js ++ [l], g', hjs, exec_concat_eq_some.mpr ⟨g, hg, hl⟩, ?_⟩
      rw [← hsame, hblocks, Nat.add_sub_cancel]
      exact hlt
  · obtain ⟨full, current, hf⟩ := hu
    have hle := hf.slots_le (hs.pools i hi).size_pos (hs.current hi)
    rw [hs.slotSize] at hle
    exact Nat.le_trans (Nat.le_add_right _ _) hle

/-- Nodes of 512 bytes: seven fill a block, one is released and made again, and the next one takes
a second block. -/
def wideNodes : Sizes :=
  { lp64 with
    sizeof := fun t =>
      match t with
      | .keyNode => 512
      | t => lp64.sizeof t
    pos := fun t => by cases t <;> decide }

def nineNodes : List ElementLabel :=
  List.replicate 7 (.construct .keyNode 4096) ++
    [.destroy .keyNode 4608, .construct .keyNode 8192, .construct .keyNode 8192,
      .construct .keyNode 0]

theorem blocks_follow_use_second :
    63 < 64 ∧ ∃ h, exec (step wideNodes) (start fun _ => 0) nineNodes = some h ∧
      blocksOf h.blocks 63 = [8192, 4096] ∧
      (blocksOf h.blocks 63 = [] ∨ ∃ js g, js <+: nineNodes ∧
        exec (step wideNodes) (start fun _ => 0) js = some g ∧
        ((blocksOf h.blocks 63).length - 1) * leastSlots (8 * (63 + 1)) <
          (heldSlots wideNodes g.objects 63).length) ∧
      (heldSlots wideNodes h.objects 63).length ≤
        (blocksOf h.blocks 63).length * mostSlots (8 * (63 + 1)) :=
  ⟨by decide, _, rfl, rfl,
    blocks_follow_use (L := wideNodes) (i := 63)
      (show exec (step wideNodes) _ nineNodes = _ from rfl) (by decide)⟩

end Steps

end Heap

end HttpWebserver.MemoryPool
