import HttpWebserver.MemoryPool.Slots
import Mathlib.Logic.Function.Basic

/-!
# MemoryPool — a pool that several loops share

The unlocked tests of `freeSlot_` and of `currentSlot_ >= lastSlot_` and the locked regions are the
steps of the threads, each atomic.

* `freeSlot_` is tested again under its lock. The end of the block is not, so a thread can move
  `currentSlot_` on after another one took the last slot.
* `State.ofShared`: what the threads share is a pool of one thread, whose steps the locked regions
  are as long as a test of the end of the block still holds when its slot is taken;
* `SharedInv`: with the blocks that `operator new` has returned and that no thread has added yet;
* **`shared_slots_apart_iff`** — in all states of a run the slots are in blocks and apart if and
  only if no slot is taken on a test that does not hold any more.
-/

namespace HttpWebserver.MemoryPool

open ByteMemory MachineInt Machine

/-- Where a thread is in `allocate`. -/
inductive Phase where
  | idle
  /-- At the lock of `freeSlot_`, which was not null. -/
  | popping
  /-- At the test of the end of the block. -/
  | noFree
  /-- At the lock of the current block, which had room. -/
  | bumping
  /-- At `operator new`. -/
  | newing
  /-- At the lock in `allocateBlock`. -/
  | adding (newBlock : Nat)
deriving DecidableEq, Repr

/-- The pool in memory, with who holds which slot. -/
structure Shared (T : Type*) where
  pool : Pool
  memory : Memory
  blocks : List Nat
  held : List (T × Nat)
  freed : List Nat
  /-- What `operator new` has returned. -/
  obtained : List Nat
  phase : T → Phase

inductive SharedLabel (T : Type*) where
  /-- A call of `allocate`, up to the first test of `freeSlot_`. -/
  | allocate (thread : T)
  | popFree (thread : T)
  | testBlock (thread : T)
  | bump (thread : T)
  | operatorNew (thread : T) (newBlock : Nat)
  | addBlock (thread : T)
  | deAllocate (thread : T) (p : Nat)
  /-- A thread writes a byte into a slot it holds. -/
  | write (thread : T) (p i : Nat) (v : UInt8)

namespace Shared

variable {T : Type*} [DecidableEq T]

def start (pool : Pool) (m : Memory) : Shared T where
  pool := pool
  memory := m
  blocks := []
  held := []
  freed := []
  obtained := []
  phase _ := .idle

def goto (s : Shared T) (thread : T) (phase : Phase) : Shared T :=
  { s with phase := Function.update s.phase thread phase }

/-- `allocate` returns a slot. -/
def hand (s : Shared T) (thread : T) (p : Nat) : Shared T :=
  { s.goto thread .idle with held := (thread, p) :: s.held, freed := s.freed.erase p }

def popFree (s : Shared T) (thread : T) : Shared T :=
  if s.pool.freeSlot ≠ 0 then
    let p := s.pool.freeSlot
    let s := { s with pool := { s.pool with freeSlot := readWord s.memory p } }
    s.hand thread p
  else s.goto thread .noFree

/-- The locked region of `nofreeSolve`. -/
def bump (s : Shared T) (thread : T) : Shared T :=
  let p := s.pool.currentSlot
  let s := { s with pool := s.pool.nextSlot }
  s.hand thread p

/-- The locked region of `allocateBlock`. -/
def addBlock (s : Shared T) (thread : T) (newBlock : Nat) : Shared T :=
  let (p, pool, m) := s.pool.allocateBlock s.memory newBlock
  let s := { s with pool := pool, memory := m, blocks := newBlock :: s.blocks }
  s.hand thread p

def step (s : Shared T) : SharedLabel T → Option (Shared T)
  | .allocate thread =>
    if s.phase thread = .idle then
      some (s.goto thread (if s.pool.freeSlot ≠ 0 then .popping else .noFree))
    else none
  | .popFree thread => if s.phase thread = .popping then some (s.popFree thread) else none
  | .testBlock thread =>
    if s.phase thread = .noFree then
      some (s.goto thread (if s.pool.lastSlot ≤ s.pool.currentSlot then .newing else .bumping))
    else none
  | .bump thread => if s.phase thread = .bumping then some (s.bump thread) else none
  | .operatorNew thread newBlock =>
    if s.phase thread = .newing ∧ FreshBlock s.obtained newBlock then
      some { s.goto thread (.adding newBlock) with obtained := newBlock :: s.obtained }
    else none
  | .addBlock thread =>
    match s.phase thread with
    | .adding newBlock => some (s.addBlock thread newBlock)
    | _ => none
  | .deAllocate thread p =>
    if s.phase thread = .idle ∧ (thread, p) ∈ s.held then
      let (pool, m) := s.pool.deAllocate s.memory p
      some { s with pool := pool, memory := m
                    held := s.held.erase (thread, p), freed := p :: s.freed }
    else none
  | .write thread p i v =>
    if (thread, p) ∈ s.held ∧ i < s.pool.slotSize then
      some { s with memory := writeByte s.memory (p + i) v }
    else none

/-- The slots that are held lie inside blocks from `operator new`, behind their headers, and apart
from each other. -/
structure SlotsApart (size : Nat) (s : Shared T) : Prop where
  inBlock : ∀ x ∈ s.held, ∃ b ∈ s.obtained, b + 8 ≤ x.2 ∧ x.2 + size ≤ b + BlockSize
  heldApart : s.held.Pairwise fun x y => Apart size x.2 y.2

/-- What a thread found before the lock holds when it takes the slot. -/
def RoomLeft (s : Shared T) (l : SharedLabel T) : Prop :=
  ∀ thread, l = .bump thread → s.pool.currentSlot < s.pool.lastSlot

end Shared

/-- What the threads share. -/
def State.ofShared {T : Type*} (s : Shared T) : State where
  pool := s.pool
  memory := s.memory
  blocks := s.blocks
  held := s.held.map Prod.snd
  freed := s.freed

namespace Shared

variable {T : Type*}

/-! ## The invariant

That of a pool used by one thread, and where the threads are: one that is past the test of the
current block has found a block, and a block on its way is the thread's own. -/

structure SharedInv (s : Shared T) : Prop where
  inv : Inv (State.ofShared s)
  obtained : ∀ b ∈ s.obtained, 8 ∣ b ∧ 0 < b ∧ b + BlockSize ≤ 2 ^ 64
  apart : s.obtained.Pairwise (Apart BlockSize)
  added : ∀ b ∈ s.blocks, b ∈ s.obtained
  /-- A block on its way to the pool is a thread's own. -/
  adding : ∀ t b, s.phase t = .adding b → b ∈ s.obtained ∧ b ∉ s.blocks ∧
    ∀ u, s.phase u = .adding b → u = t
  bumping : ∀ t, s.phase t = .bumping → s.blocks ≠ []

section Steps

variable {s s' : Shared T} {l : SharedLabel T} {thread : T} {p b : Nat}

/-- A step that leaves the blocks alone. -/
theorem SharedInv.of_frame (h : s.SharedInv) (hinv : Inv (State.ofShared s'))
    (hobtained : s'.obtained = s.obtained) (hblocks : s'.blocks = s.blocks)
    (hadding : ∀ t b, s'.phase t = .adding b → s.phase t = .adding b)
    (hbumping : ∀ t, s'.phase t = .bumping → s.phase t = .bumping ∨ s.blocks ≠ []) :
    s'.SharedInv := by
  refine ⟨hinv, ?_, ?_, ?_, fun t b ht => ?_, fun t ht => ?_⟩
  · rw [hobtained]
    exact h.obtained
  · rw [hobtained]
    exact h.apart
  · rw [hobtained, hblocks]
    exact h.added
  · obtain ⟨hmem, hnot, hown⟩ := h.adding t b (hadding t b ht)
    rw [hobtained, hblocks]
    exact ⟨hmem, hnot, fun u hu => hown u (hadding u b hu)⟩
  · rw [hblocks]
    exact (hbumping t ht).elim (h.bumping t) id

/-- A block on its way is as if `operator new` had just returned it. -/
theorem SharedInv.fresh (h : s.SharedInv) (hthread : s.phase thread = .adding b) :
    FreshBlock s.blocks b := by
  obtain ⟨hmem, hnot, -⟩ := h.adding thread b hthread
  obtain ⟨haligned, hpos, hspace⟩ := h.obtained b hmem
  refine ⟨haligned, hpos, hspace, fun c hc => h.apart.forall hmem (h.added c hc) ?_⟩
  rintro rfl
  exact hnot hc

theorem write_inv (h : s.SharedInv) (hp : (thread, p) ∈ s.held) {i : Nat}
    (hi : i < s.pool.slotSize) (v : UInt8) :
    SharedInv { s with memory := writeByte s.memory (p + i) v } := by
  have hmem : p ∈ s.held.map Prod.snd := List.mem_map.mpr ⟨_, hp, rfl⟩
  obtain ⟨hfree, hchain, -⟩ := h.inv.write_frame hmem hi v
  refine h.of_frame ?_ rfl rfl (fun _ _ => id) (fun _ => Or.inl)
  exact inv_move h.inv rfl (List.Perm.refl _) hfree hchain

variable [DecidableEq T]

/-- Another thread, or this one where it is now. -/
theorem goto_phase {t : T} {phase phase' : Phase}
    (h : (s.goto thread phase).phase t = phase') : (t = thread ∧ phase = phase') ∨
      (t ≠ thread ∧ s.phase t = phase') := by
  simp only [goto] at h
  rcases eq_or_ne t thread with rfl | hne
  · rw [Function.update_self] at h
    exact .inl ⟨rfl, h⟩
  · rw [Function.update_of_ne hne] at h
    exact .inr ⟨hne, h⟩

/-- A thread goes on to a place where it has no block and has not tested the current one. -/
theorem SharedInv.of_goto (h : s.SharedInv) (thread : T) (phase : Phase)
    (hphase : s'.phase = (s.goto thread phase).phase) (hinv : Inv (State.ofShared s'))
    (hobtained : s'.obtained = s.obtained) (hblocks : s'.blocks = s.blocks)
    (hadding : ∀ b, phase ≠ .adding b) (hbumping : phase = .bumping → s.blocks ≠ []) :
    s'.SharedInv := by
  refine h.of_frame hinv hobtained hblocks (fun t b ht => ?_) (fun t ht => ?_)
  · rw [hphase] at ht
    rcases goto_phase ht with ⟨-, hself⟩ | ⟨-, ht⟩
    · exact absurd hself (hadding b)
    · exact ht
  · rw [hphase] at ht
    rcases goto_phase ht with ⟨-, hself⟩ | ⟨-, ht⟩
    · exact .inr (hbumping hself)
    · exact .inl ht

theorem popFree_inv (h : s.SharedInv) (thread : T) : (s.popFree thread).SharedInv := by
  unfold popFree
  split
  · next hne =>
    have hinv := inv_reuse h.inv hne
    rw [State.ofShared] at hinv
    dsimp only at hinv ⊢
    -- the word is the next free slot, whatever it is
    generalize readWord s.memory s.pool.freeSlot = freeSlot at hinv ⊢
    exact h.of_goto thread .idle rfl hinv rfl rfl (by simp) (by simp)
  · exact h.of_goto thread .noFree rfl h.inv rfl rfl (by simp) (by simp)

theorem bump_inv (h : s.SharedInv) (hroom : s.pool.currentSlot < s.pool.lastSlot) (thread : T) :
    (s.bump thread).SharedInv := by
  refine h.of_goto thread .idle rfl ?_ rfl rfl (by simp) (by simp)
  exact inv_bump h.inv hroom

theorem operatorNew_inv (h : s.SharedInv) (hfresh : FreshBlock s.obtained b) (thread : T) :
    SharedInv { s.goto thread (.adding b) with obtained := b :: s.obtained } := by
  obtain ⟨haligned, hpos, hspace, hapart⟩ := hfresh
  have hnew : b ∉ s.obtained := by
    intro hmem
    have hblock : BlockSize = 4096 := rfl
    rcases hapart b hmem with hlow | hhigh <;> omega
  refine ⟨h.inv, fun c hc => ?_, List.pairwise_cons.mpr ⟨hapart, h.apart⟩,
    fun c hc => List.mem_cons_of_mem _ (h.added c hc), fun t c ht => ?_, fun t ht => ?_⟩
  · rcases List.mem_cons.mp hc with rfl | hc
    · exact ⟨haligned, hpos, hspace⟩
    · exact h.obtained c hc
  · rcases goto_phase ht with ⟨rfl, hself⟩ | ⟨-, ht⟩
    · -- nobody else has the new block
      cases hself
      refine ⟨List.mem_cons_self, fun hmem => hnew (h.added b hmem), fun u hu => ?_⟩
      rcases goto_phase hu with ⟨rfl, -⟩ | ⟨-, hu⟩
      · rfl
      · exact absurd (h.adding u b hu).1 hnew
    · obtain ⟨hmem, hnot, hown⟩ := h.adding t c ht
      refine ⟨List.mem_cons_of_mem _ hmem, hnot, fun u hu => ?_⟩
      rcases goto_phase hu with ⟨-, hself⟩ | ⟨-, hu⟩
      · cases hself
        exact absurd hmem hnew
      · exact hown u hu
  · rcases goto_phase ht with ⟨-, hself⟩ | ⟨-, ht⟩
    · cases hself
    · exact h.bumping t ht

theorem addBlock_inv (h : s.SharedInv) (hthread : s.phase thread = .adding b) :
    (s.addBlock thread b).SharedInv := by
  obtain ⟨hmem, hnot, hown⟩ := h.adding thread b hthread
  refine ⟨inv_allocateBlock h.inv (h.fresh hthread), h.obtained, h.apart, fun c hc => ?_,
    fun t c ht => ?_, fun t ht => ?_⟩
  · rcases List.mem_cons.mp hc with rfl | hc
    · exact hmem
    · exact h.added c hc
  · rcases goto_phase (s := s) ht with ⟨-, hself⟩ | ⟨hne, hphase⟩
    · cases hself
    · obtain ⟨hmem', hnot', hown'⟩ := h.adding t c hphase
      refine ⟨hmem', fun hc => ?_, fun u hu => ?_⟩
      · rcases List.mem_cons.mp hc with heq | hc
        · -- no two threads add the same block
          rw [heq] at hphase
          exact hne (hown t hphase)
        · exact hnot' hc
      · rcases goto_phase (s := s) hu with ⟨-, hself⟩ | ⟨-, hu⟩
        · cases hself
        · exact hown' u hu
  · exact List.cons_ne_nil _ _

theorem deAllocate_inv (h : s.SharedInv) (hp : (thread, p) ∈ s.held) :
    SharedInv { s with
      pool := (s.pool.deAllocate s.memory p).1, memory := (s.pool.deAllocate s.memory p).2
      held := s.held.erase (thread, p), freed := p :: s.freed } := by
  have hmem : p ∈ s.held.map Prod.snd := List.mem_map.mpr ⟨_, hp, rfl⟩
  have hpos := (h.inv.slot_lt (List.mem_append_left _ hmem)).1
  simp only [Pool.deAllocate, if_pos (show p ≠ 0 from by omega)]
  refine h.of_frame ?_ rfl rfl (fun _ _ => id) (fun _ => Or.inl)
  -- the same slots are held as after the pool's own `erase`
  have hperm : ((s.held.erase (thread, p)).map Prod.snd).Perm ((s.held.map Prod.snd).erase p) := by
    have hcons := ((List.perm_cons_erase hp).map Prod.snd).erase p
    rw [List.map_cons, List.erase_cons_head] at hcons
    exact hcons.symm
  have hfreed := inv_deAllocate h.inv hmem
  exact inv_move hfreed rfl (hperm.append_right _) hfreed.freeChain hfreed.blockChain

theorem step_sharedInv (h : s.SharedInv) (hroom : s.RoomLeft l) (hs : s.step l = some s') :
    s'.SharedInv := by
  cases l with
  | allocate thread =>
    simp only [step] at hs
    split at hs
    · -- where the caller goes depends on `freeSlot_` alone
      cases hs
      apply h.of_goto thread _ rfl h.inv rfl rfl
      · intro b
        split <;> simp
      · intro hbad
        split at hbad <;> cases hbad
    · cases hs
  | popFree thread =>
    simp only [step] at hs
    split at hs
    · cases hs
      exact popFree_inv h thread
    · cases hs
  | testBlock thread =>
    simp only [step] at hs
    split at hs
    · cases hs
      apply h.of_goto thread _ rfl h.inv rfl rfl
      · intro b
        split <;> simp
      · intro hbump
        split at hbump
        · cases hbump
        · -- the test has found room, so there is a block, and blocks stay
          next hroom =>
          rcases h.inv.current with ⟨-, hfull⟩ | hcur
          · exact absurd hfull hroom
          · exact List.ne_nil_of_mem hcur.head
    · cases hs
  | bump thread =>
    simp only [step] at hs
    split at hs
    · cases hs
      -- the only step that needs the condition: the room may be gone since the test
      exact bump_inv h (hroom thread rfl) thread
    · cases hs
  | operatorNew thread newBlock =>
    simp only [step] at hs
    split at hs
    · next hnew =>
      cases hs
      exact operatorNew_inv h hnew.2 thread
    · cases hs
  | addBlock thread =>
    simp only [step] at hs
    split at hs
    · next newBlock hthread =>
      cases hs
      exact addBlock_inv h hthread
    · cases hs
  | deAllocate thread p =>
    simp only [step] at hs
    split at hs
    · next hp =>
      cases hs
      exact deAllocate_inv h hp.2
    · cases hs
  | write thread p i v =>
    simp only [step] at hs
    split at hs
    · next hp =>
      cases hs
      exact write_inv h hp.1 hp.2 v
    · cases hs

omit [DecidableEq T] in
theorem SharedInv.slotsApart (h : s.SharedInv) : s.SlotsApart s.pool.slotSize := by
  constructor
  · intro x hx
    have hmem : x.2 ∈ s.held.map Prod.snd := List.mem_map.mpr ⟨x, hx, rfl⟩
    obtain ⟨b, hb, hin⟩ := (h.inv.inBlock x.2 (List.mem_append_left _ hmem)).block
    exact ⟨b, h.added b hb, hin⟩
  · exact List.pairwise_map.mp (List.pairwise_append.mp h.inv.slots).1

/-- A slot that is taken on a test that does not hold any more is in no block. -/
theorem bump_outside (h : s.SharedInv) (hthread : s.phase thread = .bumping)
    (hstale : s.pool.lastSlot ≤ s.pool.currentSlot) :
    ¬ (s.bump thread).SlotsApart s.pool.slotSize := by
  intro hapart
  have hsize := h.inv.size
  have hblock : BlockSize = 4096 := rfl
  rcases h.inv.current with ⟨hnone, -⟩ | hcur
  · exact h.bumping thread hthread hnone
  · have hhead := h.added _ hcur.head
    have hlast := hcur.last
    have hbehind := hcur.behind
    have hwithin := hcur.within
    simp only [State.ofShared] at hsize hlast hbehind hwithin hhead
    obtain ⟨b, hb, hlo, hhi⟩ := hapart.inBlock (thread, s.pool.currentSlot) List.mem_cons_self
    have hb : b ∈ s.obtained := hb
    rcases eq_or_ne b s.pool.currentBlock with rfl | hne
    · -- it would end behind the current block
      omega
    · rcases h.apart.forall hb hhead hne with hlow | hhigh <;> omega

theorem step_slotSize' (hs : s.step l = some s') : s'.pool.slotSize = s.pool.slotSize := by
  cases l with
  | popFree thread =>
    simp only [step] at hs
    split at hs <;> cases hs
    unfold popFree
    split <;> rfl
  | deAllocate thread p =>
    simp only [step] at hs
    split at hs <;> cases hs
    show (s.pool.deAllocate s.memory p).1.slotSize = _
    unfold Pool.deAllocate
    split <;> rfl
  | _ =>
    simp only [step] at hs
    split at hs <;> cases hs
    rfl

end Steps

/-! ## Runs

The tests before the locked regions may not hold any more when the lock is taken. A stale test of
`freeSlot_` is repeated under the lock, a stale test of the room is not. -/

section Runs

variable [DecidableEq T] {size : Nat} {pool : Pool} {m : Memory} {s : Shared T}
  {ls : List (SharedLabel T)}

omit [DecidableEq T] in
theorem start_sharedInv (hinv : Inv (State.start pool m)) :
    (start pool m : Shared T).SharedInv := by
  refine ⟨hinv, by simp [start], .nil, by simp [start], by simp [start], by simp [start]⟩

theorem run_slotSize (hrun : exec step (start pool m) ls = some s) :
    s.pool.slotSize = pool.slotSize :=
  exec_invariant (I := fun s => s.pool.slotSize = pool.slotSize)
    (fun _ _ _ h hs => (step_slotSize' hs).trans h) rfl hrun

/-- A locked step without room behind `currentSlot_` hands out a slot outside of the blocks. -/
theorem step_outside (h : s.SharedInv) (hroom : ¬ RoomLeft s l) (hs : s.step l = some s') :
    ¬ s'.SlotsApart s.pool.slotSize := by
  simp only [RoomLeft, not_forall] at hroom
  obtain ⟨thread, rfl, hstale⟩ := hroom
  simp only [step] at hs
  split at hs
  · next hthread =>
    cases hs
    exact bump_outside h hthread (Nat.not_lt.mp hstale)
  · cases hs

/-- **Slots of a shared pool.** For every slot size of eight to 512 bytes, any threads and every run
of their steps: in all states of the run the slots that are held lie in blocks from `operator new`
and apart from each other if and only if every locked step that moves `currentSlot_` on is taken
while `currentSlot_ < lastSlot_`. -/
theorem shared_slots_apart_iff {k : Nat} (hlo : 1 ≤ k) (hhi : k ≤ 64)
    (hinit : init (8 * k) = some pool) (m : Memory)
    (hrun : exec step (start pool m) ls = some s) :
    (∀ js, js <+: ls → ∀ t, exec step (start pool m) js = some t → t.SlotsApart (8 * k)) ↔
      Along step RoomLeft (start pool m) ls := by
  have hinv : Inv (State.start pool m) :=
    start_inv (Nat.dvd_mul_right 8 k) (by omega) (by omega) hinit m
  have hsize : pool.slotSize = 8 * k := by
    rw [init, if_pos (by omega)] at hinit
    cases hinit
    rfl
  have hsame : ∀ {js : List (SharedLabel T)} {t : Shared T},
      exec step (start pool m) js = some t → t.pool.slotSize = 8 * k :=
    fun ht => (run_slotSize ht).trans hsize
  refine always_iff_along (I := fun _ t => t.SharedInv) (start_sharedInv hinv) ?_
    (fun _ _ _ _ _ h hroom hs => step_sharedInv h hroom hs) ?_ hrun
  · intro js t ht h
    have hapart := h.slotsApart
    rw [hsame ht] at hapart
    exact hapart
  · intro js t l t' ht h hroom hs
    have houtside := step_outside h hroom hs
    rw [hsame ht] at houtside
    exact houtside

/-- The steps of one thread that takes the next slot of the current block. -/
def takeNext (thread : Nat) : List (SharedLabel Nat) :=
  [.allocate thread, .testBlock thread, .bump thread]

/-- Slots of 512 bytes, seven in the block. -/
def largestPool : Pool where
  slotSize := 512
  currentBlock := 0
  currentSlot := 0
  lastSlot := 0
  freeSlot := 0

/-- A block and its first six slots. -/
def sixSlots : List (SharedLabel Nat) :=
  [.allocate 0, .testBlock 0, .operatorNew 0 4096, .addBlock 0] ++ takeNext 0 ++ takeNext 0
    ++ takeNext 1 ++ takeNext 1 ++ takeNext 0

/-- A thread gives a slot back between the two tests of another one. -/
def slotComesBack : List (SharedLabel Nat) :=
  sixSlots ++ [.deAllocate 0 5120, .allocate 1, .deAllocate 0 4608, .popFree 1]

theorem shared_slots_apart_iff_sample :
    1 ≤ 64 ∧ 64 ≤ 64 ∧ init (8 * 64) = some largestPool ∧
      ∃ s, exec step (start largestPool fun _ => 0) slotComesBack = some s ∧
        s.held.head? = some (1, 4608) ∧
        ((∀ js, js <+: slotComesBack → ∀ t,
          exec step (start largestPool fun _ => 0) js = some t → t.SlotsApart (8 * 64)) ↔
            Along step RoomLeft (start largestPool fun _ => 0) slotComesBack) := by
  have hdone : (exec step (start largestPool fun _ => 0) slotComesBack).map (·.held.head?)
      = some (some (1, 4608)) := by decide +kernel
  obtain ⟨s, hrun, hheld⟩ := Option.map_eq_some_iff.mp hdone
  have hinit : init (8 * 64) = some largestPool := rfl
  exact ⟨by decide, by decide, hinit, s, hrun, hheld,
    shared_slots_apart_iff (k := 64) (by decide) (by decide) hinit (fun _ => 0) hrun⟩

/-- Two threads find the last slot of the block free, and both take one. -/
def lastSlotTwice : List (SharedLabel Nat) :=
  sixSlots ++ [.allocate 0, .allocate 1, .testBlock 0, .testBlock 1, .bump 0, .bump 1]

theorem last_slot_twice :
    ∃ s, exec step (start largestPool fun _ => 0) lastSlotTwice = some s ∧
      s.obtained = [4096] ∧ s.held.head? = some (1, 8192) ∧ ¬ s.SlotsApart 512 := by
  have hdone : (exec step (start largestPool fun _ => 0) lastSlotTwice).map
      (fun s => (s.obtained, s.held.head?)) = some ([4096], some (1, 8192)) := by decide +kernel
  obtain ⟨s, hrun, hs⟩ := Option.map_eq_some_iff.mp hdone
  obtain ⟨hobtained, hheld⟩ := Prod.mk.inj hs
  refine ⟨s, hrun, hobtained, hheld, fun h => ?_⟩
  obtain ⟨b, hb, hin⟩ := h.inBlock (1, 8192) (List.mem_of_mem_head? hheld)
  rw [hobtained] at hb
  rw [List.mem_singleton.mp hb] at hin
  -- the slot ends behind the block
  revert hin
  decide

end Runs

end Shared

end HttpWebserver.MemoryPool
