import HttpWebserver.Lib.ByteMemory
import HttpWebserver.Lib.MachineInt

/-!
# MemoryPool — slots of one size

The model of the class `MemoryPool` of `MemoryPool/MemoryPool.{h,cc}`, used by one thread. A
`Slot*` is the address of its first byte, null is `0`, and `next` is the word at the address.

* Pointer arithmetic is on natural numbers: blocks end inside the address space. The subtraction
  in `padPointer` is on `size_t`, and wraps.
* The block that `operator new` would return is an argument, looked at only when it is called.
* The locks are not modelled: there is one thread.
-/

namespace HttpWebserver.MemoryPool

open ByteMemory MachineInt

def BlockSize : Nat := 4096

structure Pool where
  slotSize : Nat
  currentBlock : Nat
  currentSlot : Nat
  lastSlot : Nat
  freeSlot : Nat
deriving DecidableEq, Repr

/-- `init`, with its assertion. -/
def init (size : Nat) : Option Pool :=
  if 0 < size then
    some { slotSize := size, currentBlock := 0, currentSlot := 0, lastSlot := 0, freeSlot := 0 }
  else none

def padPointer (p align : Nat) : Nat := sizeSub align p % align

namespace Pool

/-- `currentSlot_ += (slotSize_ >> 3)`, in units of eight bytes. -/
def nextSlot (pool : Pool) : Pool :=
  { pool with currentSlot := pool.currentSlot + 8 * (pool.slotSize >>> 3) }

def allocateBlock (pool : Pool) (m : Memory) (newBlock : Nat) : Nat × Pool × Memory :=
  let body := newBlock + 8
  let bodyPadding := padPointer body pool.slotSize
  let m := writeWord m newBlock pool.currentBlock
  let pool := { pool with currentBlock := newBlock
                          currentSlot := body + bodyPadding
                          lastSlot := newBlock + BlockSize - pool.slotSize + 1 }
  (pool.currentSlot, pool.nextSlot, m)

def nofreeSolve (pool : Pool) (m : Memory) (newBlock : Nat) : Nat × Pool × Memory :=
  if pool.lastSlot ≤ pool.currentSlot then pool.allocateBlock m newBlock
  else (pool.currentSlot, pool.nextSlot, m)

def allocate (pool : Pool) (m : Memory) (newBlock : Nat) : Nat × Pool × Memory :=
  if pool.freeSlot ≠ 0 then
    (pool.freeSlot, { pool with freeSlot := readWord m pool.freeSlot }, m)
  else pool.nofreeSolve m newBlock

def deAllocate (pool : Pool) (m : Memory) (p : Nat) : Pool × Memory :=
  if p ≠ 0 then ({ pool with freeSlot := p }, writeWord m p pool.freeSlot) else (pool, m)

/-- The call of `allocate` gets to `operator new`. -/
def NeedsBlock (pool : Pool) : Prop := pool.freeSlot = 0 ∧ pool.lastSlot ≤ pool.currentSlot

instance (pool : Pool) : Decidable pool.NeedsBlock := inferInstanceAs (Decidable (_ ∧ _))

end Pool

/-! ## The pool and its clients

The pool's own memory, what `operator new` may answer, and clients that write anything they like
into the slots they hold. -/

/-- The ranges of `n` bytes at the two addresses do not meet. -/
def Apart (n p q : Nat) : Prop := p + n ≤ q ∨ q + n ≤ p

instance (n p q : Nat) : Decidable (Apart n p q) := inferInstanceAs (Decidable (_ ∨ _))

/-- What `operator new` may return: an aligned block, apart from those it has returned. -/
structure FreshBlock (blocks : List Nat) (b : Nat) : Prop where
  aligned : 8 ∣ b
  pos : 0 < b
  inSpace : b + BlockSize ≤ 2 ^ 64
  apart : ∀ c ∈ blocks, Apart BlockSize b c

theorem freshBlock_iff {blocks : List Nat} {b : Nat} : FreshBlock blocks b ↔
    8 ∣ b ∧ 0 < b ∧ b + BlockSize ≤ 2 ^ 64 ∧ ∀ c ∈ blocks, Apart BlockSize b c :=
  ⟨fun h => ⟨h.aligned, h.pos, h.inSpace, h.apart⟩, fun ⟨h₁, h₂, h₃, h₄⟩ => ⟨h₁, h₂, h₃, h₄⟩⟩

instance (blocks : List Nat) (b : Nat) : Decidable (FreshBlock blocks b) :=
  decidable_of_iff' _ freshBlock_iff

/-- The pool in memory, the blocks it has, the slots its clients hold, and the slots given back
and not handed out since. -/
structure State where
  pool : Pool
  memory : Memory
  blocks : List Nat
  held : List Nat
  freed : List Nat

def State.start (pool : Pool) (m : Memory) : State where
  pool := pool
  memory := m
  blocks := []
  held := []
  freed := []

/-- A call of the pool, or a client's write of a byte into a slot it holds. -/
inductive Label where
  | allocate (newBlock : Nat)
  | deAllocate (p : Nat)
  | write (p i : Nat) (v : UInt8)

def State.step (s : State) : Label → Option State
  | .allocate newBlock =>
    if s.pool.NeedsBlock → FreshBlock s.blocks newBlock then
      let (p, pool, m) := s.pool.allocate s.memory newBlock
      some { pool := pool, memory := m
             blocks := if s.pool.NeedsBlock then newBlock :: s.blocks else s.blocks
             held := p :: s.held, freed := s.freed.erase p }
    else none
  | .deAllocate p =>
    if p ∈ s.held then
      let (pool, m) := s.pool.deAllocate s.memory p
      some { s with pool := pool, memory := m, held := s.held.erase p, freed := p :: s.freed }
    else none
  | .write p i v =>
    if p ∈ s.held ∧ i < s.pool.slotSize then
      some { s with memory := writeByte s.memory (p + i) v }
    else none

end HttpWebserver.MemoryPool
