import HttpWebserver.MemoryPool.MemoryPool
import Mathlib.Logic.Function.Basic

/-!
# MemoryPool — elements

The model of `useMemory`, `freeMemory`, `newElement` and `deleteElement` of
`MemoryPool/MemoryPool.{h,cc}`, and of what the program makes with them: the `wakeupChannel_` of an
event loop, the buffers of `LogSystem/AsyncLogging.cc` and the nodes of `LFUCache/LFUCache.cc`.

* The 64 pools and the regions from `operator new` share one memory, after `initMemoryPool`.
* What `operator new` returns is an argument, looked at only when it is called. `operator delete`
  is partial: it takes null or the start of a live region.
* The release of an object is in its owner: a smart pointer without a deleter calls
  `operator delete`, the cache calls `deleteElement`.
-/

namespace HttpWebserver.MemoryPool

open ByteMemory

/-- A range of bytes. -/
structure Region where
  start : Nat
  size : Nat
deriving DecidableEq, Repr

def Region.Apart (r q : Region) : Prop := r.start + r.size ≤ q.start ∨ q.start + q.size ≤ r.start

instance (r q : Region) : Decidable (r.Apart q) := inferInstanceAs (Decidable (_ ∨ _))

/-- What `operator new` may return: an aligned region, apart from those that are live. -/
structure FreshRegion (regions : List Region) (r : Region) : Prop where
  aligned : 8 ∣ r.start
  pos : 0 < r.start
  inSpace : r.start + r.size ≤ 2 ^ 64
  apart : ∀ q ∈ regions, r.Apart q

theorem freshRegion_iff {regions : List Region} {r : Region} : FreshRegion regions r ↔
    8 ∣ r.start ∧ 0 < r.start ∧ r.start + r.size ≤ 2 ^ 64 ∧ ∀ q ∈ regions, r.Apart q :=
  ⟨fun h => ⟨h.aligned, h.pos, h.inSpace, h.apart⟩, fun ⟨h₁, h₂, h₃, h₄⟩ => ⟨h₁, h₂, h₃, h₄⟩⟩

instance (regions : List Region) (r : Region) : Decidable (FreshRegion regions r) :=
  decidable_of_iff' _ freshRegion_iff

/-- The types that the program makes with `newElement`. -/
inductive Element where
  /-- `Channel`, of `EventLoop::wakeupChannel_`. -/
  | channel
  /-- `Buffer`, of `AsyncLogging`. -/
  | buffer
  /-- `Node<Key>`, of the cache. -/
  | keyNode
  /-- `Node<KeyList>`, of the cache. -/
  | keyListNode
deriving DecidableEq, Repr

/-- The `sizeof` of the target. -/
structure Sizes where
  sizeof : Element → Nat
  pos : ∀ t, 0 < sizeof t
  channel_le : sizeof .channel ≤ 512
  lt_buffer : 512 < sizeof .buffer

/-- The memory of the process with its allocators. -/
structure Heap where
  memory : Memory
  memorypool : Nat → Pool
  /-- The live regions from `operator new`. -/
  regions : List Region
  /-- The blocks of the pools, each with the index of its pool. -/
  blocks : List (Nat × Nat)
  /-- For each pool the slots given back and not handed out since. -/
  freed : Nat → List Nat
  /-- The objects that `newElement` has returned and that are not released. -/
  objects : List (Element × Nat)

/-- The index of the pool for objects of the size. -/
def poolIndex (size : Nat) : Nat := ((size + 7) >>> 3) - 1

namespace Heap

/-- After `initMemoryPool`. -/
def start (m : Memory) : Heap where
  memory := m
  memorypool i :=
    { slotSize := (i + 1) <<< 3, currentBlock := 0, currentSlot := 0, lastSlot := 0, freeSlot := 0 }
  regions := []
  blocks := []
  freed _ := []
  objects := []

def operatorNew (h : Heap) (size b : Nat) : Option Heap :=
  if FreshRegion h.regions ⟨b, size⟩ then some { h with regions := ⟨b, size⟩ :: h.regions }
  else none

def operatorDelete (h : Heap) (p : Nat) : Option Heap :=
  if p = 0 then some h
  else
    match h.regions.find? fun r => r.start = p with
    | none => none
    | some r => some { h with regions := h.regions.erase r }

/-- `getMemoryPool(i).allocate()`. -/
def allocate (h : Heap) (i newBlock : Nat) : Option (Nat × Heap) :=
  let pool := h.memorypool i
  if pool.NeedsBlock → FreshRegion h.regions ⟨newBlock, BlockSize⟩ then
    let (p, pool', m) := pool.allocate h.memory newBlock
    some (p,
      { h with
        memory := m
        memorypool := Function.update h.memorypool i pool'
        regions := if pool.NeedsBlock then ⟨newBlock, BlockSize⟩ :: h.regions else h.regions
        blocks := if pool.NeedsBlock then (i, newBlock) :: h.blocks else h.blocks
        freed := Function.update h.freed i ((h.freed i).erase p) })
  else none

/-- `getMemoryPool(i).deAllocate(p)`, with a pointer that is not null. -/
def deAllocate (h : Heap) (i p : Nat) : Heap :=
  let (pool, m) := (h.memorypool i).deAllocate h.memory p
  { h with
    memory := m
    memorypool := Function.update h.memorypool i pool
    freed := Function.update h.freed i (p :: h.freed i) }

def useMemory (h : Heap) (size b : Nat) : Option (Nat × Heap) :=
  if size = 0 then some (0, h)
  else if 512 < size then (h.operatorNew size b).map fun h => (b, h)
  else h.allocate (poolIndex size) b

def freeMemory (h : Heap) (size p : Nat) : Option Heap :=
  if p = 0 then some h
  else if 512 < size then h.operatorDelete p
  else some (h.deAllocate (poolIndex size) p)

end Heap

/-! ## The objects of the program

The types that the program makes with `newElement`, and how their owners release them. An event
loop gives the memory of its channel to `operator delete` instead of the pool. -/

inductive ElementLabel where
  /-- An owner calls `newElement`; `b` is what `operator new` would return. -/
  | construct (t : Element) (b : Nat)
  /-- The owner of the object releases it. -/
  | destroy (t : Element) (p : Nat)
  /-- A write to a byte of an object. -/
  | write (t : Element) (p i : Nat) (v : UInt8)

namespace Heap

def newElement (L : Sizes) (h : Heap) (t : Element) (b : Nat) : Option Heap :=
  (h.useMemory (L.sizeof t) b).map fun (p, h) => { h with objects := (t, p) :: h.objects }

/-- What the owner does with its pointer in the end. -/
def release (L : Sizes) (h : Heap) (t : Element) (p : Nat) : Option Heap :=
  match t with
  -- `std::unique_ptr<Channel>`, when the members of the loop are destroyed
  | .channel => h.operatorDelete p
  -- the last `std::shared_ptr<Buffer>`
  | .buffer => h.operatorDelete p
  -- `deleteElement`
  | .keyNode => h.freeMemory (L.sizeof .keyNode) p
  | .keyListNode => h.freeMemory (L.sizeof .keyListNode) p

def step (L : Sizes) (h : Heap) : ElementLabel → Option Heap
  | .construct t b => h.newElement L t b
  | .destroy t p =>
    if (t, p) ∈ h.objects then
      (h.release L t p).map fun h' => { h' with objects := h.objects.erase (t, p) }
    else none
  | .write t p i v =>
    if (t, p) ∈ h.objects ∧ i < L.sizeof t then
      some { h with memory := writeByte h.memory (p + i) v }
    else none

/-- The memory of an object of `size` bytes at `p` has gone back to where `useMemory` took it from,
and `operator delete` has been given no other pointer than the start of a live region. -/
structure Returned (h h' : Heap) (size p : Nat) : Prop where
  toPool : size ≤ 512 → (h'.memorypool (poolIndex size)).freeSlot = p ∧ h'.regions = h.regions
  toOperator : 512 < size → ⟨p, size⟩ ∈ h.regions ∧ h'.regions = h.regions.erase ⟨p, size⟩ ∧
    h'.memorypool = h.memorypool

/-- The release of an object, if the step is one, is defined and returns its memory. -/
def Matched (L : Sizes) (h : Heap) (l : ElementLabel) : Prop :=
  ∀ t p, l = .destroy t p → (t, p) ∈ h.objects →
    ∃ h', h.step L l = some h' ∧ Returned h h' (L.sizeof t) p

/-- The step does not destroy an event loop. -/
def LoopKept (h : Heap) (l : ElementLabel) : Prop :=
  ∀ p, l = .destroy .channel p → (.channel, p) ∉ h.objects

end Heap

end HttpWebserver.MemoryPool
