import HttpWebserver.Lib.LinkedHeap

/-!
# LFUCache — the cache of file contents

The model of `LFUCache/LFUCache.{h,cc}`: a linked list of frequency nodes, each with a linked
list of the keys of that frequency, and two hash maps from keys into the two levels.

* Nodes live in two heaps, one for each instance of the template `Node`; a `Node*` is an
  address or null. `none` is a null or dangling pointer, a double free or a failed assertion.
* A new node is value-initialised, so its pointers are null.
* `Runtime` is what the cache gets from elsewhere: the two allocators behind `newElement`, and
  `freq + 1` as the type of `freq_` computes it.
-/

namespace HttpWebserver.Lfu

open LinkedHeap

abbrev Str := List UInt8

/-- The capacity of the cache behind `getCache`. -/
def LFU_CAPACITY : Nat := 10

/-- A file name and its content. -/
structure Key where
  key : Str
  value : Str
deriving DecidableEq, Repr, Inhabited

structure KeyList where
  freq : Int
  dummyHead : Option Nat
  tail : Option Nat
deriving DecidableEq, Repr, Inhabited

abbrev KeyHeap := Heap Key
abbrev FreqHeap := Heap KeyList

structure Runtime where
  keys : Allocator Key
  freqs : Allocator KeyList
  inc : Int → Int

namespace KeyList

def init (rt : Runtime) (h : KeyHeap) (freq : Int) : KeyList × KeyHeap :=
  let (p, h) := alloc rt.keys h default
  ({ freq := freq, dummyHead := some p, tail := some p }, h)

/-- The loop of `destroy`. Each round frees a node, so as many rounds as there are nodes, and
one more to see the null pointer, are all it can make. -/
def destroyLoop : Nat → KeyList → KeyHeap → Option (KeyList × KeyHeap)
  | 0, _, _ => none
  | fuel + 1, l, h =>
    match l.dummyHead with
    | none => some (l, h)
    | some pre => do
      let n ← load h (some pre)
      let h ← free h (some pre)
      destroyLoop fuel { l with dummyHead := n.next } h

def destroy (l : KeyList) (h : KeyHeap) : Option (KeyList × KeyHeap) :=
  destroyLoop (h.keys.card + 1) l h

def isEmpty (l : KeyList) : Bool := l.dummyHead == l.tail

def getLast (l : KeyList) : Option Nat := l.tail

def add (l : KeyList) (h : KeyHeap) (node : Option Nat) : Option (KeyList × KeyHeap) := do
  let head ← load h l.dummyHead
  let l := if head.next = none then { l with tail := node } else l
  let h ← setPreIf h head.next node
  let head ← load h l.dummyHead
  let h ← setNext h node head.next
  let h ← setPre h node l.dummyHead
  let h ← setNext h l.dummyHead node
  -- the assertion at the end of `add`
  if l.isEmpty then none else some (l, h)

def del (l : KeyList) (h : KeyHeap) (node : Option Nat) : Option (KeyList × KeyHeap) := do
  let n ← load h node
  let h ← setNext h n.pre n.next
  let n ← load h node
  let l := if n.next = none then { l with tail := n.pre } else l
  let h ← setPreIf h n.next n.pre
  some (l, h)

end KeyList

structure LFUCache where
  dummyHead : Option Nat
  capacity : Nat
  kmap : Finmap fun _ : Str => Option Nat
  fmap : Finmap fun _ : Str => Option Nat
  keyHeap : KeyHeap
  freqHeap : FreqHeap

/-- `m[key]`, which enters a null pointer when the key is missing. -/
def subscript (m : Finmap fun _ : Str => Option Nat) (key : Str) :
    Option Nat × Finmap fun _ : Str => Option Nat :=
  match m.lookup key with
  | some p => (p, m)
  | none => (none, m.insert key none)

namespace LFUCache

/-- A call on the list in the frequency node at `p`. -/
def onList (c : LFUCache) (p : Option Nat)
    (f : KeyList → KeyHeap → Option (KeyList × KeyHeap)) : Option LFUCache := do
  let n ← load c.freqHeap p
  let (l, keyHeap) ← f n.value c.keyHeap
  let freqHeap ← setValue c.freqHeap p l
  some { c with keyHeap := keyHeap, freqHeap := freqHeap }

/-- `newElement<Node<KeyList>>()` and `init(freq)` on its list. -/
def newFreq (rt : Runtime) (c : LFUCache) (freq : Int) : Option (Option Nat × LFUCache) := do
  let (p, freqHeap) := alloc rt.freqs c.freqHeap default
  let c ← { c with freqHeap := freqHeap }.onList (some p) fun _ h =>
    some (KeyList.init rt h freq)
  some (some p, c)

/-- The constructor: `init()` on an object whose maps are empty. -/
def new (rt : Runtime) (capacity : Nat) : Option LFUCache := do
  let c := { dummyHead := none, capacity := capacity, kmap := ∅, fmap := ∅, keyHeap := ∅,
             freqHeap := ∅ : LFUCache }
  let (p, c) ← c.newFreq rt 0
  let freqHeap ← setNext c.freqHeap p none
  some { c with dummyHead := p, freqHeap := freqHeap }

/-- `del(node)`: out of the frequency list, and gone with its keys. -/
def del (c : LFUCache) (node : Option Nat) : Option LFUCache := do
  let n ← load c.freqHeap node
  let freqHeap ← setNext c.freqHeap n.pre n.next
  let n ← load freqHeap node
  let freqHeap ← setPreIf freqHeap n.next n.pre
  let c ← { c with freqHeap := freqHeap }.onList node KeyList.destroy
  let freqHeap ← free c.freqHeap node
  some { c with freqHeap := freqHeap }

/-- The test of `addFreq`: the frequency node `f` is not followed by the next frequency. -/
def lacksNext (rt : Runtime) (c : LFUCache) (f : Node KeyList) : Option Bool :=
  match f.next with
  | none => some true
  | some _ => (load c.freqHeap f.next).map fun n => n.value.freq ≠ rt.inc f.value.freq

/-- The node of the next frequency behind `nowf`, made if it is not there. -/
def nextFreq (rt : Runtime) (c : LFUCache) (nowf : Option Nat) :
    Option (Option Nat × LFUCache) := do
  let f ← load c.freqHeap nowf
  if ← c.lacksNext rt f then do
    let (nxt, c) ← c.newFreq rt (rt.inc f.value.freq)
    let f ← load c.freqHeap nowf
    let freqHeap ← setPreIf c.freqHeap f.next nxt
    let freqHeap ← setNext freqHeap nxt f.next
    let freqHeap ← setNext freqHeap nowf nxt
    let freqHeap ← setPre freqHeap nxt nowf
    some (nxt, { c with freqHeap := freqHeap })
  else
    some (f.next, c)

/-- `addFreq`, between the entry in `fmap_` and the last test: out of the list of `nowf`, which
is left alone when it is the head, and into the list of `nxt`. -/
def moveKey (c : LFUCache) (nowk nowf nxt : Option Nat) : Option LFUCache := do
  let c ← if nowf ≠ c.dummyHead then c.onList nowf fun l h => l.del h nowk else some c
  let c ← c.onList nxt fun l h => l.add h nowk
  let n ← load c.freqHeap nxt
  -- the assertion that `nxt` is not empty
  if n.value.isEmpty then none else some c

def addFreq (rt : Runtime) (c : LFUCache) (nowk nowf : Option Nat) : Option LFUCache := do
  let (nxt, c) ← c.nextFreq rt nowf
  let k ← load c.keyHeap nowk
  let c ← { c with fmap := c.fmap.insert k.value.key nxt }.moveKey nowk nowf nxt
  let f ← load c.freqHeap nowf
  if nowf ≠ c.dummyHead ∧ f.value.isEmpty then c.del nowf else some c

/-- `get(key, val)`: the cache, whether the key was found, and `val` afterwards. -/
def get (rt : Runtime) (c : LFUCache) (key val : Str) : Option (LFUCache × Bool × Str) :=
  if c.capacity = 0 then some (c, false, val)
  else if c.fmap.lookup key = none then some (c, false, val)
  else do
    let (nowk, kmap) := subscript c.kmap key
    let (nowf, fmap) := subscript c.fmap key
    let c := { c with kmap := kmap, fmap := fmap }
    let k ← load c.keyHeap nowk
    let c ← c.addFreq rt nowk nowf
    some (c, true, val ++ k.value.value)

/-- The eviction in `set`. -/
def evict (c : LFUCache) : Option LFUCache := do
  let d ← load c.freqHeap c.dummyHead
  let head := d.next
  let f ← load c.freqHeap head
  let last := f.value.getLast
  let c ← c.onList head fun l h => l.del h last
  let k ← load c.keyHeap last
  let c := { c with kmap := c.kmap.erase k.value.key, fmap := c.fmap.erase k.value.key }
  let keyHeap ← free c.keyHeap last
  let c := { c with keyHeap := keyHeap }
  let f ← load c.freqHeap head
  if f.value.isEmpty then c.del head else some c

/-- The insertion in `set`. -/
def insert (rt : Runtime) (c : LFUCache) (key val : Str) : Option LFUCache := do
  let (p, keyHeap) := alloc rt.keys c.keyHeap default
  let keyHeap ← setValue keyHeap (some p) { key := key, value := val }
  let c ← { c with keyHeap := keyHeap }.addFreq rt (some p) c.dummyHead
  let c := { c with kmap := c.kmap.insert key (some p) }
  let d ← load c.freqHeap c.dummyHead
  some { c with fmap := c.fmap.insert key d.next }

def set (rt : Runtime) (c : LFUCache) (key val : Str) : Option LFUCache :=
  if c.capacity = 0 then some c
  else do
    let c ← if c.kmap.keys.card = c.capacity then c.evict else some c
    c.insert rt key val

/-- The loop of the destructor, in rounds as `KeyList.destroyLoop`. -/
def destroyLoop : Nat → LFUCache → Option LFUCache
  | 0, _ => none
  | fuel + 1, c =>
    match c.dummyHead with
    | none => some c
    | some pre => do
      let n ← load c.freqHeap (some pre)
      let c ← { c with dummyHead := n.next }.onList (some pre) KeyList.destroy
      let freqHeap ← free c.freqHeap (some pre)
      destroyLoop fuel { c with freqHeap := freqHeap }

/-- `~LFUCache`. -/
def destroy (c : LFUCache) : Option LFUCache := destroyLoop (c.freqHeap.keys.card + 1) c

end LFUCache

end HttpWebserver.Lfu
