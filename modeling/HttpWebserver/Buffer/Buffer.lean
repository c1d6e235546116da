import HttpWebserver.Lib.Storage
import HttpWebserver.Lib.MachineInt

/-!
# Buffer — the byte buffer between the sockets and the protocol

The model of `Buffer/Buffer.h` and `Buffer/Buffer.cc`. A buffer is a vector of bytes with
two indices: `[readerIndex, writerIndex)` is the readable region, the bytes before it are
prependable and the bytes after it writable.

* Indices and lengths are `Nat`: a vector has fewer than `2 ^ 63` bytes, so no sum of two of
  them wraps. The differences `readableBytes` and `writableBytes` are 64-bit subtractions.
* Every `std::copy`, `readv` and `vsnprintf` into the storage is a checked write; `none` is
  the undefined behaviour of leaving the storage.
* What a system call transfers is a parameter of the function that makes the call.
-/

namespace HttpWebserver

open MachineInt Storage

/-- The space kept free before the readable region. -/
def kCheapPrepend : Nat := 8

/-- The initial size of a buffer when its owner does not give one. -/
def kInitialSize : Nat := 1024

/-- `sizeof extrabuf` in `readFd`. -/
def extrabufSize : Nat := 65536

structure Buffer where
  buffer : List UInt8
  readerIndex : Nat
  writerIndex : Nat
deriving DecidableEq, Repr

/-- What `readv` does: an error, or a count of bytes transferred into the two iovecs in order. -/
inductive Readv where
  | error
  | bytes (incoming : List UInt8)
deriving DecidableEq, Repr

/-- What `writev` does: an error (`EAGAIN` or another one), or a count of bytes accepted. -/
inductive Writev where
  | error (eagain : Bool)
  | accept (n : Nat)
deriving DecidableEq, Repr

/-- Where the base of an iovec points: into the storage of the buffer being sent, into the
connection's file string, or into the copy of that string `writeFd` takes by value. -/
inductive IoBase where
  | storage (off : Nat)
  | fileAddress (off : Nat)
  | fileCopy (off : Nat)
deriving DecidableEq, Repr

structure IoVec where
  base : IoBase
  len : Nat
deriving DecidableEq, Repr

namespace Buffer

/-- `Buffer(size_t initialSize)`. -/
def new (initialSize : Nat) : Buffer where
  buffer := List.replicate (kCheapPrepend + initialSize) 0
  readerIndex := kCheapPrepend
  writerIndex := kCheapPrepend

def readableBytes (b : Buffer) : Nat := sizeSub b.writerIndex b.readerIndex

def writableBytes (b : Buffer) : Nat := sizeSub b.buffer.length b.writerIndex

def prependableBytes (b : Buffer) : Nat := b.readerIndex

/-- `peek()`, as a position in the storage. -/
def peek (b : Buffer) : Nat := b.readerIndex

/-- `beginWrite()`, as a position in the storage. -/
def beginWrite (b : Buffer) : Nat := b.writerIndex

def retrieveAll (b : Buffer) : Buffer :=
  { b with readerIndex := kCheapPrepend, writerIndex := kCheapPrepend }

def retrieve (b : Buffer) (len : Nat) : Buffer :=
  if len < b.readableBytes then { b with readerIndex := b.readerIndex + len } else b.retrieveAll

/-- The string constructor copies `len` bytes from the reader index on. -/
def retrieveAsString (b : Buffer) (len : Nat) : Option (List UInt8 × Buffer) := do
  let result ← readRange b.buffer b.readerIndex (b.readerIndex + len)
  some (result, b.retrieve len)

def retrieveAllAsString (b : Buffer) : Option (List UInt8 × Buffer) :=
  b.retrieveAsString b.readableBytes

def makeSpace (b : Buffer) (len : Nat) : Option Buffer :=
  if b.writableBytes + b.prependableBytes < len + kCheapPrepend then
    some { b with buffer := resize b.buffer (b.writerIndex + len) 0 }
  else do
    let unread ← readRange b.buffer b.readerIndex b.writerIndex
    let buffer ← writeAt b.buffer kCheapPrepend unread
    -- `readableBytes()` is taken after `readerIndex_` has moved
    let b := { b with buffer := buffer, readerIndex := kCheapPrepend }
    some { b with writerIndex := b.readerIndex + b.readableBytes }

def ensureWritableBytes (b : Buffer) (len : Nat) : Option Buffer :=
  if b.writableBytes < len then b.makeSpace len else some b

def append (b : Buffer) (data : List UInt8) : Option Buffer := do
  let b ← b.ensureWritableBytes data.length
  let buffer ← writeAt b.buffer b.writerIndex data
  some { b with buffer := buffer, writerIndex := b.writerIndex + data.length }

/-- `vsnprintf(beginWrite(), size, …)` on an output that renders to `out`: the first
`size - 1` bytes and a NUL are stored, and the length of the whole output is returned, or an
error where it is not an `int`. -/
def vsnprintf (b : Buffer) (size : Nat) (out : List UInt8) : Option (Buffer × Int) := do
  let buffer ← if size = 0 then some b.buffer
    else writeAt b.buffer b.beginWrite (out.take (size - 1) ++ [0])
  some ({ b with buffer := buffer }, if out.length < 2 ^ 31 then (out.length : Int) else -1)

/-- `vappend(maxLen, format, …)`; `out` is what the format renders to. -/
def vappend (b : Buffer) (maxLen : Nat) (out : List UInt8) : Option (Buffer × Bool) := do
  let b ← b.ensureWritableBytes maxLen
  let (b, len) ← b.vsnprintf b.writableBytes out
  if b.writableBytes ≤ toSizeT len then
    some (b, false)
  else
    some ({ b with writerIndex := b.writerIndex + len.toNat }, true)

/-- The branches of `readFd` on the count `n` that `readv` returned, the storage filled. -/
def readFdCount (b : Buffer) (writable : Nat) (extrabuf : List UInt8) (n : Int) :
    Option (Buffer × Int) :=
  if n < 0 then
    some (b, n)
  else if n.toNat ≤ writable then
    some ({ b with writerIndex := b.writerIndex + n.toNat }, n)
  else do
    let b ← { b with writerIndex := b.buffer.length }.append (extrabuf.take (n.toNat - writable))
    some (b, n)

/-- `readFd`: the writable bytes are filled first, the others arrive in `extrabuf`. -/
def readFd (b : Buffer) : Readv → Option (Buffer × Int)
  | .error => some (b, -1)
  | .bytes incoming => do
    let buffer ← writeAt b.buffer b.writerIndex (incoming.take b.writableBytes)
    -- the `ssize_t` that `readv` returns is stored in an `int`
    readFdCount { b with buffer := buffer } b.writableBytes (incoming.drop b.writableBytes)
      (toInt32 incoming.length)

/-- The branches of `writeFd` on the count `n` that `writev` returned: the indices, and the
second iovec. -/
def writeFdCount (b : Buffer) (vec : IoVec × IoVec) (bytesHaveSend bytesToSend : Int) (n : Int) :
    Buffer × (IoVec × IoVec) × Int :=
  let readable := b.readableBytes
  if n < 0 then
    (b, vec, n)
  else if n.toNat ≤ readable then
    ({ b with writerIndex := b.writerIndex + n.toNat }, vec, n)
  else
    ({ b with readerIndex := b.buffer.length },
      (vec.1, { base := .fileCopy (sizeSub (toSizeT bytesHaveSend) readable),
                len := toSizeT bytesToSend }), n)

/-- `writeFd`; the `ssize_t` that `writev` returns is stored in an `int`. -/
def writeFd (b : Buffer) (r : Writev) (vec : IoVec × IoVec) (bytesHaveSend bytesToSend : Int) :
    Buffer × (IoVec × IoVec) × Int :=
  match r with
  | .error _ => b.writeFdCount vec bytesHaveSend bytesToSend (-1)
  | .accept k => b.writeFdCount vec bytesHaveSend bytesToSend (toInt32 k)

/-! ## Well-formed buffers

The invariant of the class, which a new buffer has and every operation off the compaction branch
keeps. What a client sees of a buffer is `readable`; the operations are specified by what they
make of it. -/

/-- `kCheapPrepend ≤ readerIndex ≤ writerIndex ≤ buffer.size()`. -/
structure WellFormed (b : Buffer) : Prop where
  prepend : kCheapPrepend ≤ b.readerIndex
  order : b.readerIndex ≤ b.writerIndex
  inside : b.writerIndex ≤ b.buffer.length

instance (b : Buffer) : Decidable b.WellFormed :=
  decidable_of_iff (kCheapPrepend ≤ b.readerIndex ∧ b.readerIndex ≤ b.writerIndex ∧
      b.writerIndex ≤ b.buffer.length)
    ⟨fun ⟨h₁, h₂, h₃⟩ => ⟨h₁, h₂, h₃⟩, fun ⟨h₁, h₂, h₃⟩ => ⟨h₁, h₂, h₃⟩⟩

/-- The bytes of the readable region. -/
def readable (b : Buffer) : List UInt8 := slice b.buffer b.readerIndex b.writerIndex

namespace WellFormed

variable {b : Buffer}

theorem readableBytes_eq (h : b.WellFormed) : b.readableBytes = b.writerIndex - b.readerIndex :=
  sizeSub_of_le h.order

theorem writableBytes_eq (h : b.WellFormed) : b.writableBytes = b.buffer.length - b.writerIndex :=
  sizeSub_of_le h.inside

theorem readable_length (h : b.WellFormed) : b.readable.length = b.readableBytes := by
  rw [readable, slice_length h.inside, h.readableBytes_eq]

/-- Two well-formed buffers with the same readable bytes have as many of them. -/
theorem readable_length_eq (h : b.WellFormed) :
    b.readable.length = b.writerIndex - b.readerIndex := by
  rw [h.readable_length, h.readableBytes_eq]

end WellFormed

theorem new_wellFormed (initialSize : Nat) : (new initialSize).WellFormed where
  prepend := Nat.le_refl _
  order := Nat.le_refl _
  inside := by simp [new]

theorem new_readable (initialSize : Nat) : (new initialSize).readable = [] := by
  simp [readable, new]

end Buffer

end HttpWebserver
