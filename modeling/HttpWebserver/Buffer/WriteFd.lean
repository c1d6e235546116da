import HttpWebserver.Buffer.Buffer

/-!
# Buffer — the indices after a `writev`

`writeFd` sends the readable region and, behind it, a second iovec. What was sent of the region
should leave it: its first bytes go, and the indices stay in order. The branch for a short write
advances the writer index instead, and the branch for a long one moves the reader index to the end
of the storage and leaves the writer index where it was.

* `consumed_short`, `consumed_long`: what each branch leaves readable;
* **`writeFd_consumes_iff`** — after which writes the readable region is what was not sent.
-/

namespace HttpWebserver.Buffer

open MachineInt Storage

/-- `readerIndex ≤ writerIndex ≤ buffer.size()`. -/
structure Ordered (b : Buffer) : Prop where
  order : b.readerIndex ≤ b.writerIndex
  inside : b.writerIndex ≤ b.buffer.length

/-- The buffer `b'` is `b` without the first `n` bytes of its readable region. -/
structure Consumed (b : Buffer) (n : Nat) (b' : Buffer) : Prop where
  readable : b'.readable = b.readable.drop (min n b.readableBytes)
  ordered : b'.Ordered

/-- What `writev` sent, and nothing else, has left the buffer. -/
def Consumes (b : Buffer) (b' : Buffer) : Writev → Prop
  | .error _ => b'.readerIndex = b.readerIndex ∧ b'.writerIndex = b.writerIndex
  | .accept n => b.Consumed n b'

/-- Nothing was sent, or more than the readable region, which ends with the storage. A count that
the `int` does not hold may come out as nothing, which is right for an empty region. -/
def SentRight (b : Buffer) : Writev → Prop
  | .error _ => True
  | .accept n => n = 0 ∨ (b.readableBytes = 0 ∧ toInt32 n ≤ 0) ∨
      ((b.readableBytes : Int) < toInt32 n ∧ b.writerIndex = b.buffer.length)

section WriteFd

variable {b : Buffer}

theorem Ordered.readableBytes_eq (h : b.Ordered) :
    b.readableBytes = b.writerIndex - b.readerIndex :=
  sizeSub_of_le h.order

theorem Ordered.readable_length (h : b.Ordered) : b.readable.length = b.readableBytes := by
  rw [readable, slice_length h.inside, h.readableBytes_eq]

/-- A short write moves the end of the readable region. -/
theorem consumed_short (h : b.Ordered) {n k : Nat} (hk : k ≤ n) :
    b.Consumed n { b with writerIndex := b.writerIndex + k } ↔
      k = 0 ∧ (n = 0 ∨ b.readableBytes = 0) := by
  have hcount := h.readableBytes_eq
  have horder := h.order
  constructor
  · rintro ⟨hread, hin⟩
    -- as many bytes as before and `k` more, yet none of those sent
    have hlen := congrArg List.length hread
    have hafter : Ordered { b with writerIndex := b.writerIndex + k } := hin
    rw [hafter.readable_length, hafter.readableBytes_eq, List.length_drop,
      h.readable_length] at hlen
    dsimp only at hlen
    omega
  · rintro ⟨rfl, hnone⟩
    have hmin : min n b.readableBytes = 0 := by omega
    refine ⟨?_, h.order, h.inside⟩
    rw [hmin, List.drop_zero]
    rfl

/-- A long write moves the start of the readable region. -/
theorem consumed_long (h : b.Ordered) {n : Nat} (hn : b.readableBytes ≤ n) :
    b.Consumed n { b with readerIndex := b.buffer.length } ↔ b.writerIndex = b.buffer.length := by
  constructor
  · intro hc
    exact Nat.le_antisymm h.inside hc.ordered.order
  · intro hend
    refine ⟨?_, Nat.le_of_eq hend.symm, h.inside⟩
    rw [Nat.min_eq_right hn, ← h.readable_length, List.drop_length, readable]
    dsimp only
    rw [hend, slice_self]

/-- The branches on the count, which the `int` may have made smaller. -/
theorem writeFdCount_consumed (h : b.Ordered) {n : Nat} {k : Int} (hk : k ≤ n)
    (vec : IoVec × IoVec) (sent left : Int) :
    b.Consumed n (b.writeFdCount vec sent left k).1 ↔
      n = 0 ∨ (b.readableBytes = 0 ∧ k ≤ 0) ∨
        ((b.readableBytes : Int) < k ∧ b.writerIndex = b.buffer.length) := by
  unfold writeFdCount
  dsimp only
  split
  · -- narrowed to a negative count, so not zero
    have hunmoved := consumed_short h (Nat.zero_le n)
    rw [Nat.add_zero] at hunmoved
    rw [hunmoved]
    omega
  · split
    · rw [consumed_short h (by omega)]
      omega
    · rw [consumed_long h (by omega)]
      omega

/-- **What a write takes off the buffer.** For every buffer with its indices in order, every pair
of iovecs and every result of `writev`: the bytes that were sent, and no others, have left the
readable region and the indices are in order exactly when nothing was sent, or more than a readable
region that reaches the end of the storage. -/
theorem writeFd_consumes_iff (h : b.Ordered) (r : Writev) (vec : IoVec × IoVec)
    (sent left : Int) :
    b.Consumes (b.writeFd r vec sent left).1 r ↔ b.SentRight r := by
  cases r with
  | error eagain => exact iff_of_true ⟨rfl, rfl⟩ trivial
  | accept n =>
    rw [Consumes, SentRight, writeFd]
    exact writeFdCount_consumed h (toInt32_natCast_le n) vec sent left

/-- A buffer of two bytes, both of them appended. -/
def filled : Buffer := { Buffer.new 2 with
  buffer := List.replicate kCheapPrepend 0 ++ [72, 84]
  writerIndex := kCheapPrepend + 2 }

example : (Buffer.new 2).append [72, 84] = some filled := by decide

/-- A region of two bytes at the end of its storage, sent with one byte of the second iovec. -/
theorem writeFd_consumes_sample :
    filled.Consumes (filled.writeFd (.accept 3)
      (⟨.storage kCheapPrepend, 2⟩, ⟨.fileAddress 0, 1⟩) 0 3).1 (.accept 3) :=
  (writeFd_consumes_iff ⟨by decide, by decide⟩ (.accept 3) _ 0 3).mpr (.inr (.inr (by decide)))

/-- One of two bytes was sent, and the writer index leaves the storage. -/
theorem writeFd_short_not_consumed :
    ¬ filled.Consumes (filled.writeFd (.accept 1)
      (⟨.storage kCheapPrepend, 2⟩, ⟨.fileAddress 0, 1⟩) 0 3).1 (.accept 1) := by
  intro h
  exact absurd h.ordered.inside (by decide)

end WriteFd

end HttpWebserver.Buffer
