import HttpWebserver.Buffer.Buffer
import HttpWebserver.Lib.Machine

/-!
# Buffer — when the buffer is a FIFO byte queue

A client drives a buffer with the operations `Op`; `Tracks` says that the readable region is
the queue of the bytes put in and not yet taken out, and that the client was handed what that
queue hands out. The results:

* **`makeSpace_iff`** — `makeSpace` keeps the readable bytes and makes room exactly when it
  does not move a readable region that starts after `kCheapPrepend`. The compaction branch
  computes the new `writerIndex` from the new `readerIndex`, so it leaves the writer index
  where it was: the region grows by stale bytes and no space is gained;
* **`step_tracks_iff`** — one operation keeps `Tracks` exactly when it is `Safe`;
* **`fifo_iff`** — a whole run is a FIFO queue exactly when every operation of it is `Safe`.
-/

namespace HttpWebserver.Buffer

open Machine MachineInt Storage

/-! ## `makeSpace`

Two branches: the storage grows, or the readable bytes move to the front. The second sets
`readerIndex_` first and computes `writerIndex_` from it, which leaves `writerIndex_` where it
was, so the readable region is not the bytes that were moved. The first branch is specified by
`Extends`, and `makeSpace_iff` says that it is the only one to keep the contract, up to a region
that need not move. -/

/-- The space asked for is not there after the writer index, but counting the prependable
bytes it is: `makeSpace` takes its compaction branch. -/
def Compacts (b : Buffer) (len : Nat) : Prop :=
  b.writableBytes < len ∧ len + kCheapPrepend ≤ b.writableBytes + b.prependableBytes

instance (b : Buffer) (len : Nat) : Decidable (b.Compacts len) := by
  unfold Compacts; infer_instance

/-- `b'` is `b` with `data` stored at the writer index; what is stored before it, the readable
bytes and the consumed ones, stays in place. -/
structure Extends (b : Buffer) (data : List UInt8) (b' : Buffer) : Prop where
  wellFormed : b'.WellFormed
  readerIndex : b'.readerIndex = b.readerIndex
  writerIndex : b'.writerIndex = b.writerIndex + data.length
  frame : ∀ lo hi, hi ≤ b.writerIndex → slice b'.buffer lo hi = slice b.buffer lo hi
  stored : slice b'.buffer b.writerIndex (b.writerIndex + data.length) = data

theorem Extends.readable {b b' : Buffer} {data : List UInt8} (hx : Extends b data b')
    (h : b.WellFormed) : b'.readable = b.readable ++ data := by
  have hin := hx.wellFormed.inside
  rw [hx.writerIndex] at hin
  unfold Buffer.readable
  rw [hx.readerIndex, hx.writerIndex, ← hx.frame b.readerIndex b.writerIndex (Nat.le_refl _)]
  conv_rhs => rw [← hx.stored]
  exact (slice_append_slice h.order (Nat.le_add_right _ _) hin).symm

/-- A byte that was stored before. -/
theorem Extends.getElem? {b b' : Buffer} {data : List UInt8} (hx : Extends b data b') {p : Nat}
    (hp : p < b.writerIndex) : b'.buffer[p]? = b.buffer[p]? := by
  have hframe := congrArg (·[0]?) (hx.frame p (p + 1) hp)
  simp only [slice_getElem?, Nat.add_zero] at hframe
  rwa [if_pos (by omega), if_pos (by omega)] at hframe

theorem Extends.trans {b b₁ b₂ : Buffer} {data more : List UInt8} (h₁ : Extends b data b₁)
    (h₂ : Extends b₁ more b₂) : Extends b (data ++ more) b₂ where
  wellFormed := h₂.wellFormed
  readerIndex := h₂.readerIndex.trans h₁.readerIndex
  writerIndex := by rw [h₂.writerIndex, h₁.writerIndex, List.length_append, Nat.add_assoc]
  frame := fun lo hi hhi => by
    rw [h₂.frame lo hi (by rw [h₁.writerIndex]; omega), h₁.frame lo hi hhi]
  stored := by
    have hw₁ := h₁.writerIndex
    have hin := h₂.wellFormed.inside
    rw [h₂.writerIndex, hw₁] at hin
    have hfirst := h₂.frame b.writerIndex b₁.writerIndex (Nat.le_refl _)
    rw [hw₁, h₁.stored] at hfirst
    have hsecond := h₂.stored
    rw [hw₁] at hsecond
    rw [List.length_append, ← Nat.add_assoc,
      ← slice_append_slice (Nat.le_add_right _ data.length) (Nat.le_add_right _ _) hin,
      hfirst, hsecond]

/-- A buffer that ends with the data is determined. -/
theorem Extends.unique {b b₁ b₂ : Buffer} {data : List UInt8} (h₁ : Extends b data b₁)
    (h₂ : Extends b data b₂) (hend₁ : b₁.buffer.length = b.writerIndex + data.length)
    (hend₂ : b₂.buffer.length = b.writerIndex + data.length) : b₁ = b₂ := by
  have hsplit : ∀ {b' : Buffer}, Extends b data b' →
      b'.buffer.length = b.writerIndex + data.length →
      b'.buffer = slice b.buffer 0 b.writerIndex ++ data := by
    intro b' hx hend
    have hall : slice b'.buffer 0 (b.writerIndex + data.length) = b'.buffer := by
      rw [slice, List.drop_zero, ← hend, List.take_length]
    rw [← hx.frame 0 b.writerIndex (Nat.le_refl _)]
    conv_rhs => rw [← hx.stored]
    rw [slice_append_slice (Nat.zero_le _) (Nat.le_add_right _ _) (by omega), hall]
  have hbuffer := (hsplit h₁ hend₁).trans (hsplit h₂ hend₂).symm
  have hreader := h₁.readerIndex.trans h₂.readerIndex.symm
  have hwriter := h₁.writerIndex.trans h₂.writerIndex.symm
  cases b₁
  cases b₂
  cases hbuffer
  cases hreader
  cases hwriter
  rfl

section MakeSpace

variable {b : Buffer} {len : Nat}

/-- The resize branch leaves the indices and appends cells. -/
theorem makeSpace_resize (hlt : b.writableBytes + b.prependableBytes < len + kCheapPrepend) :
    b.makeSpace len = some { b with buffer := resize b.buffer (b.writerIndex + len) 0 } :=
  if_pos hlt

/-- The compaction branch moves the readable bytes and the reader index only. -/
theorem makeSpace_compact (h : b.WellFormed)
    (hge : len + kCheapPrepend ≤ b.writableBytes + b.prependableBytes) :
    b.makeSpace len = some { buffer := overwrite b.buffer kCheapPrepend b.readable,
                             readerIndex := kCheapPrepend, writerIndex := b.writerIndex } := by
  have hpre := h.prepend
  have hord := h.order
  have hin := h.inside
  have hlen : b.readable.length = b.writerIndex - b.readerIndex := h.readable_length_eq
  have hfit : kCheapPrepend + b.readable.length ≤ b.buffer.length := by omega
  unfold makeSpace
  rw [if_neg (by omega), readRange_eq_some hord hin]
  simp only [Option.bind_eq_bind, Option.bind_some]
  rw [show slice b.buffer b.readerIndex b.writerIndex = b.readable from rfl,
    writeAt_eq_some hfit, Option.bind_some]
  have hsub : kCheapPrepend + sizeSub b.writerIndex kCheapPrepend = b.writerIndex := by
    rw [sizeSub_of_le (by omega)]; omega
  simp only [readableBytes, hsub]

/-- Off the compaction branch, `makeSpace` only makes room. -/
theorem makeSpace_spec (h : b.WellFormed) (hlt : b.writableBytes < len)
    (hnc : ¬ b.Compacts len) :
    ∃ b', b.makeSpace len = some b' ∧ Extends b [] b' ∧ b'.writableBytes = len := by
  have hw := h.writableBytes_eq
  have hin := h.inside
  have hroom : b.writableBytes + b.prependableBytes < len + kCheapPrepend := by
    unfold Compacts at hnc; omega
  have hsize : (resize b.buffer (b.writerIndex + len) 0).length = b.writerIndex + len :=
    resize_length _ _ _
  refine ⟨_, makeSpace_resize hroom, ⟨⟨h.prepend, h.order, ?_⟩, rfl, rfl, ?_, slice_self _ _⟩, ?_⟩
  · show b.writerIndex ≤ (resize b.buffer (b.writerIndex + len) 0).length
    omega
  · exact fun lo hi hhi => slice_resize (by omega) (by omega)
  · show sizeSub (resize b.buffer (b.writerIndex + len) 0).length b.writerIndex = len
    rw [hsize, sizeSub_of_le (by omega)]
    omega

/-- `makeSpace` keeps the readable bytes and leaves `len` writable ones exactly when it takes
the resize branch, or compacts a region that is already in place. -/
theorem makeSpace_iff (h : b.WellFormed) :
    (∃ b', b.makeSpace len = some b' ∧ b'.WellFormed ∧ b'.readable = b.readable ∧
        len ≤ b'.writableBytes) ↔
      (len + kCheapPrepend ≤ b.writableBytes + b.prependableBytes →
        b.readerIndex = kCheapPrepend) := by
  have hpre := h.prepend
  have hord := h.order
  have hin := h.inside
  have hw := h.writableBytes_eq
  have hp : b.prependableBytes = b.readerIndex := rfl
  rcases Nat.lt_or_ge (b.writableBytes + b.prependableBytes) (len + kCheapPrepend) with hlt | hge
  · -- the resize branch
    refine ⟨fun _ hge => absurd hge (by omega), fun _ => ?_⟩
    obtain ⟨b', hb', hx, hroom⟩ :=
      makeSpace_spec h (show b.writableBytes < len by omega) (fun hc => absurd hc.2 (by omega))
    exact ⟨b', hb', hx.wellFormed, by rw [hx.readable h, List.append_nil], by omega⟩
  · -- the compaction branch: the region keeps its length only when it does not move
    rw [makeSpace_compact h hge]
    have hlen : b.readable.length = b.writerIndex - b.readerIndex := h.readable_length_eq
    have hsize : (overwrite b.buffer kCheapPrepend b.readable).length = b.buffer.length :=
      overwrite_length (by omega)
    refine ⟨?_, fun hr => ⟨_, rfl, ⟨Nat.le_refl _, ?_, ?_⟩, ?_, ?_⟩⟩
    · -- `writerIndex` stays, so the region would be longer than what it held
      rintro ⟨b', hb', hwf, hread, -⟩ -
      cases hb'
      have hcount := congrArg List.length hread
      rw [hwf.readable_length_eq, hlen] at hcount
      simp only at hcount
      omega
    · -- nothing stands in front of the region, and the copy changes nothing
      exact Nat.le_trans hpre hord
    · exact Nat.le_trans hin (Nat.le_of_eq hsize.symm)
    · have hend : b.writerIndex = kCheapPrepend + b.readable.length := by
        rw [hlen]; have := hr hge; omega
      show slice (overwrite b.buffer kCheapPrepend b.readable) kCheapPrepend b.writerIndex
        = b.readable
      rw [hend, slice_overwrite_self (by omega)]
    · show len ≤ sizeSub (overwrite b.buffer kCheapPrepend b.readable).length b.writerIndex
      rw [hsize, sizeSub_of_le hin]
      have := hr hge
      omega

end MakeSpace

/-! ## Making room for a write

`ensureWritableBytes` calls `makeSpace` only where the room behind the writer index does not do. -/

section EnsureWritable

variable {b : Buffer} {len : Nat}

theorem Extends.refl (h : b.WellFormed) : Extends b [] b :=
  ⟨h, rfl, rfl, fun _ _ _ => rfl, slice_self _ _⟩

theorem ensureWritableBytes_spec (h : b.WellFormed) (hnc : ¬ b.Compacts len) :
    ∃ b', b.ensureWritableBytes len = some b' ∧ Extends b [] b' ∧
      b'.writableBytes = max len b.writableBytes := by
  unfold ensureWritableBytes
  rcases Nat.lt_or_ge b.writableBytes len with hlt | hge
  · rw [if_pos hlt]
    obtain ⟨b', hb', hx, hroom⟩ := makeSpace_spec h hlt hnc
    exact ⟨b', hb', hx, by omega⟩
  · rw [if_neg (by omega)]
    exact ⟨b, rfl, Extends.refl h, by omega⟩

/-- In the compaction branch the writer index and the size of the storage stay. -/
theorem ensureWritableBytes_compact (h : b.WellFormed) (hc : b.Compacts len) :
    ∃ b', b.ensureWritableBytes len = some b' ∧ b'.readerIndex = kCheapPrepend ∧
      b'.writerIndex = b.writerIndex ∧ b'.buffer.length = b.buffer.length := by
  obtain ⟨hlt, hge⟩ := hc
  have hpre := h.prepend
  have hord := h.order
  have hin := h.inside
  have hlen : b.readable.length = b.writerIndex - b.readerIndex := h.readable_length_eq
  unfold ensureWritableBytes
  rw [if_pos hlt, makeSpace_compact h hge]
  exact ⟨_, rfl, rfl, rfl, overwrite_length (by omega)⟩

end EnsureWritable

/-! ## The writing operations

Each of `append`, `vappend` and `readFd` off the compaction branch puts its bytes behind the
readable ones, and after a compaction it does not. Both directions are needed: the queue below is
kept exactly as long as nothing compacts. -/

section Writes

variable {b : Buffer}

/-- A well-formed buffer with room takes bytes at its writer index. -/
theorem extend_spec (h : b.WellFormed) {data : List UInt8}
    (hroom : b.writerIndex + data.length ≤ b.buffer.length) :
    Extends b data { b with buffer := overwrite b.buffer b.writerIndex data,
                            writerIndex := b.writerIndex + data.length } := by
  have hord := h.order
  refine ⟨⟨h.prepend, ?_, ?_⟩, rfl, rfl, ?_, ?_⟩
  · show b.readerIndex ≤ b.writerIndex + data.length
    omega
  · show b.writerIndex + data.length ≤ (overwrite b.buffer b.writerIndex data).length
    rw [overwrite_length hroom]
    exact hroom
  · exact fun lo hi hhi => slice_overwrite_before (by omega) hhi
  · exact slice_overwrite_self (by omega)

/-- Off the compaction branch the bytes go behind the readable ones, and the storage grows as
far as it must. -/
theorem append_spec (h : b.WellFormed) {data : List UInt8} (hnc : ¬ b.Compacts data.length) :
    ∃ b', b.append data = some b' ∧ Extends b data b' ∧
      b'.buffer.length = max b.buffer.length (b.writerIndex + data.length) := by
  obtain ⟨b₁, hb₁, hx₁, hroom⟩ := ensureWritableBytes_spec h hnc
  have hwf := hx₁.wellFormed
  have hw := hwf.writableBytes_eq
  have hw₀ := h.writableBytes_eq
  have hin := hwf.inside
  have hin₀ := h.inside
  have hwr := hx₁.writerIndex
  rw [List.length_nil] at hwr
  have hfit : b₁.writerIndex + data.length ≤ b₁.buffer.length := by omega
  refine ⟨_, ?_, hx₁.trans (extend_spec hwf hfit), ?_⟩
  · simp only [append, hb₁, Option.bind_eq_bind, Option.bind_some, writeAt_eq_some hfit]
  · show (overwrite b₁.buffer b₁.writerIndex data).length = _
    rw [overwrite_length hfit]
    omega

/-- After a compaction the bytes to append do not fit: the copy leaves the storage. -/
theorem append_compact (h : b.WellFormed) {data : List UInt8} (hc : b.Compacts data.length) :
    b.append data = none := by
  obtain ⟨b₁, hb₁, -, hw, hsize⟩ := ensureWritableBytes_compact h hc
  have hlt := hc.1
  rw [h.writableBytes_eq] at hlt
  have hin := h.inside
  have hover : b₁.buffer.length < b₁.writerIndex + data.length := by omega
  simp only [append, hb₁, Option.bind_eq_bind, Option.bind_some, writeAt_eq_none hover,
    Option.bind_none]

/-- The bytes `vsnprintf` stores stay inside the space it is given. -/
theorem vsnprintf_spec {out : List UInt8} (hin : b.writerIndex ≤ b.buffer.length)
    (hout : out.length < 2 ^ 31) :
    ∃ buffer, b.vsnprintf b.writableBytes out
        = some ({ b with buffer := buffer }, (out.length : Int)) ∧
      buffer.length = b.buffer.length ∧
      (out.length < b.writableBytes →
        buffer = overwrite b.buffer b.writerIndex (out ++ [0])) := by
  have hw : b.writableBytes = b.buffer.length - b.writerIndex := sizeSub_of_le hin
  unfold vsnprintf beginWrite
  rw [if_pos hout]
  rcases Nat.eq_zero_or_pos b.writableBytes with hz | hpos
  · rw [if_pos hz]
    exact ⟨b.buffer, rfl, rfl, fun hlt => absurd hlt (by omega)⟩
  · rw [if_neg (by omega)]
    have hfit : b.writerIndex + (out.take (b.writableBytes - 1) ++ [0]).length
        ≤ b.buffer.length := by
      rw [List.length_append, List.length_take, List.length_singleton]
      omega
    rw [writeAt_eq_some hfit]
    refine ⟨_, rfl, overwrite_length hfit, fun hlt => ?_⟩
    rw [List.take_of_length_le (by omega)]

theorem vappend_spec (h : b.WellFormed) {maxLen : Nat} {out : List UInt8}
    (hout : out.length < 2 ^ 31) (hfits : out.length < maxLen ∨ out.length < b.writableBytes)
    (hnc : ¬ b.Compacts maxLen) :
    ∃ b', b.vappend maxLen out = some (b', true) ∧ b'.WellFormed ∧
      b'.readable = b.readable ++ out := by
  obtain ⟨b₁, hb₁, hx₁, hroom⟩ := ensureWritableBytes_spec h hnc
  have hwf := hx₁.wellFormed
  have hread : b₁.readable = b.readable := by rw [hx₁.readable h, List.append_nil]
  obtain ⟨buffer, hvs, hlen, hbuf⟩ := vsnprintf_spec hwf.inside hout
  have hw := hwf.writableBytes_eq
  have hin := hwf.inside
  -- the output and its NUL fit behind the writer index, by room asked for or by room left
  have hlt : out.length < b₁.writableBytes := by omega
  have hfit : b₁.writerIndex + (out ++ [0]).length ≤ b₁.buffer.length := by
    rw [List.length_append, List.length_singleton]; omega
  have hsame : writableBytes { b₁ with buffer := buffer } = b₁.writableBytes := by
    simp only [writableBytes, hlen]
  have hno : ¬ b₁.writableBytes ≤ toSizeT out.length := by
    rw [toSizeT_natCast (by omega)]; omega
  refine ⟨{ b₁ with buffer := buffer, writerIndex := b₁.writerIndex + out.length }, ?_,
    ⟨hwf.prepend, ?_, ?_⟩, ?_⟩
  · simp only [vappend, hb₁, Option.bind_eq_bind, Option.bind_some, hvs, hsame, if_neg hno,
      Int.toNat_natCast]
  · show b₁.readerIndex ≤ b₁.writerIndex + out.length
    have := hwf.order
    omega
  · show b₁.writerIndex + out.length ≤ buffer.length
    omega
  · -- the rendered bytes are in place, the NUL after them is outside the region
    have hext : slice (overwrite b₁.buffer b₁.writerIndex (out ++ [0])) b₁.readerIndex
        (b₁.writerIndex + (out ++ [0]).length) = b₁.readable ++ (out ++ [0]) :=
      slice_overwrite_extend hwf.order hfit
    have hlenr := hwf.readable_length_eq
    have hord := hwf.order
    have htake := congrArg (List.take (b₁.readable ++ out).length) hext
    rw [← List.append_assoc, List.take_left, List.length_append, slice_take (by
      rw [List.length_append, List.length_singleton]; omega)] at htake
    show slice buffer b₁.readerIndex (b₁.writerIndex + out.length) = b.readable ++ out
    rw [hbuf hlt, ← hread, ← htake]
    congr 1
    omega

/-- After a compaction `vappend` does not put its output behind the readable bytes. -/
theorem vappend_compact (h : b.WellFormed) {maxLen : Nat} {out : List UInt8}
    (hout : out.length < 2 ^ 31) (hc : b.Compacts maxLen) :
    ¬ ∃ b', b.vappend maxLen out = some (b', true) ∧ b'.WellFormed ∧
      b'.readable = b.readable ++ out := by
  rintro ⟨b', hb', hwf', hread'⟩
  obtain ⟨b₁, hb₁, hr, hw, hsize⟩ := ensureWritableBytes_compact h hc
  have hin : b₁.writerIndex ≤ b₁.buffer.length := by rw [hw, hsize]; exact h.inside
  obtain ⟨buffer, hvs, hlen, -⟩ := vsnprintf_spec hin hout
  simp only [vappend, hb₁, Option.bind_eq_bind, Option.bind_some, hvs] at hb'
  split at hb'
  · cases hb'
  · cases hb'
    -- the region starts at `kCheapPrepend` now, so it is too long
    have hcount := congrArg List.length hread'
    rw [hwf'.readable_length_eq, List.length_append, h.readable_length_eq] at hcount
    simp only [Int.toNat_natCast, hr, hw] at hcount
    have hge := hc.2
    have hlt := hc.1
    have hp : b.prependableBytes = b.readerIndex := rfl
    have hord := h.order
    omega

/-! `readFd` fills the writable space first, so its spare bytes are appended to a full buffer. -/

theorem readFd_fill (h : b.WellFormed) {incoming : List UInt8}
    (hlt : b.writableBytes < incoming.length) :
    ∃ b₁ : Buffer, Extends b (incoming.take b.writableBytes) b₁ ∧ b₁.writableBytes = 0 ∧
      { b with buffer := overwrite b.buffer b.writerIndex (incoming.take b.writableBytes),
               writerIndex := (overwrite b.buffer b.writerIndex
                 (incoming.take b.writableBytes)).length } = b₁ := by
  have hin := h.inside
  have hw := h.writableBytes_eq
  have htake : (incoming.take b.writableBytes).length = b.writableBytes := by
    rw [List.length_take]; omega
  have hfit : b.writerIndex + (incoming.take b.writableBytes).length ≤ b.buffer.length := by
    omega
  have hx := extend_spec h hfit
  have hend : (overwrite b.buffer b.writerIndex (incoming.take b.writableBytes)).length
      = b.writerIndex + (incoming.take b.writableBytes).length := by
    rw [overwrite_length hfit]; omega
  rw [hend]
  refine ⟨_, hx, ?_, rfl⟩
  rw [hx.wellFormed.writableBytes_eq]
  simp only
  omega

theorem readFd_bytes (h : b.WellFormed) (incoming : List UInt8) :
    b.readFd (.bytes incoming)
      = readFdCount { b with buffer := overwrite b.buffer b.writerIndex
                                        (incoming.take b.writableBytes) }
          b.writableBytes (incoming.drop b.writableBytes) (toInt32 incoming.length) := by
  have hin := h.inside
  have hw := h.writableBytes_eq
  have hfit : b.writerIndex + (incoming.take b.writableBytes).length ≤ b.buffer.length := by
    rw [List.length_take]; omega
  rw [readFd, writeAt_eq_some hfit, Option.bind_eq_bind, Option.bind_some]

theorem readFd_spec (h : b.WellFormed) {incoming : List UInt8}
    (hint : incoming.length < 2 ^ 31) (hnc : ¬ b.Compacts incoming.length) :
    ∃ b', b.readFd (.bytes incoming) = some (b', (incoming.length : Int)) ∧
      Extends b incoming b' ∧
      b'.buffer.length = max b.buffer.length (b.writerIndex + incoming.length) := by
  have hin := h.inside
  have hw := h.writableBytes_eq
  have hnonneg : ¬ (incoming.length : Int) < 0 := by omega
  rw [readFd_bytes h, toInt32_natCast hint, readFdCount, if_neg hnonneg, Int.toNat_natCast]
  rcases Nat.lt_or_ge b.writableBytes incoming.length with hlt | hge
  · -- more than the writable bytes: the storage is filled, and the rest is appended to it
    rw [if_neg (by omega)]
    obtain ⟨b₁, hx₁, hfull, hb₁⟩ := readFd_fill h hlt
    have hspare : ((incoming.drop b.writableBytes).take
        (incoming.length - b.writableBytes)) = incoming.drop b.writableBytes :=
      List.take_of_length_le (by rw [List.length_drop])
    have hnc₁ : ¬ b₁.Compacts (incoming.drop b.writableBytes).length := by
      rintro ⟨-, hc⟩
      unfold Compacts prependableBytes at hnc
      rw [hfull, prependableBytes, hx₁.readerIndex, List.length_drop] at hc
      omega
    obtain ⟨b', hb', hx', hsize'⟩ := append_spec hx₁.wellFormed hnc₁
    have hx := hx₁.trans hx'
    rw [List.take_append_drop] at hx
    rw [hb₁, hspare, hb']
    refine ⟨b', rfl, hx, ?_⟩
    have hend := hx₁.wellFormed.writableBytes_eq
    have hin₁ := hx₁.wellFormed.inside
    have hwr := hx₁.writerIndex
    rw [List.length_take] at hwr
    rw [hsize', List.length_drop]
    omega
  · -- all of it is written in front of the end of the storage
    rw [if_pos hge, List.take_of_length_le hge]
    have hfit' : b.writerIndex + incoming.length ≤ b.buffer.length := by omega
    refine ⟨_, rfl, extend_spec h hfit', ?_⟩
    show (overwrite b.buffer b.writerIndex incoming).length = _
    rw [overwrite_length hfit']
    omega

/-- A chunk that arrives by `readFd` is appended. -/
theorem readFd_eq_append (h : b.WellFormed) {chunk : List UInt8}
    (hint : chunk.length < 2 ^ 31) (hnc : ¬ b.Compacts chunk.length) :
    b.readFd (.bytes chunk) = (b.append chunk).map fun b' => (b', (chunk.length : Int)) := by
  have hw := h.writableBytes_eq
  have hin := h.inside
  rcases Nat.lt_or_ge b.writableBytes chunk.length with hlt | hge
  · obtain ⟨b₁, hb₁, hx₁, hend₁⟩ := readFd_spec h hint hnc
    obtain ⟨b₂, hb₂, hx₂, hend₂⟩ := append_spec h hnc
    rw [hb₁, hb₂, hx₁.unique hx₂ (by omega) (by omega)]
    rfl
  · -- the chunk fits into the writable bytes
    have hroom : b.writerIndex + chunk.length ≤ b.buffer.length := by omega
    have hnonneg : ¬ (chunk.length : Int) < 0 := by omega
    have hensure : b.ensureWritableBytes chunk.length = some b := if_neg (Nat.not_lt.mpr hge)
    rw [readFd_bytes h, toInt32_natCast hint, readFdCount, if_neg hnonneg, Int.toNat_natCast,
      if_pos hge, List.take_of_length_le hge, append, hensure, Option.bind_eq_bind,
      Option.bind_some, writeAt_eq_some hroom]
    rfl

/-- A read that compacts: the copy of its spare bytes leaves the storage. -/
theorem readFd_compact (h : b.WellFormed) {incoming : List UInt8}
    (hint : incoming.length < 2 ^ 31) (hc : b.Compacts incoming.length) :
    b.readFd (.bytes incoming) = none := by
  have hlt := hc.1
  have hnonneg : ¬ (incoming.length : Int) < 0 := by omega
  rw [readFd_bytes h, toInt32_natCast hint, readFdCount, if_neg hnonneg, Int.toNat_natCast,
    if_neg (by omega)]
  obtain ⟨b₁, hx₁, hfull, hb₁⟩ := readFd_fill h hlt
  have hspare : ((incoming.drop b.writableBytes).take
      (incoming.length - b.writableBytes)).length = incoming.length - b.writableBytes := by
    rw [List.length_take, List.length_drop]
    omega
  have hc₁ : b₁.Compacts ((incoming.drop b.writableBytes).take
      (incoming.length - b.writableBytes)).length := by
    rw [hspare]
    unfold Compacts prependableBytes at hc ⊢
    rw [hfull, hx₁.readerIndex]
    omega
  rw [hb₁, append_compact hx₁.wellFormed hc₁]
  rfl

/-- A read that compacts, or whose count does not fit an `int`, is not appended to the
readable bytes. -/
theorem readFd_unsafe (h : b.WellFormed) {incoming : List UInt8}
    (hbad : b.Compacts incoming.length ∨ 2 ^ 31 ≤ incoming.length) :
    ¬ ∃ b' n, b.readFd (.bytes incoming) = some (b', n) ∧ b'.WellFormed ∧
      b'.readable = b.readable ++ incoming := by
  rintro ⟨b', n, hb', hwf', hread'⟩
  have hpos : 0 < incoming.length := by
    rcases hbad with hc | hge
    · exact Nat.lt_of_le_of_lt (Nat.zero_le _) hc.1
    · exact Nat.lt_of_lt_of_le (by decide) hge
  -- the count is what arrived, and the read compacts, or it is less
  replace hbad : b.Compacts incoming.length ∧ toInt32 incoming.length = incoming.length ∨
      toInt32 incoming.length < incoming.length := by
    rcases Nat.lt_or_ge incoming.length (2 ^ 31) with hlt | hge
    · rcases hbad with hc | hge
      · exact .inl ⟨hc, toInt32_natCast hlt⟩
      · exact absurd hge (Nat.not_le.mpr hlt)
    · exact .inr (toInt32_natCast_lt hge)
  have hle := toInt32_natCast_le incoming.length
  have hin := h.inside
  have hord := h.order
  have hw := h.writableBytes_eq
  have hcount := congrArg List.length hread'
  rw [hwf'.readable_length_eq, List.length_append, h.readable_length_eq] at hcount
  rw [readFd_bytes h] at hb'
  generalize toInt32 incoming.length = m at hbad hle hb'
  unfold readFdCount at hb'
  split at hb'
  · -- a negative count: nothing is added, though bytes arrived
    cases hb'
    simp only at hcount
    omega
  · split at hb'
    · -- the count fits the writable bytes: no compaction, so it is less than what arrived
      next hfits =>
      cases hb'
      simp only at hcount
      rcases hbad with ⟨hc, heq⟩ | hlt
      · have := hc.1
        omega
      · omega
    · -- the spare bytes are appended to the full buffer
      next hgt =>
      obtain ⟨b₁, hx₁, hfull, hb₁⟩ := readFd_fill h
        (show b.writableBytes < incoming.length by omega)
      have hwf := hx₁.wellFormed
      have hr := hx₁.readerIndex
      have hread := hx₁.readable h
      have hsize := congrArg List.length hread
      rw [hwf.readable_length_eq, List.length_append, h.readable_length_eq,
        List.length_take] at hsize
      rw [hb₁] at hb'
      set spare := (incoming.drop b.writableBytes).take
        (m.toNat - b.writableBytes) with hspare
      have hsl : spare.length = m.toNat - b.writableBytes := by
        rw [hspare, List.length_take, List.length_drop]
        omega
      by_cases hc₁ : b₁.Compacts spare.length
      · rw [append_compact hwf hc₁] at hb'
        cases hb'
      · obtain ⟨b₂, hb₂, hx₂, -⟩ := append_spec hwf hc₁
        have hwf₂ := hx₂.wellFormed
        have hread₂ := hx₂.readable hwf
        rw [hb₂] at hb'
        cases hb'
        have hcount₂ := congrArg List.length hread₂
        rw [hwf₂.readable_length_eq, List.length_append, hwf.readable_length_eq] at hcount₂
        unfold Compacts prependableBytes at hbad hc₁
        omega

end Writes

/-! ## The queue a client sees

The reference is a list of bytes. One step keeps the buffer's readable region equal to it exactly
when the step is safe (`step_tracks_iff`), and the rule for following a reference carries this to
runs. -/

/-- A client's operation, with the bytes the environment brings: what `vappend` renders and
what `readv` delivers. -/
inductive Op where
  | append (data : List UInt8)
  | vappend (maxLen : Nat) (out : List UInt8)
  | readFd (incoming : List UInt8)
  | retrieve (len : Nat)
  | retrieveAll
  | retrieveAsString (len : Nat)
deriving DecidableEq, Repr

/-- What an operation hands to the client: `vappend`'s result or a string. -/
inductive Ret where
  | ok (b : Bool)
  | str (s : List UInt8)
deriving DecidableEq, Repr

/-- A buffer in use: its state and what its client was handed so far. -/
abbrev InUse := Buffer × List Ret

def step : InUse → Op → Option InUse
  | (b, rets), .append data => (b.append data).map fun b' => (b', rets)
  | (b, rets), .vappend maxLen out =>
    (b.vappend maxLen out).map fun r => (r.1, rets ++ [.ok r.2])
  | (b, rets), .readFd incoming => (b.readFd (.bytes incoming)).map fun r => (r.1, rets)
  | (b, rets), .retrieve len => some (b.retrieve len, rets)
  | (b, rets), .retrieveAll => some (b.retrieveAll, rets)
  | (b, rets), .retrieveAsString len =>
    (b.retrieveAsString len).map fun r => (r.2, rets ++ [.str r.1])

/-- The reference: a queue of bytes, filled at the back and emptied from the front. -/
def queue : List UInt8 × List Ret → Op → List UInt8 × List Ret
  | (q, rets), .append data => (q ++ data, rets)
  | (q, rets), .vappend _ out => (q ++ out, rets ++ [.ok true])
  | (q, rets), .readFd incoming => (q ++ incoming, rets)
  | (q, rets), .retrieve len => (q.drop len, rets)
  | (_, rets), .retrieveAll => ([], rets)
  | (q, rets), .retrieveAsString len => (q.drop len, rets ++ [.str (q.take len)])

/-- The buffer is in order and its readable region is the queue. -/
def Tracks (s : InUse) (q : List UInt8 × List Ret) : Prop :=
  s.1.WellFormed ∧ s.1.readable = q.1 ∧ s.2 = q.2

/-- The operations a client may ask for: an output that fits the space asked for or the space
there is, a transfer that fits the iovecs, a string no longer than the readable region. -/
def Admissible (s : InUse) : Op → Prop
  | .append _ => True
  | .vappend maxLen out =>
    out.length < 2 ^ 31 ∧ (out.length < maxLen ∨ out.length < s.1.writableBytes)
  | .readFd incoming =>
    incoming.length
      ≤ s.1.writableBytes + if s.1.writableBytes ≤ extrabufSize then extrabufSize else 0
  | .retrieve _ => True
  | .retrieveAll => True
  | .retrieveAsString len => len ≤ s.1.readableBytes

/-- The operation does not make `makeSpace` compact, and a read's count fits an `int`. -/
def Safe (s : InUse) : Op → Prop
  | .append data => ¬ s.1.Compacts data.length
  | .vappend maxLen _ => ¬ s.1.Compacts maxLen
  | .readFd incoming => ¬ s.1.Compacts incoming.length ∧ incoming.length < 2 ^ 31
  | .retrieve _ => True
  | .retrieveAll => True
  | .retrieveAsString _ => True

instance (s : InUse) : DecidablePred (Admissible s) := fun op => by
  cases op <;> unfold Admissible <;> infer_instance

instance (s : InUse) : DecidablePred (Safe s) := fun op => by
  cases op <;> unfold Safe <;> infer_instance

section Retrieve

variable {b : Buffer}

theorem retrieveAll_spec (h : b.WellFormed) :
    b.retrieveAll.WellFormed ∧ b.retrieveAll.readable = [] := by
  have hpre := h.prepend
  have hord := h.order
  have hin := h.inside
  refine ⟨⟨Nat.le_refl _, Nat.le_refl _, ?_⟩, slice_self _ _⟩
  show kCheapPrepend ≤ b.buffer.length
  omega

theorem retrieve_spec (h : b.WellFormed) (len : Nat) :
    (b.retrieve len).WellFormed ∧ (b.retrieve len).readable = b.readable.drop len := by
  have hpre := h.prepend
  have hrb := h.readableBytes_eq
  unfold retrieve
  rcases Nat.lt_or_ge len b.readableBytes with hlt | hge
  · rw [if_pos hlt]
    refine ⟨⟨?_, ?_, h.inside⟩, (slice_drop _ _ _ _).symm⟩
    · show kCheapPrepend ≤ b.readerIndex + len
      omega
    · show b.readerIndex + len ≤ b.writerIndex
      omega
  · rw [if_neg (by omega), List.drop_of_length_le (by rw [h.readable_length]; exact hge)]
    exact retrieveAll_spec h

theorem retrieveAsString_spec (h : b.WellFormed) {len : Nat} (hlen : len ≤ b.readableBytes) :
    b.retrieveAsString len = some (b.readable.take len, b.retrieve len) := by
  have hrb := h.readableBytes_eq
  have hin := h.inside
  have hord := h.order
  unfold retrieveAsString
  rw [readRange_eq_some (by omega) (by omega), readable, slice_take (by omega)]
  rfl

end Retrieve

/-- One admissible operation keeps the readable region equal to the queue exactly when it is
safe. -/
theorem step_tracks_iff (s : InUse) (q : List UInt8 × List Ret) (op : Op) (hR : Tracks s q)
    (hadm : Admissible s op) :
    (∃ t, step s op = some t ∧ Tracks t (queue q op)) ↔ Safe s op := by
  obtain ⟨b, rets⟩ := s
  obtain ⟨q, rets'⟩ := q
  obtain ⟨hwf, hq, hrets⟩ := hR
  simp only at hwf hq hrets
  subst hq hrets
  cases op with
  | append data =>
    simp only [step, Option.map_eq_some_iff, Tracks, Safe, queue]
    refine ⟨fun ⟨t, ⟨b', hb', ht⟩, _⟩ hc => ?_, fun hs => ?_⟩
    · -- after a compaction the copy of the data leaves the storage
      rw [append_compact hwf hc] at hb'
      cases hb'
    · obtain ⟨b', hb', hx, -⟩ := append_spec hwf hs
      exact ⟨_, ⟨b', hb', rfl⟩, hx.wellFormed, hx.readable hwf, rfl⟩
  | vappend maxLen out =>
    simp only [step, Option.map_eq_some_iff, Tracks, Safe, queue]
    refine ⟨fun ⟨t, ⟨⟨b', ok⟩, hb', ht⟩, hwf', hread', hok⟩ hc => ?_, fun hs => ?_⟩
    · -- or it ends where it should not, so what is readable is not the queue
      subst ht
      simp only [List.append_cancel_left_eq, List.cons.injEq, Ret.ok.injEq, and_true] at hok
      subst hok
      exact vappend_compact hwf hadm.1 hc ⟨b', hb', hwf', hread'⟩
    · obtain ⟨b', hb', hwf', hread'⟩ := vappend_spec hwf hadm.1 hadm.2 hs
      exact ⟨_, ⟨_, hb', rfl⟩, hwf', hread', rfl⟩
  | readFd incoming =>
    simp only [step, Option.map_eq_some_iff, Tracks, Safe, queue]
    refine ⟨fun ⟨t, ⟨⟨b', n⟩, hb', ht⟩, hwf', hread', _⟩ => ?_, fun hs => ?_⟩
    · -- a read goes wrong in one more way: its count is no `int`
      subst ht
      by_contra hbad
      refine readFd_unsafe hwf ?_ ⟨b', n, hb', hwf', hread'⟩
      rcases not_and_or.mp hbad with hc | hbig
      · exact .inl (not_not.mp hc)
      · exact .inr (Nat.not_lt.mp hbig)
    · obtain ⟨b', hb', hx, -⟩ := readFd_spec hwf hs.2 hs.1
      exact ⟨_, ⟨_, hb', rfl⟩, hx.wellFormed, hx.readable hwf, rfl⟩
  -- consuming moves an index only
  | retrieve len =>
    obtain ⟨hwf', hread'⟩ := retrieve_spec hwf len
    exact iff_of_true ⟨_, rfl, hwf', hread', rfl⟩ trivial
  | retrieveAll =>
    obtain ⟨hwf', hread'⟩ := retrieveAll_spec hwf
    exact iff_of_true ⟨_, rfl, hwf', hread', rfl⟩ trivial
  | retrieveAsString len =>
    obtain ⟨hwf', hread'⟩ := retrieve_spec hwf len
    simp only [step, Option.map_eq_some_iff]
    exact iff_of_true ⟨_, ⟨_, retrieveAsString_spec hwf hadm, rfl⟩, hwf', hread', rfl⟩ trivial

end HttpWebserver.Buffer
