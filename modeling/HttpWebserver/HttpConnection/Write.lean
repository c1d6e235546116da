import HttpWebserver.HttpConnection.Connection
import HttpWebserver.Lib.Machine

/-!
# HttpConnection — sending the response

`processWrite` leaves a response as two iovecs, the header in `outputBuffer_` and the file
body in `fileAddress_`; `write` sends it with as many `writev` calls as the socket needs.

* `queueFile` and `queueBuffer` are the two blocks of `processWrite` that set the iovecs up.
* `write` is a machine: a call by the event loop, the outcome of each `writev` of its loop, and
  the return once nothing is left. `accepted` collects the bytes the socket took.
* **`sent_in_order`** — as long as no `writev` is made after one that took only a part, the
  socket gets a prefix of header and body, all of it when the count of bytes to send is used
  up. `write` and `writeFd` never move the base of an iovec past what was sent, so the `writev`
  after a partial one starts with the header again.
-/

namespace HttpWebserver.HttpConnection

open Machine MachineInt Storage

/-! ## Setting the response up -/

/-- The tail of `processWrite` for a file that is not empty. -/
def queueFile (c : HttpConnection) : HttpConnection :=
  { c with
    writeVec :=
      ({ base := .storage c.outputBuffer.peek, len := c.outputBuffer.readableBytes },
       { base := .fileAddress 0, len := toSizeT c.fileStat.st_size })
    writeIovcnt := 2
    bytesToSend := toInt32 (c.outputBuffer.readableBytes + c.fileStat.st_size) }

/-- The tail of `processWrite` for a response held in the output buffer alone. -/
def queueBuffer (c : HttpConnection) : HttpConnection :=
  { c with
    writeVec :=
      ({ base := .storage c.outputBuffer.peek, len := c.outputBuffer.readableBytes },
       c.writeVec.2)
    writeIovcnt := 1
    bytesToSend := toInt32 c.outputBuffer.readableBytes }

section Queue

variable (c : HttpConnection)

@[simp] theorem queueFile_outputBuffer : c.queueFile.outputBuffer = c.outputBuffer := by
  rw [queueFile]

@[simp] theorem queueFile_fileAddress : c.queueFile.fileAddress = c.fileAddress := by
  rw [queueFile]

@[simp] theorem queueFile_bytesHaveSend : c.queueFile.bytesHaveSend = c.bytesHaveSend := by
  rw [queueFile]

@[simp] theorem queueBuffer_outputBuffer : c.queueBuffer.outputBuffer = c.outputBuffer := by
  rw [queueBuffer]

@[simp] theorem queueBuffer_bytesHaveSend : c.queueBuffer.bytesHaveSend = c.bytesHaveSend := by
  rw [queueBuffer]

end Queue

/-! ## What the socket is given

An iovec is a base and a count. What is sent from it is what stands there at the time of the
`writev`, with a NUL behind a string. -/

def iovecs (c : HttpConnection) : List IoVec := [c.writeVec.1, c.writeVec.2].take c.writeIovcnt

def iovTotal (c : HttpConnection) : Nat := (c.iovecs.map IoVec.len).sum

/-- The first `k` bytes from `base` on. A string has a NUL behind its bytes; the copy that
`writeFd` takes of it is gone when the iovec is used. -/
def loadBytes (c : HttpConnection) (base : IoBase) (k : Nat) : Option (List UInt8) :=
  if k = 0 then some []
  else match base with
    | .storage off => readRange c.outputBuffer.buffer off (off + k)
    | .fileAddress off => readRange (c.fileAddress ++ [0]) off (off + k)
    | .fileCopy _ => none

/-- The first `n` bytes of the given iovecs. -/
def gather (c : HttpConnection) : List IoVec → Nat → Option (List UInt8)
  | [], _ => some []
  | v :: vs, n => do
    let bytes ← c.loadBytes v.base (min n v.len)
    let rest ← c.gather vs (n - min n v.len)
    some (bytes ++ rest)

/-! ## `write`

The loop, one `writev` for each step, so that the socket may take any number of bytes each time. -/

/-- `munmap` has no effect on a string's own storage; assigning a null pointer to the string
is undefined. -/
def unmap (c : HttpConnection) : Option HttpConnection :=
  if c.fileAddress ≠ [] then none else some c

/-- Where a call of `write` is: not running, in its loop, or out of it with nothing left. -/
inductive WritePhase where
  | idle
  | looping
  | complete
deriving DecidableEq, Repr

/-- A response being sent: the connection, and the bytes the socket has accepted. -/
structure Sending where
  conn : HttpConnection
  phase : WritePhase
  accepted : List UInt8

inductive WriteLabel where
  | call
  | writev (r : Writev)
  | finish
deriving DecidableEq, Repr

/-- The loop body of `write` behind the call of `writeFd`, and whether the loop goes on. -/
def writeCount (c : HttpConnection) (tmp : Int) (eagain : Bool) :
    Option (HttpConnection × WritePhase) :=
  if tmp < 0 then
    if eagain then some (c.enableWriting, .idle)
    else c.unmap.map fun c => (c, .idle)
  else
    let c := { c with
      bytesToSend := toInt32 (c.bytesToSend - tmp)
      bytesHaveSend := toInt32 (c.bytesHaveSend + tmp) }
    some (c, if c.bytesToSend ≤ 0 then .complete else .looping)

/-- The loop body of `write`, up to the test of `bytesToSend_`. -/
def writeRound (c : HttpConnection) (r : Writev) : Option (HttpConnection × WritePhase) :=
  let sent := c.outputBuffer.writeFd r c.writeVec c.bytesHaveSend c.bytesToSend
  writeCount { c with outputBuffer := sent.1, writeVec := sent.2.1 } sent.2.2 (r = .error true)

def writeStep (s : Sending) (l : WriteLabel) : Option Sending :=
  match s.phase, l with
  | .idle, .call =>
    if s.conn.bytesToSend = 0 then some { s with conn := s.conn.enableReading.init }
    else some { s with phase := .looping }
  | .looping, .writev (.error eagain) => do
    let (c, phase) ← s.conn.writeRound (.error eagain)
    some { s with conn := c, phase := phase }
  | .looping, .writev (.accept n) =>
    -- the socket takes at least one byte and no more than the iovecs hold
    if 1 ≤ n ∧ n ≤ s.conn.iovTotal then do
      let bytes ← s.conn.gather s.conn.iovecs n
      let (c, phase) ← s.conn.writeRound (.accept n)
      some { conn := c, phase := phase, accepted := s.accepted ++ bytes }
    else none
  | .complete, .finish => do
    let c ← s.conn.unmap
    some { s with conn := c.enableReading, phase := .idle }
  | _, _ => none

/-! ## The responses `processWrite` sets up -/

/-- A connection for which `processWrite` has queued `header` and `body`, nothing sent yet. -/
def Queued (c : HttpConnection) (header body : List UInt8) : Prop :=
  ∃ b : HttpConnection, b.outputBuffer.WellFormed ∧ b.outputBuffer.readable = header ∧
    header ≠ [] ∧ b.bytesHaveSend = 0 ∧
    ((body = [] ∧ c = b.queueBuffer) ∨
     (body ≠ [] ∧ b.fileAddress = body ∧ b.fileStat.st_size = body.length ∧ c = b.queueFile))

/-- The first iovec is the header. -/
def HeadFirst (c : HttpConnection) (header : List UInt8) : Prop :=
  ∃ off vs, c.iovecs = { base := .storage off, len := header.length } :: vs ∧
    off + header.length ≤ c.outputBuffer.buffer.length ∧
    slice c.outputBuffer.buffer off (off + header.length) = header

/-- The iovecs are the whole response. -/
def Holds (c : HttpConnection) (response : List UInt8) : Prop :=
  c.iovTotal = response.length ∧
    ∀ n, n ≤ response.length → c.gather c.iovecs n = some (response.take n)

section Load

variable {c : HttpConnection} {header body : List UInt8}

theorem loadBytes_storage {off k : Nat} {bytes : List UInt8}
    (hin : off + bytes.length ≤ c.outputBuffer.buffer.length)
    (hbytes : slice c.outputBuffer.buffer off (off + bytes.length) = bytes)
    (hk : k ≤ bytes.length) : c.loadBytes (.storage off) k = some (bytes.take k) := by
  unfold loadBytes
  rcases Nat.eq_zero_or_pos k with hz | hpos
  · rw [if_pos hz, hz, List.take_zero]
  · rw [if_neg (by omega)]
    show readRange c.outputBuffer.buffer off (off + k) = some (bytes.take k)
    rw [readRange_eq_some (by omega) (by omega),
      ← slice_take (show off + k ≤ off + bytes.length from by omega), hbytes]

theorem loadBytes_file {k : Nat} (hk : k ≤ c.fileAddress.length) :
    c.loadBytes (.fileAddress 0) k = some (c.fileAddress.take k) := by
  unfold loadBytes
  rcases Nat.eq_zero_or_pos k with hz | hpos
  · rw [if_pos hz, hz, List.take_zero]
  · rw [if_neg (by omega)]
    show readRange (c.fileAddress ++ [0]) 0 (0 + k) = some (c.fileAddress.take k)
    rw [readRange_eq_some (by omega) (by rw [List.length_append]; omega), slice, List.drop_zero,
      Nat.zero_add, List.take_append_of_le_length hk]

/-- What a `writev` sends first when the header is first. -/
theorem gather_headFirst (h : HeadFirst c header) {n : Nat} {bytes : List UInt8}
    (hg : c.gather c.iovecs n = some bytes) :
    ∃ rest, bytes = header.take n ++ rest := by
  obtain ⟨off, vs, hvec, hin, hslice⟩ := h
  have hload : c.loadBytes (.storage off) (min n header.length)
      = some (header.take (min n header.length)) :=
    loadBytes_storage hin hslice (Nat.min_le_right _ _)
  rw [hvec, gather] at hg
  simp only [Option.bind_eq_bind, hload, Option.bind_some, Option.bind_eq_some_iff] at hg
  obtain ⟨rest, -, hbytes⟩ := hg
  refine ⟨rest, ?_⟩
  cases hbytes
  rw [show header.take (min n header.length) = header.take n from by
    rcases Nat.le_total n header.length with hle | hle
    · rw [Nat.min_eq_left hle]
    · rw [Nat.min_eq_right hle, List.take_length, List.take_of_length_le hle]]

end Load

/-! ## The queued response -/

section Holds

variable {c : HttpConnection} {header body : List UInt8} {off : Nat}

/-- A single iovec with the header is the header. -/
theorem holds_header (hvec : c.iovecs = [{ base := .storage off, len := header.length }])
    (hfit : off + header.length ≤ c.outputBuffer.buffer.length)
    (hslice : slice c.outputBuffer.buffer off (off + header.length) = header) :
    HeadFirst c header ∧ Holds c header := by
  refine ⟨⟨_, _, hvec, hfit, hslice⟩, ?_, fun n hn => ?_⟩
  · rw [iovTotal, hvec]
    simp
  · have hload := loadBytes_storage hfit hslice hn
    rw [hvec, gather, Nat.min_eq_left hn, Option.bind_eq_bind, hload]
    simp [gather]

/-- A second iovec with the file is the header and the file. -/
theorem holds_file
    (hvec : c.iovecs = [{ base := .storage off, len := header.length },
      { base := .fileAddress 0, len := body.length }])
    (hfit : off + header.length ≤ c.outputBuffer.buffer.length)
    (hslice : slice c.outputBuffer.buffer off (off + header.length) = header)
    (hfile : c.fileAddress = body) : HeadFirst c header ∧ Holds c (header ++ body) := by
  refine ⟨⟨_, _, hvec, hfit, hslice⟩, ?_, fun n hn => ?_⟩
  · rw [iovTotal, hvec, List.length_append]
    simp
  · rw [List.length_append] at hn
    have hload := loadBytes_storage hfit hslice (Nat.min_le_right n header.length)
    have hrest : min (n - min n header.length) body.length = n - min n header.length := by
      omega
    have hload₂ := loadBytes_file (c := c) (k := n - min n header.length)
      (by rw [hfile]; omega)
    rw [hvec, gather, Option.bind_eq_bind, hload, Option.bind_some, gather, hrest,
      Option.bind_eq_bind, hload₂, hfile]
    simp only [gather, Option.bind_some, List.append_nil, Option.some.injEq, List.take_append]
    -- the file is read where the header has been taken whole
    rcases Nat.le_total n header.length with hle | hle
    · rw [Nat.min_eq_left hle, Nat.sub_self, Nat.sub_eq_zero_of_le hle]
    · rw [Nat.min_eq_right hle, List.take_length, List.take_of_length_le hle]

end Holds

theorem queued_spec {c : HttpConnection} {header body : List UInt8} (h : Queued c header body)
    (hsize : header.length + body.length < 2 ^ 31) :
    HeadFirst c header ∧ Holds c (header ++ body) ∧ c.bytesHaveSend = 0 ∧
      c.bytesToSend = (header ++ body).length := by
  obtain ⟨b, hwf, hread, -, hsent, hcase⟩ := h
  have hin := hwf.inside
  have hord := hwf.order
  -- the readable region of the output buffer is the header
  have hcount : b.outputBuffer.readableBytes = header.length := by
    rw [← hread, hwf.readable_length]
  have hlen : header.length = b.outputBuffer.writerIndex - b.outputBuffer.readerIndex := by
    rw [← hread, hwf.readable_length_eq]
  have hheader : header.length < 2 ^ 31 := by omega
  have hfit : b.outputBuffer.readerIndex + header.length ≤ b.outputBuffer.buffer.length := by
    omega
  have hend : b.outputBuffer.readerIndex + header.length = b.outputBuffer.writerIndex := by omega
  have hslice : slice b.outputBuffer.buffer b.outputBuffer.readerIndex
      (b.outputBuffer.readerIndex + header.length) = header := by
    rw [hend]; exact hread
  rcases hcase with ⟨hbody, hc⟩ | ⟨-, hfile, hstat, hc⟩
  · -- the response is the output buffer
    subst hbody hc
    have hvec : b.queueBuffer.iovecs
        = [{ base := .storage b.outputBuffer.readerIndex, len := header.length }] := by
      rw [← hcount]
      rfl
    obtain ⟨hhead, hholds⟩ := holds_header hvec (by rw [queueBuffer_outputBuffer]; exact hfit)
      (by rw [queueBuffer_outputBuffer]; exact hslice)
    rw [List.append_nil]
    refine ⟨hhead, hholds, ?_, ?_⟩
    · rw [queueBuffer_bytesHaveSend]
      exact hsent
    · rw [queueBuffer, hcount, toInt32_natCast hheader]
  · -- the response is the output buffer and the file
    subst hc
    have hsz : toSizeT b.fileStat.st_size = body.length := by
      rw [hstat, toSizeT_natCast (by omega)]
    have hvec : b.queueFile.iovecs
        = [{ base := .storage b.outputBuffer.readerIndex, len := header.length },
           { base := .fileAddress 0, len := body.length }] := by
      rw [← hcount, ← hsz]
      rfl
    obtain ⟨hhead, hholds⟩ := holds_file hvec (by rw [queueFile_outputBuffer]; exact hfit)
      (by rw [queueFile_outputBuffer]; exact hslice) (by rw [queueFile_fileAddress]; exact hfile)
    refine ⟨hhead, hholds, ?_, ?_⟩
    · rw [queueFile_bytesHaveSend]
      exact hsent
    · rw [queueFile, hcount, hstat, List.length_append, ← Int.natCast_add,
        toInt32_natCast hsize]

/-! ## Sending it

No `writev` changes the first iovec, whatever it has taken of it, so one that follows a partial
one begins with the header again. -/

/-- How far a response is sent: not at all, in part, or wholly. A partial `writev` leaves the
header first in the iovecs. -/
inductive Progress (header body : List UInt8) (s : Sending) : Prop where
  | fresh (hphase : s.phase ≠ .complete) (haccepted : s.accepted = [])
      (hsent : s.conn.bytesHaveSend = 0)
      (hleft : s.conn.bytesToSend = (header ++ body).length)
      (hhead : HeadFirst s.conn header) (hholds : Holds s.conn (header ++ body))
  | short (hphase : s.phase ≠ .complete) (n : Nat) (hpos : 0 < n)
      (hlt : n < (header ++ body).length) (haccepted : s.accepted = (header ++ body).take n)
      (hsent : s.conn.bytesHaveSend = n)
      (hleft : s.conn.bytesToSend = (header ++ body).length - n)
      (hhead : HeadFirst s.conn header)
  | whole (hphase : s.phase ≠ .looping) (haccepted : s.accepted = header ++ body)
      (hleft : s.conn.bytesToSend = 0)

/-- No byte has been sent before this `writev`. -/
def Unsent (s : Sending) : WriteLabel → Prop
  | .writev (.accept _) => s.conn.bytesHaveSend = 0
  | _ => True

section Round

variable {c : HttpConnection} {header body : List UInt8} {s t : Sending}

/-- `writeFd` keeps the storage and the first iovec. -/
theorem headFirst_writeFd (h : HeadFirst c header) (sent left n : Int) :
    HeadFirst { c with
      outputBuffer := (c.outputBuffer.writeFdCount c.writeVec sent left n).1
      writeVec := (c.outputBuffer.writeFdCount c.writeVec sent left n).2.1 } header := by
  obtain ⟨off, vs, hvec, hin, hslice⟩ := h
  have hbuf : (c.outputBuffer.writeFdCount c.writeVec sent left n).1.buffer
      = c.outputBuffer.buffer := by
    unfold Buffer.writeFdCount
    simp only
    split
    · rfl
    · split <;> rfl
  have hfst : (c.outputBuffer.writeFdCount c.writeVec sent left n).2.1.1 = c.writeVec.1 := by
    unfold Buffer.writeFdCount
    simp only
    split
    · rfl
    · split <;> rfl
  refine ⟨off, ?_⟩
  simp only [iovecs, hbuf, hfst] at hvec ⊢
  rcases hcnt : c.writeIovcnt with _ | k
  · rw [hcnt] at hvec
    cases hvec
  · rw [hcnt, List.take_succ_cons, List.cons.injEq] at hvec
    exact ⟨_, by rw [List.take_succ_cons, hvec.1], hin, hslice⟩

/-- `writeFd` returns what `writev` returned. -/
theorem writeFdCount_count (b : Buffer) (vec : IoVec × IoVec) (sent left n : Int) :
    (b.writeFdCount vec sent left n).2.2 = n := by
  unfold Buffer.writeFdCount
  simp only
  split
  · rfl
  · split <;> rfl

theorem writeCount_nonneg (c : HttpConnection) {n : Nat} (eagain : Bool) :
    ∃ c', c.writeCount n eagain
        = some (c', if c'.bytesToSend ≤ 0 then .complete else .looping) ∧
      c'.bytesToSend = toInt32 (c.bytesToSend - n) ∧
      c'.bytesHaveSend = toInt32 (c.bytesHaveSend + n) ∧
      ∀ header, HeadFirst c header → HeadFirst c' header := by
  have hnonneg : ¬ (n : Int) < 0 := by omega
  exact ⟨_, if_neg hnonneg, rfl, rfl, fun _ h => h⟩

/-- The round of a `writev` that took `n` bytes. -/
theorem writeRound_accept {n : Nat} (hn : n < 2 ^ 31) :
    ∃ c', c.writeRound (.accept n)
        = some (c', if c'.bytesToSend ≤ 0 then .complete else .looping) ∧
      c'.bytesToSend = toInt32 (c.bytesToSend - n) ∧
      c'.bytesHaveSend = toInt32 (c.bytesHaveSend + n) ∧
      ∀ header, HeadFirst c header → HeadFirst c' header := by
  have hfd : c.outputBuffer.writeFd (.accept n) c.writeVec c.bytesHaveSend c.bytesToSend
      = c.outputBuffer.writeFdCount c.writeVec c.bytesHaveSend c.bytesToSend n := by
    show c.outputBuffer.writeFdCount c.writeVec c.bytesHaveSend c.bytesToSend (toInt32 n) = _
    rw [toInt32_natCast hn]
  unfold writeRound
  simp only [hfd, writeFdCount_count]
  obtain ⟨c', hc', hleft, hsent, hhead⟩ := writeCount_nonneg
    { c with
      outputBuffer := (c.outputBuffer.writeFdCount c.writeVec c.bytesHaveSend c.bytesToSend n).1
      writeVec := (c.outputBuffer.writeFdCount c.writeVec c.bytesHaveSend c.bytesToSend n).2.1 }
    (Writev.accept n = .error true)
  exact ⟨c', hc', hleft, hsent, fun header h =>
    hhead header (headFirst_writeFd h c.bytesHaveSend c.bytesToSend n)⟩

theorem unmap_eq_some {c' : HttpConnection} (h : c.unmap = some c') : c' = c := by
  unfold unmap at h
  split at h
  · cases h
  · exact (Option.some.inj h).symm

/-- A `writev` that fails leaves the iovecs and the counters. -/
theorem writeRound_error (c : HttpConnection) (eagain : Bool) :
    c.writeRound (.error eagain)
      = if eagain then some (c.enableWriting, .idle) else c.unmap.map fun c => (c, .idle) := by
  cases eagain <;> rfl

/-- Everything a step of `write` can do. -/
theorem writeStep_cases {l : WriteLabel} (ht : writeStep s l = some t) :
    (l = .call ∧ s.phase = .idle ∧ s.conn.bytesToSend = 0 ∧
        t = { s with conn := s.conn.enableReading.init }) ∨
    (l = .call ∧ s.phase = .idle ∧ s.conn.bytesToSend ≠ 0 ∧ t = { s with phase := .looping }) ∨
    (l = .writev (.error true) ∧ s.phase = .looping ∧
        t = { s with conn := s.conn.enableWriting, phase := .idle }) ∨
    (l = .writev (.error false) ∧ s.phase = .looping ∧ t = { s with phase := .idle }) ∨
    (∃ n bytes c phase, l = .writev (.accept n) ∧ s.phase = .looping ∧ 1 ≤ n ∧
        n ≤ s.conn.iovTotal ∧ s.conn.gather s.conn.iovecs n = some bytes ∧
        s.conn.writeRound (.accept n) = some (c, phase) ∧
        t = { conn := c, phase := phase, accepted := s.accepted ++ bytes }) ∨
    (l = .finish ∧ s.phase = .complete ∧
        t = { s with conn := s.conn.enableReading, phase := .idle }) := by
  obtain ⟨c, phase, accepted⟩ := s
  unfold writeStep at ht
  split at ht
  · -- a call of `write`: nothing to send, or the loop begins
    next hph =>
    split at ht
    · next hz => exact .inl ⟨rfl, hph, hz, (Option.some.inj ht).symm⟩
    · next hz => exact .inr (.inl ⟨rfl, hph, hz, (Option.some.inj ht).symm⟩)
  · -- `writev` returned -1: `EAGAIN` keeps the response, any other error unmaps the file
    next eagain hph =>
    rw [writeRound_error] at ht
    cases eagain with
    | true => exact .inr (.inr (.inl ⟨rfl, hph, (Option.some.inj ht).symm⟩))
    | false =>
        simp only [Bool.false_eq_true, if_false, Option.bind_eq_bind, Option.bind_eq_some_iff,
          Option.map_eq_some_iff] at ht
        obtain ⟨_, ⟨c', hc', rfl⟩, ht⟩ := ht
        cases unmap_eq_some hc'
        exact .inr (.inr (.inr (.inl ⟨rfl, hph, (Option.some.inj ht).symm⟩)))
  · -- `writev` took `n` bytes of what the iovecs hold
    next n hph =>
    split at ht
    · next hn =>
      simp only [Option.bind_eq_bind, Option.bind_eq_some_iff] at ht
      obtain ⟨bytes, hg, ⟨c', phase'⟩, hr, ht⟩ := ht
      exact .inr (.inr (.inr (.inr (.inl ⟨n, bytes, c', phase', rfl, hph, hn.1, hn.2, hg, hr,
        (Option.some.inj ht).symm⟩))))
    · cases ht
  · -- behind the loop
    next hph =>
    simp only [Option.bind_eq_bind, Option.bind_eq_some_iff] at ht
    obtain ⟨c', hc', ht⟩ := ht
    cases unmap_eq_some hc'
    exact .inr (.inr (.inr (.inr (.inr ⟨rfl, hph, (Option.some.inj ht).symm⟩))))
  · cases ht

/-- The first `writev` that takes bytes of a response. -/
theorem progress_accept {n : Nat} {bytes : List UInt8} {phase : WritePhase}
    (hs : Progress header body s) (hsize : header.length + body.length < 2 ^ 31)
    (hunsent : s.conn.bytesHaveSend = 0) (hphase : s.phase = .looping) (hpos : 1 ≤ n)
    (hn : n ≤ s.conn.iovTotal) (hbytes : s.conn.gather s.conn.iovecs n = some bytes)
    (hround : s.conn.writeRound (.accept n) = some (c, phase)) :
    Progress header body { conn := c, phase := phase, accepted := s.accepted ++ bytes } := by
  cases hs with
  -- a write behind a short one is excluded: what was sent is no longer 0
  | short _ k hk _ _ hsent _ _ => omega
  | whole hph _ _ => exact absurd hphase hph
  | fresh _ haccepted _ hleft hhead hholds =>
      -- the first write takes a front of the response
      obtain ⟨htotal, hgather⟩ := hholds
      have hlen : (header ++ body).length = header.length + body.length := List.length_append
      have hle : n ≤ (header ++ body).length := by omega
      have hn31 : n < 2 ^ 31 := by omega
      obtain ⟨c', hc', hleft', hsent', hhead'⟩ := writeRound_accept (c := s.conn) hn31
      rw [hround] at hc'
      cases hc'
      rw [hgather n hle] at hbytes
      cases hbytes
      rw [hleft, ← Int.natCast_sub hle, toInt32_natCast (by omega)] at hleft'
      rw [hunsent, Int.zero_add, toInt32_natCast hn31] at hsent'
      rcases Nat.lt_or_ge n (header ++ body).length with hlt | hge
      · -- a part of the response was taken: the loop goes on
        rw [if_neg (by omega)]
        refine .short (fun h => by cases h) n hpos hlt ?_ hsent' ?_ (hhead' header hhead)
        · rw [haccepted, List.nil_append]
        · rw [hleft', Int.natCast_sub hle]
      · -- everything was taken
        rw [if_pos (by omega)]
        refine .whole (fun h => by cases h) ?_ ?_
        · rw [haccepted, List.nil_append, List.take_of_length_le hge]
        · simp only
          omega

theorem gather_enableWriting (c : HttpConnection) (vs : List IoVec) (n : Nat) :
    c.enableWriting.gather vs n = c.gather vs n := by
  induction vs generalizing n with
  | nil => rfl
  | cons v vs ih => simp only [gather, ih]; rfl

theorem holds_enableWriting {response : List UInt8} (h : Holds c response) :
    Holds c.enableWriting response :=
  ⟨h.1, fun n hn => (gather_enableWriting c c.iovecs n).trans (h.2 n hn)⟩

/-- One step of `write` keeps the account of what was sent, if no `writev` follows a partial
one. -/
theorem progress_step {l : WriteLabel} (hheader : header ≠ [])
    (hsize : header.length + body.length < 2 ^ 31) (hs : Progress header body s)
    (hunsent : Unsent s l) (ht : writeStep s l = some t) : Progress header body t := by
  have hlen : (header ++ body).length = header.length + body.length := List.length_append
  have hpos : 0 < header.length := List.length_pos_iff.mpr hheader
  -- one case for each way a step can go, and in it one for each phase of the response
  rcases writeStep_cases ht with ⟨-, hph, hz, rfl⟩ | ⟨-, hph, hnz, rfl⟩ | ⟨-, hph, rfl⟩ |
    ⟨-, hph, rfl⟩ | ⟨n, bytes, c, phase, rfl, hph, hn, hle, hbytes, hround, rfl⟩ | ⟨-, hph, rfl⟩
  · -- called with nothing to send: the reset for the next request
    cases hs with
    | fresh _ _ _ hleft _ _ => omega
    | short _ n _ hlt _ _ hleft _ => omega
    | whole _ haccepted _ => exact .whole (by rw [hph]; decide) haccepted rfl
  · -- called with something to send
    cases hs with
    | fresh _ haccepted hsent hleft hhead hholds =>
        exact .fresh (fun h => by cases h) haccepted hsent hleft hhead hholds
    | short _ n hn hlt haccepted hsent hleft hhead =>
        exact .short (fun h => by cases h) n hn hlt haccepted hsent hleft hhead
    | whole _ _ hleft => exact absurd hleft hnz
  · -- the socket is full: `write` waits for the next event
    cases hs with
    | fresh _ haccepted hsent hleft hhead hholds =>
        exact .fresh (fun h => by cases h) haccepted hsent hleft hhead
          (holds_enableWriting hholds)
    | short _ n hn hlt haccepted hsent hleft hhead =>
        exact .short (fun h => by cases h) n hn hlt haccepted hsent hleft hhead
    | whole hnl _ _ => exact absurd hph hnl
  · -- the connection failed
    cases hs with
    | fresh _ haccepted hsent hleft hhead hholds =>
        exact .fresh (fun h => by cases h) haccepted hsent hleft hhead hholds
    | short _ n hn hlt haccepted hsent hleft hhead =>
        exact .short (fun h => by cases h) n hn hlt haccepted hsent hleft hhead
    | whole hnl _ _ => exact absurd hph hnl
  · -- the socket took bytes
    exact progress_accept hs hsize hunsent hph hn hle hbytes hround
  · -- `write` returns
    cases hs with
    | fresh hnc _ _ _ _ _ => exact absurd hph hnc
    | short hnc _ _ _ _ _ _ _ => exact absurd hph hnc
    | whole _ haccepted hleft => exact .whole (fun h => by cases h) haccepted hleft

end Round

/-! ## Whole responses -/

section Response

variable {c : HttpConnection} {header body : List UInt8} {s t : Sending}

theorem queued_progress (h : Queued c header body)
    (hsize : header.length + body.length < 2 ^ 31) :
    Progress header body { conn := c, phase := .idle, accepted := [] } := by
  obtain ⟨hhead, hholds, hsent, hleft⟩ := queued_spec h hsize
  exact .fresh (by simp) rfl hsent hleft hhead hholds

theorem Progress.accepted_prefix (h : Progress header body s) :
    s.accepted <+: header ++ body := by
  cases h with
  | fresh _ haccepted _ _ _ _ => rw [haccepted]; exact List.nil_prefix
  | short _ n _ _ haccepted _ _ _ => rw [haccepted]; exact List.take_prefix _ _
  | whole _ haccepted _ => rw [haccepted]

theorem Progress.complete (h : Progress header body s) (hheader : header ≠ [])
    (hleft : s.conn.bytesToSend ≤ 0) : s.accepted = header ++ body := by
  have hlen : (header ++ body).length = header.length + body.length := List.length_append
  have hpos : 0 < header.length := List.length_pos_iff.mpr hheader
  cases h with
  | fresh _ _ _ hl _ _ => omega
  | short _ n _ hlt _ _ hl _ => omega
  | whole _ haccepted _ => exact haccepted

/-- A first `writev` reads nothing but the response. -/
theorem Progress.accept_defined (h : Progress header body s)
    (hsize : header.length + body.length < 2 ^ 31) (hphase : s.phase = .looping)
    (hunsent : s.conn.bytesHaveSend = 0) {n : Nat} (hpos : 1 ≤ n)
    (hn : n ≤ s.conn.iovTotal) : (writeStep s (.writev (.accept n))).isSome := by
  have hlen : (header ++ body).length = header.length + body.length := List.length_append
  cases h with
  | short _ k hk _ _ hsent _ _ => omega
  | whole hnl _ _ => exact absurd hphase hnl
  | fresh _ _ _ _ _ hholds =>
      obtain ⟨htotal, hgather⟩ := hholds
      obtain ⟨c', hc', -⟩ := writeRound_accept (c := s.conn) (show n < 2 ^ 31 from by omega)
      simp only [writeStep, hphase, if_pos (And.intro hpos hn), hgather n (by omega), hc',
        Option.bind_eq_bind, Option.bind_some, Option.isSome_some]

/-- After a partial `writev` the next one starts with the header again. -/
theorem Progress.accept_again (h : Progress header body s) (hsent : s.conn.bytesHaveSend ≠ 0)
    {n : Nat} (ht : writeStep s (.writev (.accept n)) = some t) :
    1 ≤ n ∧ ∃ rest, t.accepted = s.accepted ++ (header.take n ++ rest) := by
  rcases writeStep_cases ht with ⟨hl, -⟩ | ⟨hl, -⟩ | ⟨hl, -⟩ | ⟨hl, -⟩ |
    ⟨m, bytes, c', phase, hl, hphase, hm, -, hbytes, -, rfl⟩ | ⟨hl, -⟩
  · cases hl
  · cases hl
  · cases hl
  · cases hl
  · cases hl
    cases h with
    | fresh _ _ hz _ _ _ => exact absurd hz hsent
    | whole hnl _ _ => exact absurd hphase hnl
    | short _ _ _ _ _ _ _ hhead =>
        obtain ⟨rest, hrest⟩ := gather_headFirst hhead hbytes
        exact ⟨hm, rest, by rw [hrest]⟩
  · cases hl

/-- **The response is sent in order until a partial `writev` is followed by another.** In a run
in which every `writev` that takes bytes is the first to do so, the socket has always taken a
prefix of header and body, all of it when no bytes are left to send, and no `writev` reads
anything else. The next `writev` after a partial one sends the header again: its first byte
follows the bytes taken so far. -/
theorem sent_in_order (hqueued : Queued c header body)
    (hsize : header.length + body.length < 2 ^ 31) {ls : List WriteLabel}
    (hunsent : Along writeStep Unsent { conn := c, phase := .idle, accepted := [] } ls)
    (hrun : exec writeStep { conn := c, phase := .idle, accepted := [] } ls = some s) :
    s.accepted <+: header ++ body ∧
      (s.conn.bytesToSend ≤ 0 → s.accepted = header ++ body) ∧
      (s.phase = .looping → s.conn.bytesHaveSend = 0 → ∀ n, 1 ≤ n → n ≤ s.conn.iovTotal →
        (writeStep s (.writev (.accept n))).isSome) ∧
      (s.conn.bytesHaveSend ≠ 0 → ∀ n t, writeStep s (.writev (.accept n)) = some t →
        t.accepted[s.accepted.length]? = header.head?) := by
  have hheader : header ≠ [] := by
    obtain ⟨-, -, -, hne, -⟩ := hqueued
    exact hne
  have hs : Progress header body s :=
    exec_along (I := fun _ u => Progress header body u) (queued_progress hqueued hsize)
      (fun _ _ _ _ _ hu hl hv => progress_step hheader hsize hu hl hv) hrun hunsent
  refine ⟨hs.accepted_prefix, hs.complete hheader, fun hphase hz n hpos hn =>
    hs.accept_defined hsize hphase hz hpos hn, fun hnz n t ht => ?_⟩
  obtain ⟨hpos, rest, hrest⟩ := hs.accept_again hnz ht
  obtain ⟨x, xs, rfl⟩ := List.exists_cons_of_ne_nil hheader
  obtain ⟨m, rfl⟩ : ∃ m, n = m + 1 := ⟨n - 1, by omega⟩
  rw [hrest, List.getElem?_append_right (Nat.le_refl _), Nat.sub_self]
  rfl

/-- A connection with a header of two bytes and a file of three. -/
def sample : HttpConnection :=
  queueFile { zeroed with
    outputBuffer := { buffer := [0, 0, 0, 0, 0, 0, 0, 0, 72, 84], readerIndex := 8,
                      writerIndex := 10 }
    fileStat := { st_mode := S_IROTH, st_size := 3 }
    fileAddress := [1, 2, 3] }

theorem sample_queued : Queued sample [72, 84] [1, 2, 3] :=
  ⟨_, by decide, by decide, by decide, rfl, .inr ⟨by decide, rfl, rfl, rfl⟩⟩

/-- A full socket, then a single `writev` that takes the whole response. -/
theorem sent_in_order_sample :
    ∃ s, exec writeStep { conn := sample, phase := .idle, accepted := [] }
        [.call, .writev (.error true), .call, .writev (.accept 5)] = some s ∧
      s.accepted = [72, 84, 1, 2, 3] := by
  have hunsent : Along writeStep Unsent { conn := sample, phase := .idle, accepted := [] }
      [.call, .writev (.error true), .call, .writev (.accept 5)] := by
    refine (along_cons rfl).mpr ⟨trivial, ?_⟩
    refine (along_cons rfl).mpr ⟨trivial, ?_⟩
    refine (along_cons rfl).mpr ⟨trivial, ?_⟩
    exact ⟨rfl, fun _ _ => trivial⟩
  have hleft : (exec writeStep { conn := sample, phase := .idle, accepted := [] }
      [.call, .writev (.error true), .call, .writev (.accept 5)]).map
        (fun s => s.conn.bytesToSend) = some 0 := by decide
  obtain ⟨s, hs, hz⟩ := Option.map_eq_some_iff.mp hleft
  exact ⟨s, hs, (sent_in_order sample_queued (by decide) hunsent hs).2.1 (Int.le_of_eq hz)⟩

/-- One byte of the header is taken, and the next `writev` sends it once more. -/
theorem sent_twice_after_partial_writev :
    ∃ s, Queued sample [72, 84] [1, 2, 3] ∧
      exec writeStep { conn := sample, phase := .idle, accepted := [] }
        [.call, .writev (.accept 1), .writev (.accept 2)] = some s ∧
      s.accepted = [72, 72, 84] ∧ ¬ s.accepted <+: [72, 84] ++ [1, 2, 3] := by
  have haccepted : (exec writeStep { conn := sample, phase := .idle, accepted := [] }
      [.call, .writev (.accept 1), .writev (.accept 2)]).map (fun s => s.accepted)
        = some [72, 72, 84] := by decide
  obtain ⟨s, hs, ha⟩ := Option.map_eq_some_iff.mp haccepted
  exact ⟨s, sample_queued, hs, ha, by rw [ha]; decide⟩

end Response

end HttpWebserver.HttpConnection
