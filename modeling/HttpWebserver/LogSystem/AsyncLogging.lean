import HttpWebserver.LogSystem.LogStream
import HttpWebserver.Lib.Machine

/-!
# LogSystem — the asynchronous logger

The model of `LogSystem/AsyncLogging.{h,cc}` as a step relation: threads that append lines, the
back-end thread in `threadFunc`, and the thread that calls `start` and `stop`.

* Buffers live in a heap and a `BufferPtr` is an index into it or null; moves, swaps and copies
  of the shared pointers are written out as the source has them.
* `append` and the critical section of the back end are single steps, as they hold `mutex_`.
  While the back end is in `wait_for` the mutex is free, and its next step is the return of
  `wait_for`, for whichever reason.
* `none` means that the thread cannot take this step, or that the step would dereference a
  null pointer or fail an assertion.
* The log file is the list of the bytes given to `LogFile::append`.
-/

namespace HttpWebserver.LogSystem

abbrev Buffer := FixedBuffer kLargeBuffer

abbrev BufferHeap := List Buffer

/-- `std::shared_ptr<Buffer>`. -/
abbrev BufferPtr := Option Nat

/-- `newElement<Buffer>()`. -/
def newBuffer (h : BufferHeap) : BufferPtr × BufferHeap := (some h.length, h ++ [FixedBuffer.new])

def deref (h : BufferHeap) (p : BufferPtr) : Option Buffer := p.bind fun a => h[a]?

/-- A call of a member function that changes the buffer behind `p`. -/
def modify (h : BufferHeap) (p : BufferPtr) (f : Buffer → Buffer) : Option BufferHeap :=
  p.bind fun a => h[a]?.map fun b => h.set a (f b)

/-- A log line of a front end, shorter than a buffer. -/
structure Line where
  bytes : List UInt8
  short : bytes.length < kLargeBuffer

structure AsyncLogging where
  running : Bool
  currentBuffer : BufferPtr
  nextBuffer : BufferPtr
  buffers : List BufferPtr
  heap : BufferHeap

namespace AsyncLogging

/-- The constructor. -/
def new : AsyncLogging :=
  let (current, heap) := newBuffer []
  let (next, heap) := newBuffer heap
  { running := false, currentBuffer := current, nextBuffer := next, buffers := [], heap := heap }

/-- The branch of `append` for a full buffer, up to the second call of `FixedBuffer::append`. -/
def roll (a : AsyncLogging) : AsyncLogging :=
  let a := { a with buffers := a.buffers ++ [a.currentBuffer], currentBuffer := none }
  match a.nextBuffer with
  | some _ => { a with currentBuffer := a.nextBuffer, nextBuffer := none }
  | none =>
    let (p, heap) := newBuffer a.heap
    { a with currentBuffer := p, heap := heap }

/-- `append`. The notification is not modelled: `wait_for` may return at any time. -/
def append (a : AsyncLogging) (logline : List UInt8) : Option AsyncLogging := do
  let b ← deref a.heap a.currentBuffer
  let a := if logline.length < b.avail then a else a.roll
  let heap ← modify a.heap a.currentBuffer fun b => b.append logline
  some { a with heap := heap }

end AsyncLogging

/-- The local variables of `threadFunc`, and the content of the file behind `output`. -/
structure Locals where
  newBuffer1 : BufferPtr
  newBuffer2 : BufferPtr
  buffersToWrite : List BufferPtr
  output : List UInt8

/-- Where the back-end thread is. -/
inductive Position where
  | unstarted
  /-- At the assertion that starts `threadFunc`. -/
  | spawned
  /-- Behind `latch_.countDown()`, with no locals yet. -/
  | opening
  /-- At `while (running_)`. -/
  | test
  /-- At the top of an iteration. -/
  | locking
  /-- In `cond_.wait_for`. -/
  | waiting
  /-- Behind the critical section. -/
  | trimming
  /-- At the buffer with the given index. -/
  | writing (i : Nat)
  | exiting
  | finished
deriving DecidableEq, Repr

/-- Where the call of `stop` is. -/
inductive StopCall where
  | idle | called | cleared | notified | returned
deriving DecidableEq, Repr

structure LogState where
  logging : AsyncLogging
  locals : Locals
  position : Position
  stop : StopCall

inductive Label where
  | append (line : Line)
  | start
  | backEnd
  | stop

namespace LogState

def new : LogState where
  logging := AsyncLogging.new
  locals := { newBuffer1 := none, newBuffer2 := none, buffersToWrite := [], output := [] }
  position := .unstarted
  stop := .idle

/-- `LogFile output(..)` and the two buffers. -/
def openLog (s : LogState) : LogState :=
  let (p, heap) := newBuffer s.logging.heap
  let (q, heap) := newBuffer heap
  { s with logging := { s.logging with heap := heap }
           locals := { newBuffer1 := p, newBuffer2 := q, buffersToWrite := [], output := [] }
           position := .test }

def isEmptyBuffer (s : LogState) (p : BufferPtr) : Bool :=
  (deref s.logging.heap p).any fun b => b.length == 0

/-- The critical section from `push_back` on, and the assertion behind it. -/
def swapBuffers (s : LogState) : Option LogState :=
  let a := s.logging
  let l := s.locals
  let queue := a.buffers ++ [a.currentBuffer]
  if queue = [] then none
  else some { s with
    logging := { a with currentBuffer := l.newBuffer1
                        buffers := l.buffersToWrite
                        nextBuffer := if a.nextBuffer = none then l.newBuffer2 else a.nextBuffer }
    locals := { l with newBuffer1 := none
                       newBuffer2 := if a.nextBuffer = none then none else l.newBuffer2
                       buffersToWrite := queue }
    position := .trimming }

/-- The critical section up to `wait_for`. -/
def lockBuffers (s : LogState) : Option LogState :=
  if s.isEmptyBuffer s.locals.newBuffer1 ∧ s.isEmptyBuffer s.locals.newBuffer2 ∧
      s.locals.buffersToWrite = [] then
    if s.logging.buffers = [] then some { s with position := .waiting } else s.swapBuffers
  else none

/-- More than 25 buffers: all but the first two go. -/
def keepBatch {α : Type} (batch : List α) : List α :=
  if 25 < batch.length then batch.take 2 else batch

def trimBuffers (s : LogState) : LogState :=
  { s with locals := { s.locals with buffersToWrite := keepBatch s.locals.buffersToWrite }
           position := .writing 0 }

def writeBuffer (s : LogState) (i : Nat) (p : BufferPtr) : Option LogState := do
  let b ← deref s.logging.heap p
  some { s with locals := { s.locals with output := s.locals.output ++ b.data }
                position := .writing (i + 1) }

/-- `if (!newBufferN)`: the last buffer written is taken back and reset. -/
def refill (p : BufferPtr) (written : List BufferPtr) (h : BufferHeap) :
    Option (BufferPtr × List BufferPtr × BufferHeap) :=
  match p with
  | some _ => some (p, written, h)
  | none => do
    let q ← written.getLast?
    let h ← modify h q FixedBuffer.reset
    some (q, written.dropLast, h)

/-- From the end of the write loop to the end of the iteration. -/
def recycle (s : LogState) : Option LogState := do
  let l := s.locals
  let written := if 2 < l.buffersToWrite.length then l.buffersToWrite.take 2 else l.buffersToWrite
  let (p, written, heap) ← refill l.newBuffer1 written s.logging.heap
  let (q, _, heap) ← refill l.newBuffer2 written heap
  some { s with logging := { s.logging with heap := heap }
                locals := { l with newBuffer1 := p, newBuffer2 := q, buffersToWrite := [] }
                position := .test }

/-- The next step of the back-end thread. -/
def backEndStep (s : LogState) : Option LogState :=
  match s.position with
  | .unstarted => none
  | .spawned => if s.logging.running then some { s with position := .opening } else none
  | .opening => some s.openLog
  | .test => some { s with position := if s.logging.running then .locking else .exiting }
  | .locking => s.lockBuffers
  | .waiting => s.swapBuffers
  | .trimming => some s.trimBuffers
  | .writing i =>
    match s.locals.buffersToWrite[i]? with
    | some p => s.writeBuffer i p
    | none => s.recycle
  | .exiting => some { s with position := .finished }
  | .finished => none

/-- `start` has returned from `latch_.wait()`. -/
def Latched (s : LogState) : Prop := s.position ≠ .unstarted ∧ s.position ≠ .spawned

instance (s : LogState) : Decidable s.Latched := inferInstanceAs (Decidable (_ ∧ _))

/-- The next step of `stop`, which is called once, after `start` has returned. -/
def stopStep (s : LogState) : Option LogState :=
  match s.stop with
  | .idle => if s.Latched then some { s with stop := .called } else none
  | .called => some { s with logging := { s.logging with running := false }, stop := .cleared }
  | .cleared => some { s with stop := .notified }
  | .notified => if s.position = .finished then some { s with stop := .returned } else none
  | .returned => none

def step (s : LogState) : Label → Option LogState
  | .append line => (s.logging.append line.bytes).map fun a => { s with logging := a }
  | .start =>
    if s.position = .unstarted then
      some { s with logging := { s.logging with running := true }, position := .spawned }
    else none
  | .backEnd => s.backEndStep
  | .stop => s.stopStep

/-! ## What is where

The bytes that a state holds, in its buffers and in the file, and what the labels of a run have
appended and swapped out. -/

/-- The bytes of the buffers behind a list of pointers. -/
def contents (h : BufferHeap) (ps : List BufferPtr) : List UInt8 :=
  ps.flatMap fun p => (deref h p).elim [] FixedBuffer.data

/-- The buffers of the current batch that are still to be written. -/
def unwritten (s : LogState) : List BufferPtr :=
  match s.position with
  | .trimming => keepBatch s.locals.buffersToWrite
  | .writing i => s.locals.buffersToWrite.drop i
  | _ => []

/-- The back end is in an iteration that has not reached the swap. -/
def BeforeSwap (s : LogState) : Prop := s.position = .locking ∨ s.position = .waiting

/-- The batch that a step swaps out: the content of each of its buffers. -/
def swapped (s : LogState) : Label → List (List (List UInt8))
  | .backEnd =>
    if s.position = .waiting ∨ (s.position = .locking ∧ s.logging.buffers ≠ []) then
      [(s.logging.buffers ++ [s.logging.currentBuffer]).map fun p => contents s.logging.heap [p]]
    else []
  | _ => []

/-- The batches of a run. -/
def batches (ls : List Label) : List (List (List UInt8)) := Machine.emitted step swapped new ls

/-- The lines of a run, in the order in which their appends held the mutex. -/
def appended : List Label → List (List UInt8) :=
  List.filterMap fun
    | .append line => some line.bytes
    | _ => none

end LogState

end HttpWebserver.LogSystem
