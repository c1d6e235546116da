import HttpWebserver.LogSystem.DoubleBuffer

/-!
# LogSystem — the assertions of the back end

`threadFunc` asserts that its two new buffers are there and empty at the top of an iteration, that
it has a batch behind the swap, and that a buffer of the batch is left for each of the two refills.
The second refill rests on a relation between the two threads: a next buffer that is gone has left
a full buffer in the queue, so the batch that is swapped out then has two.

The runs here append lines of any length. One that no buffer takes still makes the front end queue
its current buffer.

* `append_represents_any`: an append of any line keeps the double buffering;
* `AssertsHold`, `OwnObjects`: the assertions, and whose each buffer is;
* **`assertions_never_fail`** — both, in every state of every run.
-/

namespace HttpWebserver.LogSystem

open Machine

/-- A step of a run: an append of a line of any length, or another step of the threads. -/
inductive LogStep where
  | append (logline : List UInt8)
  | other (label : Label)

namespace LogState

def take (s : LogState) : LogStep → Option LogState
  | .append logline => (s.logging.append logline).map fun a => { s with logging := a }
  | .other label => s.step label

end LogState

/-! ## Lines of any length

A line that is too long for an empty buffer is dropped by `FixedBuffer::append`, and the
invariants hold as before. -/

section Lines

variable {a : AsyncLogging} {s s' : LogState} {p : Pipeline (List UInt8)} {rest : List BufferPtr}

/-- A line that no buffer takes leaves the empty buffer that is now current. -/
theorem append_dropped (hf : FrontEnd a p) (ho : Owned a.heap (front a ++ rest))
    {logline : List UInt8} (hlong : kLargeBuffer ≤ logline.length) :
    ∃ a', a.append logline = some a' ∧ FrontEnd a' p.roll ∧ Owned a'.heap (front a' ++ rest) ∧
      Keeps a.heap a'.heap rest ∧ a'.running = a.running := by
  obtain ⟨b, hb, -⟩ := hf.current
  have hroom : ∀ b : Buffer, ¬ logline.length < b.avail := fun b => by
    have havail : b.avail ≤ kLargeBuffer := Nat.sub_le _ _
    omega
  obtain ⟨hroll, horoll, hkroll, hrun⟩ := roll_spec hf ho
  obtain ⟨b', hb', -⟩ := hroll.current
  obtain ⟨heap, hmodify, hself, hkeeps, ho'⟩ := horoll.modify hb' fun b => b.append logline
  have hdrop : b'.append logline = b' := dif_neg (hroom b')
  -- so the write changes no buffer at all
  have hall : Keeps a.roll.heap heap (front a.roll ++ rest) := by
    intro q hq c hc
    rcases List.mem_cons.mp hq with rfl | hq
    · rw [hself, hdrop, ← hb', hc]
    · exact hkeeps q hq c hc
  refine ⟨{ a.roll with heap := heap }, ?_, ?_, ho', ?_, hrun⟩
  · simp only [AsyncLogging.append, hb, if_neg (hroom b), hmodify, Option.bind_eq_bind,
      Option.bind_some]
  · exact hroll.keeps (hall.mono fun q hq => List.mem_append_left _ hq)
  · exact hkroll.trans (hall.mono fun q hq => List.mem_append_right _ hq)

theorem append_represents_any (hr : Represents s p) (logline : List UInt8) :
    ∃ s' p', s.take (.append logline) = some s' ∧ Represents s' p' := by
  by_cases hshort : logline.length < kLargeBuffer
  · obtain ⟨s', p', hs', hr', -⟩ := append_represents hr ⟨logline, hshort⟩
    exact ⟨s', p', hs', hr'⟩
  · obtain ⟨a', happend, hf, ho, hkeeps, hrun⟩ :=
      append_dropped hr.frontEnd hr.owned (Nat.not_lt.mp hshort)
    refine ⟨{ s with logging := a' }, p.roll, ?_, ho, hf, hr.backEnd.keeps hkeeps, ?_, hr.latched⟩
    · simp only [LogState.take, happend, Option.map_some]
    · intro hpos
      exact hrun.trans (hr.spawned hpos)

theorem take_represents (hr : Represents s p) {l : LogStep} (hs : s.take l = some s') :
    ∃ p', Represents s' p' := by
  cases l with
  | append logline =>
      obtain ⟨t, p', ht, hr'⟩ := append_represents_any hr logline
      cases Option.some.inj (hs.symm.trans ht)
      exact ⟨p', hr'⟩
  | other label =>
      obtain ⟨p', hr', -⟩ := step_represents hr hs
      exact ⟨p', hr'⟩

theorem take_run_represents {ls : List LogStep}
    (hrun : exec LogState.take LogState.new ls = some s) : ∃ p, Represents s p :=
  exec_invariant (I := fun s => ∃ p, Represents s p)
    (fun _ _ _ ⟨_, hr⟩ hs => take_represents hr hs) ⟨_, new_represents⟩ hrun

end Lines

/-! ## The assertions

Each assertion of the loop is about the two spare buffers or about the size of the batch. They
follow from what the pipeline says about the pointers. -/

/-- Each refill that is needed finds a buffer: the first one in what is left of the batch, the
second one in what the first has left of it. -/
def CanRefill (s : LogState) : Prop :=
  (s.locals.newBuffer1 = none → s.resized ≠ []) ∧
    ∀ q written heap,
      LogState.refill s.locals.newBuffer1 s.resized s.logging.heap = some (q, written, heap) →
      s.locals.newBuffer2 = none → written ≠ []

/-- The assertions of an iteration, each at its place in the loop. -/
structure AssertsHold (s : LogState) : Prop where
  top : s.position = .locking →
    s.isEmptyBuffer s.locals.newBuffer1 ∧ s.isEmptyBuffer s.locals.newBuffer2 ∧
      s.locals.buffersToWrite = []
  swapped : s.position = .trimming → s.locals.buffersToWrite ≠ []
  refills : ∀ i, s.position = .writing i → s.locals.buffersToWrite[i]? = none → CanRefill s

/-- Whose each buffer is. -/
structure OwnObjects (s : LogState) : Prop where
  /-- All pointers of the two threads that are set are to distinct buffers. -/
  objects : Owned s.logging.heap (front s.logging ++ back s.locals)
  current : s.logging.currentBuffer ≠ none
  queue : ∀ p ∈ s.logging.buffers, p ≠ none
  batch : ∀ p ∈ s.locals.buffersToWrite, p ≠ none
  /-- The front end has no buffer of the back end, so none that was recycled. -/
  apart : ∀ p ∈ back s.locals, p ≠ none → p ∉ front s.logging

section Asserts

variable {s : LogState} {p : Pipeline (List UInt8)}

theorem Represents.canRefill (hr : Represents s p) {i : Nat} (hpos : s.position = .writing i) :
    CanRefill s := by
  have hb := hr.backEnd
  rw [hpos] at hb
  obtain ⟨_, _, -, hw, -⟩ := hb
  have hlen := s.resized_length
  have hne := List.length_pos_of_ne_nil hw.nonempty
  refine ⟨fun _ => List.ne_nil_of_length_pos (by omega), fun q written heap hrefill hnone => ?_⟩
  have htwo : 2 ≤ s.locals.buffersToWrite.length := by
    rcases hw.newBuffer2 with hspare | ⟨-, htwo⟩
    · exact absurd hnone hspare.ne_none
    · exact htwo
  -- the first refill takes one buffer of the two
  rw [hw.newBuffer1] at hrefill
  simp only [LogState.refill, Option.bind_eq_bind, Option.bind_eq_some_iff, Option.some.injEq,
    Prod.mk.injEq] at hrefill
  obtain ⟨-, -, -, -, -, rfl, -⟩ := hrefill
  refine List.ne_nil_of_length_pos ?_
  rw [List.length_dropLast]
  omega

theorem Represents.assertsHold (hr : Represents s p) : AssertsHold s := by
  have hb := hr.backEnd
  refine ⟨fun hpos => ?_, fun hpos => ?_, fun i hpos _ => hr.canRefill hpos⟩
  · exact hr.top_asserts hpos
  · rw [hpos] at hb
    obtain ⟨_, _, _, hw, -⟩ := hb
    exact hw.nonempty

theorem Represents.batch_ne_none (hr : Represents s p) :
    ∀ q ∈ s.locals.buffersToWrite, q ≠ none := by
  have hb := hr.backEnd
  by_cases htrim : s.position = .trimming
  · rw [htrim] at hb
    obtain ⟨_, _, _, hw, -⟩ := hb
    exact holds_ne_none hw.batch
  · by_cases hwrite : ∃ i, s.position = .writing i
    · obtain ⟨i, hpos⟩ := hwrite
      rw [hpos] at hb
      obtain ⟨_, _, _, hw, -⟩ := hb
      exact holds_ne_none hw.batch
    · intro q hq
      rw [(hr.idle htrim (not_exists.mp hwrite)).1] at hq
      cases hq

theorem Represents.ownObjects (hr : Represents s p) : OwnObjects s where
  objects := hr.owned
  current := hr.frontEnd.current.ne_none
  queue := holds_ne_none hr.frontEnd.queue
  batch := hr.batch_ne_none
  apart := fun q hq hset hfront =>
    hset ((List.pairwise_append.mp hr.owned.distinct).2.2 q hfront q hq rfl)

end Asserts

/-- **The assertions of `threadFunc` hold.** In every state of every run, with appends of any lines
by any threads between any two steps of the back end and with batches of any size: the assertions
hold at their places, all buffers in use are distinct objects, none of the back end's is in the
front end, and the running back end can always take its next step. -/
theorem assertions_never_fail {ls : List LogStep} {s : LogState}
    (hrun : exec LogState.take LogState.new ls = some s) :
    AssertsHold s ∧ OwnObjects s ∧
      (s.position ≠ .unstarted → s.position ≠ .finished →
        ∃ s', s.take (.other .backEnd) = some s') := by
  obtain ⟨p, hr⟩ := take_run_represents hrun
  refine ⟨hr.assertsHold, hr.ownObjects, fun hstart hfinish => ?_⟩
  obtain ⟨s', -, hs', -⟩ := backEnd_represents hr hstart hfinish
  exact ⟨s', hs'⟩

/-- A line, and the back end up to the state behind its first swap. -/
def swapSteps : List LogStep :=
  .append [97, 10] :: .other .start :: List.replicate 5 (.other .backEnd)

theorem assertions_never_fail_sample :
    ∃ s, exec LogState.take LogState.new swapSteps = some s ∧ s.position = .trimming ∧
      AssertsHold s ∧ OwnObjects s ∧
      (s.position ≠ .unstarted → s.position ≠ .finished →
        ∃ s', s.take (.other .backEnd) = some s') :=
  ⟨_, rfl, rfl, @assertions_never_fail swapSteps _ rfl⟩

end HttpWebserver.LogSystem
