import HttpWebserver.LogSystem.AsyncLogging
import HttpWebserver.Lib.Pipeline
import Mathlib.Data.List.Forall2

/-!
# LogSystem — the double buffering is a pipeline

The buffers of the two threads hold the blocks of a `Pipeline` of lines: `currentBuffer_` the
current block, `buffers_` the queue, and `buffersToWrite` the last batch.

* `Owned`: no two of the pointers are to one buffer, so a write through one of them is seen by
  no other;
* `FrontEnd`, `BackEnd`, `Represents`: which pointer holds which block, at each position of the
  back end;
* `append_represents`, `backEnd_represents`: one lemma for each step of the two threads. Each
  says that the step is possible and what it does to the pipeline;
* **`log_in_order`** — in every state of every run, what became of the lines appended so far.
-/

namespace HttpWebserver.LogSystem

open Machine
open LogState (contents keepBatch)

/-! ## The heap of buffers

The pointers of the logger are `std::shared_ptr`s, moved and swapped. `Owned` says that no two of
them are to one buffer, and `Keeps` is the frame of a write through another pointer. -/

section Heap

variable {h h' : BufferHeap} {p q : BufferPtr} {b : Buffer} {ps qs : List BufferPtr}

theorem deref_newBuffer (h : BufferHeap) :
    deref (newBuffer h).2 (newBuffer h).1 = some FixedBuffer.new := by
  simp [deref, newBuffer]

theorem deref_some (hb : deref h p = some b) : ∃ a, p = some a ∧ a < h.length ∧ h[a]? = some b := by
  cases p with
  | none => cases hb
  | some a => exact ⟨a, rfl, (List.getElem?_eq_some_iff.mp hb).1, hb⟩

/-- The buffers behind `ps` stay. -/
def Keeps (h h' : BufferHeap) (ps : List BufferPtr) : Prop :=
  ∀ p ∈ ps, ∀ b, deref h p = some b → deref h' p = some b

theorem keeps_newBuffer (h : BufferHeap) (ps : List BufferPtr) : Keeps h (newBuffer h).2 ps := by
  intro p _ b hb
  obtain ⟨a, rfl, ha, hab⟩ := deref_some hb
  show (h ++ [FixedBuffer.new])[a]? = some b
  rw [List.getElem?_append_left ha]
  exact hab

theorem Keeps.trans {h'' : BufferHeap} (hk : Keeps h h' ps) (hk' : Keeps h' h'' ps) :
    Keeps h h'' ps := fun p hp b hb => hk' p hp b (hk p hp b hb)

theorem Keeps.mono (hk : Keeps h h' ps) (hsub : ∀ p ∈ qs, p ∈ ps) : Keeps h h' qs :=
  fun p hp => hk p (hsub p hp)

/-- The pointers are to distinct buffers of the heap, except for the null ones. -/
structure Owned (h : BufferHeap) (ps : List BufferPtr) : Prop where
  distinct : ps.Pairwise fun p q => p = q → p = none
  allocated : ∀ p ∈ ps, p = none ∨ ∃ b, deref h p = some b

theorem Owned.perm (ho : Owned h ps) (hperm : ps.Perm qs) : Owned h qs := by
  refine ⟨hperm.pairwise ho.distinct ?_, fun p hp => ho.allocated p (hperm.mem_iff.mpr hp)⟩
  exact fun {p q} hpq hqp => hqp ▸ hpq hqp.symm

theorem Owned.sublist (ho : Owned h ps) (hsub : qs.Sublist ps) : Owned h qs :=
  ⟨ho.distinct.sublist hsub, fun p hp => ho.allocated p (hsub.subset hp)⟩

theorem owned_none : Owned h (none :: ps) ↔ Owned h ps := by
  constructor
  · exact fun ho => ho.sublist (List.sublist_cons_self none ps)
  · intro ho
    refine ⟨List.pairwise_cons.mpr ⟨fun _ _ _ => rfl, ho.distinct⟩, fun p hp => ?_⟩
    rcases List.mem_cons.mp hp with rfl | hp
    · exact .inl rfl
    · exact ho.allocated p hp

theorem Owned.keeps (ho : Owned h ps) (hk : Keeps h h' ps) : Owned h' ps :=
  ⟨ho.distinct, fun p hp => (ho.allocated p hp).imp id fun ⟨b, hb⟩ => ⟨b, hk p hp b hb⟩⟩

theorem Owned.newBuffer (ho : Owned h ps) :
    Owned (newBuffer h).2 ((newBuffer h).1 :: ps) := by
  have ho' := ho.keeps (keeps_newBuffer h ps)
  refine ⟨List.pairwise_cons.mpr ⟨fun p hp heq => ?_, ho.distinct⟩, fun p hp => ?_⟩
  · -- the new buffer is behind all others
    rcases ho.allocated p hp with rfl | ⟨b, hb⟩
    · exact heq
    · obtain ⟨a, rfl, ha, -⟩ := deref_some hb
      have hlen : h.length = a := Option.some.inj heq
      omega
  · rcases List.mem_cons.mp hp with rfl | hp
    · exact .inr ⟨_, deref_newBuffer h⟩
    · exact ho'.allocated p hp

/-- A write through one of the pointers. -/
theorem Owned.modify (ho : Owned h (p :: ps)) (hb : deref h p = some b) (f : Buffer → Buffer) :
    ∃ h', modify h p f = some h' ∧ deref h' p = some (f b) ∧ Keeps h h' ps ∧
      Owned h' (p :: ps) := by
  obtain ⟨a, rfl, ha, hab⟩ := deref_some hb
  have hself : deref (h.set a (f b)) (some a) = some (f b) := List.getElem?_set_self ha
  have hkeeps : Keeps h (h.set a (f b)) ps := by
    intro q hq c hc
    obtain ⟨a', rfl, -, hac⟩ := deref_some hc
    have hne : a ≠ a' := by
      rintro rfl
      cases (List.pairwise_cons.mp ho.distinct).1 (some a) hq rfl
    show (h.set a (f b))[a']? = some c
    rw [List.getElem?_set_ne hne]
    exact hac
  refine ⟨h.set a (f b), ?_, hself, hkeeps, ho.distinct, fun q hq => ?_⟩
  · simp only [LogSystem.modify, Option.bind_some, hab, Option.map_some]
  · rcases List.mem_cons.mp hq with rfl | hq
    · exact .inr ⟨_, hself⟩
    · exact (ho.allocated q (List.mem_cons_of_mem _ hq)).imp id fun ⟨c, hc⟩ => ⟨c, hkeeps q hq c hc⟩

end Heap

/-! ## Blocks -/

/-- A block of lines, and the lines themselves, as bytes. -/
abbrev Block := List (List UInt8)

/-- The buffer behind `p` holds the block. -/
def Holds (h : BufferHeap) (p : BufferPtr) (block : Block) : Prop :=
  ∃ b, deref h p = some b ∧ b.data = block.flatten

section Blocks

variable {h h' : BufferHeap} {p : BufferPtr} {block : Block} {ps : List BufferPtr}
  {blocks : List Block}

theorem Holds.keeps (hp : Holds h p block) (hk : Keeps h h' ps) (hmem : p ∈ ps) :
    Holds h' p block := by
  obtain ⟨b, hb, hdata⟩ := hp
  exact ⟨b, hk p hmem b hb, hdata⟩

theorem holds_newBuffer (h : BufferHeap) : Holds (newBuffer h).2 (newBuffer h).1 [] :=
  ⟨_, deref_newBuffer h, rfl⟩

theorem Holds.ne_none (hp : Holds h p block) : p ≠ none := by
  rintro rfl
  obtain ⟨b, hb, -⟩ := hp
  cases hb

theorem holds_keeps_all (hps : List.Forall₂ (Holds h) ps blocks) (hk : Keeps h h' ps) :
    List.Forall₂ (Holds h') ps blocks := by
  induction hps with
  | nil => exact .nil
  | cons hp _ ih =>
      exact .cons (hp.keeps hk List.mem_cons_self)
        (ih (hk.mono fun q hq => List.mem_cons_of_mem _ hq))

theorem holds_ne_none (hps : List.Forall₂ (Holds h) ps blocks) : ∀ q ∈ ps, q ≠ none := by
  intro q hq
  obtain ⟨n, hn, rfl⟩ := List.getElem_of_mem hq
  exact (hps.get hn (by rw [← hps.length_eq]; exact hn)).ne_none

theorem contents_map (hps : List.Forall₂ (Holds h) ps blocks) :
    ps.map (fun p => contents h [p]) = blocks.map List.flatten := by
  induction hps with
  | nil => rfl
  | cons hp _ ih =>
      obtain ⟨b, hb, hdata⟩ := hp
      simp [contents, hb, hdata] at ih ⊢
      exact ih

theorem contents_flatten (hps : List.Forall₂ (Holds h) ps blocks) :
    contents h ps = blocks.flatten.flatten := by
  induction hps with
  | nil => rfl
  | cons hp _ ih =>
      obtain ⟨b, hb, hdata⟩ := hp
      rw [List.flatten_cons, List.flatten_append, ← ih, ← hdata]
      simp [contents, hb]

end Blocks

/-! ## The two ends

What each pointer holds: those of the front end at any time, those of the back end by its place in
the iteration. Both are related to a pipeline of blocks, whose input, queue and batches are plain
lists. -/

def front (a : AsyncLogging) : List BufferPtr := a.currentBuffer :: a.nextBuffer :: a.buffers

def back (l : Locals) : List BufferPtr := l.newBuffer1 :: l.newBuffer2 :: l.buffersToWrite

structure FrontEnd (a : AsyncLogging) (p : Pipeline (List UInt8)) : Prop where
  current : Holds a.heap a.currentBuffer p.current
  queue : List.Forall₂ (Holds a.heap) a.buffers p.queue
  /-- The next buffer is taken only when a full one has been queued. -/
  next : Holds a.heap a.nextBuffer [] ∨ (a.nextBuffer = none ∧ a.buffers ≠ [])

/-- The lines that go to the file. -/
def written (batches : List (List Block)) : List (List UInt8) :=
  Pipeline.output keepBatch batches

/-- The batch being written, whose first buffers are to be recycled. -/
structure Writing (h : BufferHeap) (l : Locals) (blocks : List Block) : Prop where
  newBuffer1 : l.newBuffer1 = none
  newBuffer2 : Holds h l.newBuffer2 [] ∨ (l.newBuffer2 = none ∧ 2 ≤ l.buffersToWrite.length)
  nonempty : l.buffersToWrite ≠ []
  batch : List.Forall₂ (Holds h) l.buffersToWrite blocks

def BackEnd (h : BufferHeap) (l : Locals) (batches : List (List Block)) : Position → Prop
  | .unstarted | .spawned | .opening =>
    l = { newBuffer1 := none, newBuffer2 := none, buffersToWrite := [], output := [] } ∧
      batches = []
  | .test | .locking | .waiting =>
    Holds h l.newBuffer1 [] ∧ Holds h l.newBuffer2 [] ∧ l.buffersToWrite = [] ∧
      l.output = (written batches).flatten
  | .trimming => ∃ done batch, batches = done ++ [batch] ∧ Writing h l batch ∧
      l.output = (written done).flatten
  | .writing i => ∃ done batch, batches = done ++ [batch] ∧ Writing h l (keepBatch batch) ∧
      l.output = (written done ++ ((keepBatch batch).take i).flatten).flatten
  | .exiting | .finished => l.buffersToWrite = [] ∧ l.output = (written batches).flatten

structure Represents (s : LogState) (p : Pipeline (List UInt8)) : Prop where
  owned : Owned s.logging.heap (front s.logging ++ back s.locals)
  frontEnd : FrontEnd s.logging p
  backEnd : BackEnd s.logging.heap s.locals p.batches s.position
  spawned : s.position = .spawned → s.logging.running = true
  latched : s.stop ≠ .idle → s.Latched

/-- A step adds the lines it appends to the input, and the batch it swaps out to the batches. -/
structure Advance (s : LogState) (l : Label) (p p' : Pipeline (List UInt8)) : Prop where
  input : p'.input = p.input ++ LogState.appended [l]
  batches : p'.batches.map (fun batch => batch.map List.flatten)
    = p.batches.map (fun batch => batch.map List.flatten) ++ s.swapped l

section Ends

variable {a : AsyncLogging} {h h' : BufferHeap} {l : Locals} {p : Pipeline (List UInt8)}
  {blocks : List Block} {batches : List (List Block)} {rest : List BufferPtr}

theorem Writing.keeps (hw : Writing h l blocks) (hk : Keeps h h' (back l)) :
    Writing h' l blocks := by
  have hbatch : Keeps h h' l.buffersToWrite :=
    hk.mono fun q hq => List.mem_cons_of_mem _ (List.mem_cons_of_mem _ hq)
  exact ⟨hw.newBuffer1, hw.newBuffer2.imp (fun h2 => h2.keeps hk (by simp [back])) id, hw.nonempty,
    holds_keeps_all hw.batch hbatch⟩

theorem BackEnd.keeps {pos : Position} (hb : BackEnd h l batches pos)
    (hk : Keeps h h' (back l)) : BackEnd h' l batches pos := by
  have hspare : ∀ {ps}, Holds h l.newBuffer1 [] ∧ Holds h l.newBuffer2 [] ∧ ps →
      Holds h' l.newBuffer1 [] ∧ Holds h' l.newBuffer2 [] ∧ ps := by
    rintro ps ⟨h1, h2, hrest⟩
    exact ⟨h1.keeps hk List.mem_cons_self,
      h2.keeps hk (List.mem_cons_of_mem _ List.mem_cons_self), hrest⟩
  cases pos with
  | unstarted => exact hb
  | spawned => exact hb
  | opening => exact hb
  | test => exact hspare hb
  | locking => exact hspare hb
  | waiting => exact hspare hb
  | trimming =>
      obtain ⟨done, batch, heq, hw, hout⟩ := hb
      exact ⟨done, batch, heq, hw.keeps hk, hout⟩
  | writing i =>
      obtain ⟨done, batch, heq, hw, hout⟩ := hb
      exact ⟨done, batch, heq, hw.keeps hk, hout⟩
  | exiting => exact hb
  | finished => exact hb

/-- The branch of `append` for a full buffer leaves an empty current buffer. -/
theorem roll_spec (hf : FrontEnd a p) (ho : Owned a.heap (front a ++ rest)) :
    FrontEnd a.roll p.roll ∧ Owned a.roll.heap (front a.roll ++ rest) ∧
      Keeps a.heap a.roll.heap rest ∧ a.roll.running = a.running := by
  have hqueue : List.Forall₂ (Holds a.heap) (a.buffers ++ [a.currentBuffer]) p.roll.queue :=
    List.rel_append hf.queue (.cons hf.current .nil)
  cases hnext : a.nextBuffer with
  -- the spare buffer is there and takes the place
  | some n =>
      have hroll : a.roll = { a with buffers := a.buffers ++ [a.currentBuffer]
                                     currentBuffer := some n, nextBuffer := none } := by
        unfold AsyncLogging.roll
        simp only [hnext]
      have hspare : Holds a.heap (some n) [] := by
        rcases hf.next with hspare | ⟨hnone, -⟩
        · rwa [hnext] at hspare
        · rw [hnext] at hnone
          cases hnone
      rw [hroll]
      refine ⟨⟨hspare, hqueue, .inr ⟨rfl, by simp⟩⟩, ?_, fun q _ b hb => hb, rfl⟩
      refine (owned_none.mpr ho).perm (List.perm_iff_count.mpr fun q => ?_)
      simp only [front, hnext, List.count_append, List.count_cons, List.count_nil]
      omega
  -- a new buffer is allocated; the client runs faster than the back end
  | none =>
      have hroll : a.roll = { a with buffers := a.buffers ++ [a.currentBuffer]
                                     currentBuffer := (newBuffer a.heap).1, nextBuffer := none
                                     heap := (newBuffer a.heap).2 } := by
        unfold AsyncLogging.roll
        simp only [hnext]
      rw [hroll]
      refine ⟨⟨holds_newBuffer _, holds_keeps_all hqueue (keeps_newBuffer _ _),
        .inr ⟨rfl, by simp⟩⟩, ?_, keeps_newBuffer _ _, rfl⟩
      refine ho.newBuffer.perm (List.perm_iff_count.mpr fun q => ?_)
      simp only [front, hnext, List.count_append, List.count_cons, List.count_nil]
      omega

/-- A write of a line into a current buffer with room for it. -/
theorem push_spec (hf : FrontEnd a p) (ho : Owned a.heap (front a ++ rest)) {b : Buffer}
    (hb : deref a.heap a.currentBuffer = some b) {line : List UInt8}
    (hroom : line.length < b.avail) :
    ∃ heap, modify a.heap a.currentBuffer (fun b => b.append line) = some heap ∧
      FrontEnd { a with heap := heap } (p.push line) ∧
      Owned heap (front a ++ rest) ∧ Keeps a.heap heap rest := by
  obtain ⟨heap, hmodify, hself, hkeeps, ho'⟩ := ho.modify hb fun b => b.append line
  refine ⟨heap, hmodify, ⟨⟨_, hself, ?_⟩, ?_, ?_⟩, ho', hkeeps.mono fun q hq => ?_⟩
  · obtain ⟨b', hb', hdata⟩ := hf.current
    cases Option.some.inj (hb.symm.trans hb')
    show (b.append line).data = (p.current ++ [line]).flatten
    rw [FixedBuffer.append_data hroom, hdata]
    simp
  · refine holds_keeps_all hf.queue (hkeeps.mono fun q hq => ?_)
    exact List.mem_cons_of_mem _ (List.mem_append_left _ hq)
  · exact hf.next.imp (fun hspare => hspare.keeps hkeeps List.mem_cons_self) id
  · exact List.mem_cons_of_mem _ (List.mem_append_right _ hq)

theorem append_spec (hf : FrontEnd a p) (ho : Owned a.heap (front a ++ rest)) (line : Line) :
    ∃ a' p', a.append line.bytes = some a' ∧ FrontEnd a' p' ∧
      Owned a'.heap (front a' ++ rest) ∧ Keeps a.heap a'.heap rest ∧ a'.running = a.running ∧
      p'.input = p.input ++ [line.bytes] ∧ p'.batches = p.batches := by
  obtain ⟨b, hb, -⟩ := hf.current
  by_cases hroom : line.bytes.length < b.avail
  · obtain ⟨heap, hmodify, hf', ho', hkeeps⟩ := push_spec hf ho hb hroom
    refine ⟨_, _, ?_, hf', ho', hkeeps, rfl, Pipeline.input_push p _, rfl⟩
    simp only [AsyncLogging.append, hb, if_pos hroom, hmodify, Option.bind_eq_bind,
      Option.bind_some]
  · obtain ⟨hroll, horoll, hkroll, hrun⟩ := roll_spec hf ho
    -- an empty buffer has room for every line
    obtain ⟨b', hb', hdata⟩ := hroll.current
    have hroom' : line.bytes.length < b'.avail := by
      rw [FixedBuffer.avail_of_data_nil hdata]
      exact line.short
    obtain ⟨heap, hmodify, hf', ho', hkeeps⟩ := push_spec hroll horoll hb' hroom'
    refine ⟨_, _, ?_, hf', ho', hkroll.trans hkeeps, hrun, ?_, rfl⟩
    · simp only [AsyncLogging.append, hb, if_neg hroom, hmodify, Option.bind_eq_bind,
        Option.bind_some]
    · rw [Pipeline.input_push, Pipeline.input_roll]

end Ends

/-! ## The steps

The steps of the other threads. A line goes into the current block, which is queued first where it
is full. -/

section Steps

variable {s s' : LogState} {p : Pipeline (List UInt8)}

theorem advance_stays {l : Label} (hl : LogState.appended [l] = []) (hswap : s.swapped l = []) :
    Advance s l p p := ⟨by rw [hl, List.append_nil], by rw [hswap, List.append_nil]⟩

theorem append_represents (hr : Represents s p) (line : Line) :
    ∃ s' p', s.step (.append line) = some s' ∧ Represents s' p' ∧
      Advance s (.append line) p p' := by
  obtain ⟨a', p', happend, hf, ho, hkeeps, hrun, hinput, hbatches⟩ :=
    append_spec hr.frontEnd hr.owned line
  refine ⟨{ s with logging := a' }, p', ?_, ⟨ho, hf, ?_, ?_, hr.latched⟩, hinput, ?_⟩
  · simp only [LogState.step, happend, Option.map_some]
  · rw [hbatches]
    exact hr.backEnd.keeps hkeeps
  · intro hpos
    exact hrun.trans (hr.spawned hpos)
  · rw [hbatches]
    exact (List.append_nil _).symm

theorem start_represents (hr : Represents s p) (hs : s.step .start = some s') :
    Represents s' p := by
  by_cases hpos : s.position = .unstarted
  · simp only [LogState.step, if_pos hpos, Option.some.injEq] at hs
    subst hs
    refine ⟨hr.owned, ⟨hr.frontEnd.current, hr.frontEnd.queue, hr.frontEnd.next⟩, ?_,
      fun _ => rfl, fun hstop => ?_⟩
    · have hb := hr.backEnd
      rw [hpos] at hb
      exact hb
    · exact absurd hpos (hr.latched hstop).1
  · simp only [LogState.step, if_neg hpos, reduceCtorEq] at hs

theorem stop_represents (hr : Represents s p) (hs : s.step .stop = some s') :
    Represents s' p := by
  simp only [LogState.step, LogState.stopStep] at hs
  cases hstop : s.stop with
  | idle =>
      simp only [hstop] at hs
      split at hs
      · next hlatched =>
          cases hs
          exact ⟨hr.owned, hr.frontEnd, hr.backEnd, hr.spawned, fun _ => hlatched⟩
      · cases hs
  -- the only step that writes to the object, and it writes `running_` alone
  | called =>
      have hlatched : s.Latched := hr.latched (by rw [hstop]; simp)
      simp only [hstop, Option.some.injEq] at hs
      subst hs
      exact ⟨hr.owned, ⟨hr.frontEnd.current, hr.frontEnd.queue, hr.frontEnd.next⟩, hr.backEnd,
        fun hpos => absurd hpos hlatched.2, fun _ => hlatched⟩
  | cleared =>
      have hlatched : s.Latched := hr.latched (by rw [hstop]; simp)
      simp only [hstop, Option.some.injEq] at hs
      subst hs
      exact ⟨hr.owned, hr.frontEnd, hr.backEnd, hr.spawned, fun _ => hlatched⟩
  | notified =>
      have hlatched : s.Latched := hr.latched (by rw [hstop]; simp)
      simp only [hstop] at hs
      split at hs
      · cases hs
        exact ⟨hr.owned, hr.frontEnd, hr.backEnd, hr.spawned, fun _ => hlatched⟩
      · cases hs
  | returned => simp only [hstop, reduceCtorEq] at hs

/-! ## The back end

One lemma for each place of the back end. The swap hands the queue over; every other step leaves
the pipeline and changes only what the back end's own pointers hold. -/

theorem FrontEnd.keeps {a : AsyncLogging} {heap : BufferHeap} (hf : FrontEnd a p)
    (hk : Keeps a.heap heap (front a)) : FrontEnd { a with heap := heap } p := by
  refine ⟨hf.current.keeps hk List.mem_cons_self, holds_keeps_all hf.queue (hk.mono fun q hq => ?_),
    hf.next.imp (fun h => h.keeps hk ?_) id⟩
  · exact List.mem_cons_of_mem _ (List.mem_cons_of_mem _ hq)
  · simp [front]

theorem open_represents (hr : Represents s p) (hpos : s.position = .opening) :
    Represents s.openLog p := by
  have hb := hr.backEnd
  rw [hpos] at hb
  obtain ⟨hlocals, hbatches⟩ := hb
  let h₁ := (newBuffer s.logging.heap).2
  have hkeeps : Keeps s.logging.heap (newBuffer h₁).2 (front s.logging) :=
    (keeps_newBuffer s.logging.heap _).trans (keeps_newBuffer h₁ _)
  have hspare : Holds (newBuffer h₁).2 (newBuffer s.logging.heap).1 [] :=
    (holds_newBuffer s.logging.heap).keeps (keeps_newBuffer h₁ _) (List.mem_singleton_self _)
  have ho : Owned s.logging.heap (front s.logging) :=
    hr.owned.sublist (List.sublist_append_left _ _)
  refine ⟨?_, hr.frontEnd.keeps hkeeps, ⟨hspare, holds_newBuffer h₁, rfl, ?_⟩, nofun,
    fun _ => ⟨nofun, nofun⟩⟩
  · refine ho.newBuffer.newBuffer.perm (List.perm_iff_count.mpr fun q => ?_)
    simp only [LogState.openLog, front, back, List.count_append, List.count_cons, List.count_nil]
    omega
  · rw [hbatches]
    rfl

/-- The batch is the queue and the current buffer; the back end's spare buffers take their
place. -/
theorem swap_represents (hr : Represents s p) (hpos : s.BeforeSwap) :
    ∃ s', s.swapBuffers = some s' ∧ Represents s' p.hand := by
  have hb := hr.backEnd
  have hspare : Holds s.logging.heap s.locals.newBuffer1 [] ∧
      Holds s.logging.heap s.locals.newBuffer2 [] ∧ s.locals.buffersToWrite = [] ∧
      s.locals.output = (written p.batches).flatten := by
    rcases hpos with hpos | hpos <;> rw [hpos] at hb <;> exact hb
  obtain ⟨hnew1, hnew2, htoWrite, hout⟩ := hspare
  have hqueue : s.logging.buffers ++ [s.logging.currentBuffer] ≠ [] := by simp
  have hbatch : List.Forall₂ (Holds s.logging.heap)
      (s.logging.buffers ++ [s.logging.currentBuffer]) p.batch :=
    List.rel_append hr.frontEnd.queue (.cons hr.frontEnd.current .nil)
  have howned := hr.owned
  refine ⟨_, if_neg hqueue, ?_, ⟨hnew1, ?_, ?_⟩,
    ⟨p.batches, p.batch, rfl, ⟨rfl, ?_, hqueue, hbatch⟩, hout⟩, nofun,
    fun _ => ⟨nofun, nofun⟩⟩
  · simp only [front, back, htoWrite] at howned ⊢
    refine (owned_none.mpr howned).perm (List.perm_iff_count.mpr fun q => ?_)
    split
    · next hnext =>
        simp only [hnext, List.count_append, List.count_cons, List.count_nil]
        omega
    · simp only [List.count_append, List.count_cons, List.count_nil]
      omega
  · show List.Forall₂ _ s.locals.buffersToWrite []
    rw [htoWrite]
    exact .nil
  · show Holds s.logging.heap (if s.logging.nextBuffer = none then s.locals.newBuffer2
      else s.logging.nextBuffer) [] ∨ _
    split
    · exact .inl hnew2
    · next hnext =>
        rcases hr.frontEnd.next with hspare | ⟨hnone, -⟩
        · exact .inl hspare
        · exact absurd hnone hnext
  · show Holds s.logging.heap (if s.logging.nextBuffer = none then none else s.locals.newBuffer2) []
      ∨ (if s.logging.nextBuffer = none then none else s.locals.newBuffer2) = none ∧ _
    split
    · next hnext =>
        -- a next buffer that is gone has left a full one in the queue
        rcases hr.frontEnd.next with hspare | ⟨-, hfull⟩
        · exact absurd hnext hspare.ne_none
        · have hlen := List.length_pos_of_ne_nil hfull
          refine .inr ⟨rfl, ?_⟩
          rw [List.length_append, List.length_singleton]
          omega
    · exact .inl hnew2

theorem keepBatch_sublist {α : Type} (batch : List α) : (keepBatch batch).Sublist batch := by
  unfold keepBatch
  split
  · exact List.take_sublist 2 batch
  · exact List.Sublist.refl batch

theorem keepBatch_of_le {α : Type} {batch : List α} (h : batch.length ≤ 25) :
    keepBatch batch = batch := if_neg (Nat.not_lt.mpr h)

theorem keepBatch_forall₂ {α β : Type} {R : α → β → Prop} {as : List α} {bs : List β}
    (h : List.Forall₂ R as bs) : List.Forall₂ R (keepBatch as) (keepBatch bs) := by
  unfold keepBatch
  rw [h.length_eq]
  split
  · exact List.forall₂_take 2 h
  · exact h

theorem trim_represents (hr : Represents s p) (hpos : s.position = .trimming) :
    Represents s.trimBuffers p := by
  have hb := hr.backEnd
  rw [hpos] at hb
  obtain ⟨done, batch, heq, hw, hout⟩ := hb
  have hlen : (keepBatch s.locals.buffersToWrite).length = s.locals.buffersToWrite.length ∨
      (keepBatch s.locals.buffersToWrite).length = 2 := by
    unfold keepBatch
    split
    · exact .inr (List.length_take_of_le (by omega))
    · exact .inl rfl
  have hne := List.length_pos_of_ne_nil hw.nonempty
  refine ⟨?_, hr.frontEnd, ⟨done, batch, heq, ⟨hw.newBuffer1, ?_, ?_, ?_⟩, ?_⟩, nofun,
    fun _ => ⟨nofun, nofun⟩⟩
  · exact hr.owned.sublist ((List.Sublist.refl _).append
      (((keepBatch_sublist _).cons_cons _).cons_cons _))
  · refine hw.newBuffer2.imp id fun ⟨hnone, htwo⟩ => ⟨hnone, ?_⟩
    show 2 ≤ (keepBatch s.locals.buffersToWrite).length
    omega
  · refine List.ne_nil_of_length_pos (show 0 < (keepBatch s.locals.buffersToWrite).length from ?_)
    omega
  · exact keepBatch_forall₂ hw.batch
  · rw [List.take_zero, List.flatten_nil, List.append_nil]
    exact hout

theorem write_represents (hr : Represents s p) {i : Nat} {q : BufferPtr}
    (hpos : s.position = .writing i) (hq : s.locals.buffersToWrite[i]? = some q) :
    ∃ s', s.writeBuffer i q = some s' ∧ Represents s' p := by
  have hb := hr.backEnd
  rw [hpos] at hb
  obtain ⟨done, batch, heq, hw, hout⟩ := hb
  have hi := (List.getElem?_eq_some_iff.mp hq).1
  obtain ⟨b, hbuf, hdata⟩ := hw.batch.get hi (by rw [← hw.batch.length_eq]; exact hi)
  rw [List.get_eq_getElem, (List.getElem?_eq_some_iff.mp hq).2] at hbuf
  refine ⟨{ s with locals := { s.locals with output := s.locals.output ++ b.data }
                   position := .writing (i + 1) }, ?_, hr.owned, hr.frontEnd,
    ⟨done, batch, heq, ⟨hw.newBuffer1, hw.newBuffer2, hw.nonempty, hw.batch⟩, ?_⟩, nofun,
    fun _ => ⟨nofun, nofun⟩⟩
  · simp only [LogState.writeBuffer, hbuf, Option.bind_eq_bind, Option.bind_some]
  · show s.locals.output ++ b.data = _
    rw [hout, hdata, List.get_eq_getElem,
      ← List.take_append_getElem (by rw [← hw.batch.length_eq]; exact hi)]
    simp only [List.flatten_append, List.flatten_cons, List.flatten_nil, List.append_nil,
      List.append_assoc]

/-- One of the two refills at the end of an iteration. -/
theorem refill_spec {q : BufferPtr} {bufs rest : List BufferPtr} {h : BufferHeap}
    (ho : Owned h (q :: bufs ++ rest)) (hbufs : ∀ r ∈ bufs, r ≠ none)
    (hq : Holds h q [] ∨ (q = none ∧ bufs ≠ [])) :
    ∃ q' bufs' h', LogState.refill q bufs h = some (q', bufs', h') ∧ Holds h' q' [] ∧
      Owned h' (q' :: bufs' ++ rest) ∧ Keeps h h' rest ∧ (∀ r ∈ bufs', r ≠ none) ∧
      bufs.length ≤ bufs'.length + 1 := by
  cases q with
  | some a =>
      have hspare : Holds h (some a) [] := by
        rcases hq with hspare | ⟨hnone, -⟩
        · exact hspare
        · cases hnone
      exact ⟨some a, bufs, h, rfl, hspare, ho, fun _ _ _ hb => hb, hbufs, Nat.le_succ _⟩
  -- the buffer at the back of `buffersToWrite` is taken out, emptied and kept
  | none =>
      have hne : bufs ≠ [] := by
        rcases hq with hspare | ⟨-, hne⟩
        · exact absurd rfl hspare.ne_none
        · exact hne
      obtain ⟨init, r, rfl⟩ : ∃ init r, bufs = init ++ [r] :=
        ⟨_, _, (List.dropLast_append_getLast hne).symm⟩
      rw [List.cons_append, owned_none] at ho
      have ho' : Owned h (r :: (init ++ rest)) := by
        refine ho.perm (List.perm_iff_count.mpr fun x => ?_)
        simp only [List.count_append, List.count_cons, List.count_nil]
        omega
      obtain ⟨b, hb⟩ := (ho'.allocated r List.mem_cons_self).resolve_left (hbufs r (by simp))
      obtain ⟨h', hmodify, hself, hkeeps, ho''⟩ := ho'.modify hb FixedBuffer.reset
      refine ⟨r, init, h', ?_, ⟨_, hself, rfl⟩, ho'', hkeeps.mono fun x hx => ?_,
        fun x hx => ?_, ?_⟩
      · simp only [LogState.refill, List.getLast?_append, List.getLast?_singleton, Option.some_or,
          hmodify, List.dropLast_concat, Option.bind_eq_bind, Option.bind_some]
      · exact List.mem_append_right _ hx
      · exact hbufs x (List.mem_append_left _ hx)
      · rw [List.length_append, List.length_singleton]

/-- What `resize(2)` leaves of the batch. -/
def LogState.resized (s : LogState) : List BufferPtr :=
  if 2 < s.locals.buffersToWrite.length then s.locals.buffersToWrite.take 2
  else s.locals.buffersToWrite

theorem LogState.resized_sublist (s : LogState) :
    s.resized.Sublist s.locals.buffersToWrite := by
  unfold LogState.resized
  split
  · exact List.take_sublist 2 _
  · exact List.Sublist.refl _

theorem LogState.resized_length (s : LogState) :
    s.resized.length = min 2 s.locals.buffersToWrite.length := by
  unfold LogState.resized
  split
  · exact List.length_take
  · omega

theorem recycle_represents (hr : Represents s p) {i : Nat} (hpos : s.position = .writing i)
    (hi : s.locals.buffersToWrite[i]? = none) :
    ∃ s', s.recycle = some s' ∧ Represents s' p := by
  have hb := hr.backEnd
  rw [hpos] at hb
  obtain ⟨done, batch, heq, hw, hout⟩ := hb
  have hsub := s.resized_sublist
  have hlen := s.resized_length
  have hpos₁ : 0 < s.locals.buffersToWrite.length := List.length_pos_of_ne_nil hw.nonempty
  have hbufs : ∀ q ∈ s.resized, q ≠ none := fun q hq => holds_ne_none hw.batch q (hsub.subset hq)
  -- the first refill leaves the second new buffer and the front end alone
  have ho : Owned s.logging.heap
      (s.locals.newBuffer1 :: s.resized ++ (s.locals.newBuffer2 :: front s.logging)) := by
    refine (hr.owned.sublist ((List.Sublist.refl _).append ((hsub.cons_cons _).cons_cons _))).perm
      (List.perm_iff_count.mpr fun q => ?_)
    simp only [List.count_append, List.count_cons]
    omega
  obtain ⟨q₁, bufs₁, h₁, hrefill₁, hspare₁, ho₁, hkeeps₁, hbufs₁, hlen₁⟩ :=
    refill_spec ho hbufs (.inr ⟨hw.newBuffer1, List.ne_nil_of_length_pos (by omega)⟩)
  have ho₁' : Owned h₁ (s.locals.newBuffer2 :: bufs₁ ++ (q₁ :: front s.logging)) := by
    refine ho₁.perm (List.perm_iff_count.mpr fun q => ?_)
    simp only [List.count_append, List.count_cons]
    omega
  have hsecond : Holds h₁ s.locals.newBuffer2 [] ∨ (s.locals.newBuffer2 = none ∧ bufs₁ ≠ []) := by
    refine hw.newBuffer2.imp (fun h => h.keeps hkeeps₁ List.mem_cons_self)
      fun ⟨hnone, htwo⟩ => ⟨hnone, List.ne_nil_of_length_pos (by omega)⟩
  obtain ⟨q₂, bufs₂, h₂, hrefill₂, hspare₂, ho₂, hkeeps₂, -, -⟩ := refill_spec ho₁' hbufs₁ hsecond
  have hkeeps : Keeps s.logging.heap h₂ (front s.logging) :=
    (hkeeps₁.mono fun q hq => List.mem_cons_of_mem _ hq).trans
      (hkeeps₂.mono fun q hq => List.mem_cons_of_mem _ hq)
  refine ⟨{ s with logging := { s.logging with heap := h₂ }
                   locals := { s.locals with newBuffer1 := q₁, newBuffer2 := q₂, buffersToWrite := [] }
                   position := .test }, ?_, ?_, hr.frontEnd.keeps hkeeps,
    ⟨hspare₁.keeps hkeeps₂ List.mem_cons_self, hspare₂, rfl, ?_⟩, nofun,
    fun _ => ⟨nofun, nofun⟩⟩
  · simp only [LogState.recycle]
    rw [show (if 2 < s.locals.buffersToWrite.length then s.locals.buffersToWrite.take 2
      else s.locals.buffersToWrite) = s.resized from rfl, hrefill₁]
    simp only [Option.bind_eq_bind, Option.bind_some, hrefill₂]
  · refine (ho₂.sublist (?_ : List.Sublist (q₂ :: q₁ :: front s.logging) _)).perm
      (List.perm_iff_count.mpr fun q => ?_)
    · exact (List.sublist_append_right bufs₂ _).cons_cons q₂
    · simp only [front, back, List.count_append, List.count_cons, List.count_nil]
      omega
  · -- the whole batch is written
    show s.locals.output = _
    have hall : (keepBatch batch).length ≤ i := by
      rw [← hw.batch.length_eq]
      exact List.getElem?_eq_none_iff.mp hi
    rw [hout, List.take_of_length_le hall, heq, written, written, Pipeline.output_append,
      Pipeline.output_singleton]

theorem advance_hand (hr : Represents s p)
    (hswap : s.position = .waiting ∨ (s.position = .locking ∧ s.logging.buffers ≠ [])) :
    Advance s .backEnd p p.hand := by
  have hbatch : List.Forall₂ (Holds s.logging.heap)
      (s.logging.buffers ++ [s.logging.currentBuffer]) p.batch :=
    List.rel_append hr.frontEnd.queue (.cons hr.frontEnd.current .nil)
  refine ⟨(Pipeline.input_hand p).trans (List.append_nil _).symm, ?_⟩
  rw [LogState.swapped, if_pos hswap, contents_map hbatch, Pipeline.hand, List.map_append,
    List.map_singleton]

/-- Where the back end does not swap, it leaves the pipeline. -/
theorem advance_backEnd (hwait : s.position ≠ .waiting)
    (hlock : s.position = .locking → s.logging.buffers = []) : Advance s .backEnd p p := by
  refine advance_stays rfl (if_neg ?_)
  rintro (hpos | ⟨hpos, hfull⟩)
  · exact hwait hpos
  · exact hfull (hlock hpos)

/-- The top of an iteration: its assertions hold, and it waits or swaps. -/
theorem Represents.top_asserts (hr : Represents s p) (hpos : s.position = .locking) :
    s.isEmptyBuffer s.locals.newBuffer1 ∧ s.isEmptyBuffer s.locals.newBuffer2 ∧
      s.locals.buffersToWrite = [] := by
  have hb := hr.backEnd
  rw [hpos] at hb
  obtain ⟨⟨b₁, hb₁, hdata₁⟩, ⟨b₂, hb₂, hdata₂⟩, htoWrite, -⟩ := hb
  refine ⟨?_, ?_, htoWrite⟩
  · simp [LogState.isEmptyBuffer, hb₁, FixedBuffer.length, hdata₁]
  · simp [LogState.isEmptyBuffer, hb₂, FixedBuffer.length, hdata₂]

theorem lock_represents (hr : Represents s p) (hpos : s.position = .locking) :
    ∃ s' p', s.lockBuffers = some s' ∧ Represents s' p' ∧ Advance s .backEnd p p' := by
  have hb := hr.backEnd
  rw [hpos] at hb
  have hasserts := hr.top_asserts hpos
  by_cases hempty : s.logging.buffers = []
  · refine ⟨{ s with position := .waiting }, p, ?_,
      ⟨hr.owned, hr.frontEnd, hb, nofun, fun _ => ⟨nofun, nofun⟩⟩,
      advance_backEnd (by rw [hpos]; nofun) fun _ => hempty⟩
    rw [LogState.lockBuffers, if_pos hasserts, if_pos hempty]
  · obtain ⟨s', hswap, hr'⟩ := swap_represents hr (.inl hpos)
    refine ⟨s', p.hand, ?_, hr', advance_hand hr (.inr ⟨hpos, hempty⟩)⟩
    rw [LogState.lockBuffers, if_pos hasserts, if_neg hempty, hswap]

theorem test_represents (hr : Represents s p) (hpos : s.position = .test) :
    Represents { s with position := if s.logging.running then .locking else .exiting } p := by
  have hb := hr.backEnd
  rw [hpos] at hb
  cases hrun : s.logging.running with
  | true => exact ⟨hr.owned, hr.frontEnd, hb, nofun, fun _ => ⟨nofun, nofun⟩⟩
  | false => exact ⟨hr.owned, hr.frontEnd, hb.2.2, nofun, fun _ => ⟨nofun, nofun⟩⟩

/-- One step of the back end, wherever it is. -/
theorem backEnd_represents (hr : Represents s p) (hstart : s.position ≠ .unstarted)
    (hfinish : s.position ≠ .finished) :
    ∃ s' p', s.step .backEnd = some s' ∧ Represents s' p' ∧ Advance s .backEnd p p' := by
  have hb := hr.backEnd
  have hstays : ∀ pos, s.position = pos → pos ≠ .waiting → pos ≠ .locking →
      Advance s .backEnd p p := fun pos hpos hwait hlock =>
    advance_backEnd (hpos ▸ hwait) fun h => absurd (hpos.symm.trans h) hlock
  simp only [LogState.step, LogState.backEndStep]
  cases hpos : s.position with
  | unstarted => exact absurd hpos hstart
  | finished => exact absurd hpos hfinish
  | spawned =>
      rw [hpos] at hb
      simp only [hr.spawned hpos, if_true]
      exact ⟨_, p, rfl, ⟨hr.owned, hr.frontEnd, hb, nofun, fun _ => ⟨nofun, nofun⟩⟩,
        hstays _ hpos nofun nofun⟩
  | opening => exact ⟨_, p, rfl, open_represents hr hpos, hstays _ hpos nofun nofun⟩
  | test => exact ⟨_, p, rfl, test_represents hr hpos, hstays _ hpos nofun nofun⟩
  -- the swap hands the queue over; all other steps leave the pipeline as it is
  | locking => exact lock_represents hr hpos
  | waiting =>
      obtain ⟨s', hswap, hr'⟩ := swap_represents hr (.inr hpos)
      exact ⟨s', p.hand, hswap, hr', advance_hand hr (.inl hpos)⟩
  | trimming => exact ⟨_, p, rfl, trim_represents hr hpos, hstays _ hpos nofun nofun⟩
  | writing i =>
      cases hq : s.locals.buffersToWrite[i]? with
      | some q =>
          obtain ⟨s', hwrite, hr'⟩ := write_represents hr hpos hq
          simp only [hq]
          exact ⟨s', p, hwrite, hr', hstays _ hpos nofun nofun⟩
      | none =>
          obtain ⟨s', hrecycle, hr'⟩ := recycle_represents hr hpos hq
          simp only [hq]
          exact ⟨s', p, hrecycle, hr', hstays _ hpos nofun nofun⟩
  | exiting =>
      rw [hpos] at hb
      exact ⟨_, p, rfl, ⟨hr.owned, hr.frontEnd, hb, nofun, fun _ => ⟨nofun, nofun⟩⟩,
        hstays _ hpos nofun nofun⟩

theorem step_represents (hr : Represents s p) {l : Label} (hs : s.step l = some s') :
    ∃ p', Represents s' p' ∧ Advance s l p p' := by
  cases l with
  | append line =>
      obtain ⟨t, p', ht, hr', hadv⟩ := append_represents hr line
      cases Option.some.inj (hs.symm.trans ht)
      exact ⟨p', hr', hadv⟩
  | start => exact ⟨p, start_represents hr hs, advance_stays rfl rfl⟩
  | backEnd =>
      have hstart : s.position ≠ .unstarted := fun hpos => by
        simp only [LogState.step, LogState.backEndStep, hpos, reduceCtorEq] at hs
      have hfinish : s.position ≠ .finished := fun hpos => by
        simp only [LogState.step, LogState.backEndStep, hpos, reduceCtorEq] at hs
      obtain ⟨t, p', ht, hr', hadv⟩ := backEnd_represents hr hstart hfinish
      cases Option.some.inj (hs.symm.trans ht)
      exact ⟨p', hr', hadv⟩
  | stop => exact ⟨p, stop_represents hr hs, advance_stays rfl rfl⟩

end Steps

/-! ## Runs

From the pipeline back to bytes: what is appended is what the batches and the front end hold, and
the file has what `keepBatch` leaves of the batches. -/

theorem new_represents : Represents LogState.new Pipeline.empty := by
  have hempty : Owned [] [none, none] :=
    owned_none.mpr (owned_none.mpr ⟨List.Pairwise.nil, fun p hp => by cases hp⟩)
  have hspare : ∀ n : Nat, n < 2 → Holds AsyncLogging.new.heap (some n) [] := fun n hn => by
    rcases (show n = 0 ∨ n = 1 from by omega) with rfl | rfl <;> exact ⟨_, rfl, rfl⟩
  refine ⟨?_, ⟨hspare 0 (by omega), .nil, .inl (hspare 1 (by omega))⟩, ⟨rfl, rfl⟩, nofun,
    fun h => absurd rfl h⟩
  refine hempty.newBuffer.newBuffer.perm (List.perm_iff_count.mpr fun q => ?_)
  simp only [LogState.new, AsyncLogging.new, front, back, List.count_append, List.count_cons,
    List.count_nil]
  omega

/-- The lines and the batches of a run are those of its pipeline. -/
theorem run_represents {ls : List Label} {s : LogState}
    (hrun : exec LogState.step LogState.new ls = some s) :
    ∃ p, Represents s p ∧ p.input = LogState.appended ls ∧
      p.batches.map (fun batch => batch.map List.flatten) = LogState.batches ls := by
  refine exec_induction (P := fun ls s => ∃ p, Represents s p ∧ p.input = LogState.appended ls ∧
      p.batches.map (fun batch => batch.map List.flatten) = LogState.batches ls)
    ⟨Pipeline.empty, new_represents, rfl, rfl⟩ ?_ hrun
  rintro ls s l s' hs ⟨p, hr, hinput, hbatches⟩ hstep
  obtain ⟨p', hr', hadv⟩ := step_represents hr hstep
  refine ⟨p', hr', ?_, ?_⟩
  · rw [hadv.input, hinput]
    exact List.filterMap_append.symm
  · rw [hadv.batches, hbatches, LogState.batches, LogState.batches, emitted_concat hs]

section Contents

variable {s : LogState} {p : Pipeline (List UInt8)}

/-- What is still in the front end. -/
theorem frontEnd_contents (hr : Represents s p) :
    contents s.logging.heap (s.logging.buffers ++ [s.logging.currentBuffer])
      = p.pending.flatten := by
  have hqueue : List.Forall₂ (Holds s.logging.heap)
      (s.logging.buffers ++ [s.logging.currentBuffer]) p.batch :=
    List.rel_append hr.frontEnd.queue (.cons hr.frontEnd.current .nil)
  rw [contents_flatten hqueue, Pipeline.batch, Pipeline.pending, List.flatten_append,
    List.flatten_singleton]

/-- Outside the part of an iteration that has a batch. -/
theorem Represents.idle (hr : Represents s p) (htrim : s.position ≠ .trimming)
    (hwrite : ∀ i, s.position ≠ .writing i) :
    s.locals.buffersToWrite = [] ∧ s.locals.output = (written p.batches).flatten := by
  have hb := hr.backEnd
  have hstart : s.locals = { newBuffer1 := none, newBuffer2 := none, buffersToWrite := []
                             output := [] } ∧ p.batches = [] →
      s.locals.buffersToWrite = [] ∧ s.locals.output = (written p.batches).flatten := by
    rintro ⟨hlocals, hbatches⟩
    rw [hlocals, hbatches]
    exact ⟨rfl, rfl⟩
  cases hpos : s.position <;> rw [hpos] at hb
  case unstarted => exact hstart hb
  case spawned => exact hstart hb
  case opening => exact hstart hb
  case test => exact hb.2.2
  case locking => exact hb.2.2
  case waiting => exact hb.2.2
  case trimming => exact absurd hpos htrim
  case writing i => exact absurd hpos (hwrite i)
  case exiting => exact hb
  case finished => exact hb

/-- The file and the rest of the current batch. -/
theorem backEnd_contents (hr : Represents s p) :
    s.locals.output ++ contents s.logging.heap s.unwritten = (written p.batches).flatten := by
  have hb := hr.backEnd
  unfold LogState.unwritten
  split
  · next hpos =>
    rw [hpos] at hb
    obtain ⟨done, batch, heq, hw, hout⟩ := hb
    rw [contents_flatten (keepBatch_forall₂ hw.batch), hout, heq, written, written,
      Pipeline.output_append, Pipeline.output_singleton, List.flatten_append]
  · next i hpos =>
    rw [hpos] at hb
    obtain ⟨done, batch, heq, hw, hout⟩ := hb
    rw [contents_flatten (List.forall₂_drop i hw.batch), hout, heq, ← List.flatten_append,
      List.append_assoc, ← List.flatten_append, List.take_append_drop, written, written,
      Pipeline.output_append, Pipeline.output_singleton]
  · next htrim hwrite =>
    rw [(hr.idle htrim hwrite).2]
    exact List.append_nil _

/-- The file is made of whole lines, in order. -/
theorem output_lines (hr : Represents s p) :
    ∃ lines : List (List UInt8), lines.Sublist p.input ∧ s.locals.output = lines.flatten := by
  have hb := hr.backEnd
  have hall : (written p.batches).Sublist p.input :=
    Pipeline.output_sublist keepBatch_sublist p
  by_cases htrim : s.position = .trimming
  · rw [htrim] at hb
    obtain ⟨done, batch, heq, -, hout⟩ := hb
    refine ⟨written done, List.Sublist.trans ?_ hall, hout⟩
    rw [heq, written, written, Pipeline.output_append]
    exact List.sublist_append_left _ _
  · by_cases hwrite : ∃ i, s.position = .writing i
    · obtain ⟨i, hpos⟩ := hwrite
      rw [hpos] at hb
      obtain ⟨done, batch, heq, -, hout⟩ := hb
      refine ⟨_, List.Sublist.trans ?_ hall, hout⟩
      rw [heq, written, written, Pipeline.output_append, Pipeline.output_singleton]
      exact (List.Sublist.refl _).append (List.take_sublist i _).flatten
    · exact ⟨_, hall, (hr.idle htrim (not_exists.mp hwrite)).2⟩

/-- The batches of the pipeline, as bytes. -/
theorem written_flatten (batches : List (List Block)) :
    ((batches.map fun batch => batch.map List.flatten).map keepBatch).flatten.flatten
      = (written batches).flatten := by
  have hkeep : ∀ batch : List Block,
      keepBatch (batch.map List.flatten) = (keepBatch batch).map List.flatten := fun batch => by
    unfold keepBatch
    rw [List.length_map]
    split
    · exact List.map_take.symm
    · rfl
  induction batches with
  | nil => rfl
  | cons batch batches ih =>
      rw [List.map_cons, List.map_cons, List.flatten_cons, List.flatten_append, ih, hkeep,
        ← List.flatten_flatten, ← List.flatten_append, ← List.singleton_append, written, written,
        Pipeline.output_append, Pipeline.output_singleton]

theorem batches_flatten (batches : List (List Block)) :
    (batches.map fun batch => batch.map List.flatten).flatten.flatten
      = batches.flatten.flatten.flatten := by
  induction batches with
  | nil => rfl
  | cons batch batches ih =>
      rw [List.map_cons, List.flatten_cons, List.flatten_append, ih, ← List.flatten_flatten,
        List.flatten_cons, List.flatten_append, List.flatten_append]

/-- The swapped batches and the front end hold the lines appended so far. -/
theorem batches_contents {ls : List Label} {s : LogState}
    (hrun : exec LogState.step LogState.new ls = some s) :
    (LogState.batches ls).flatten.flatten
        ++ contents s.logging.heap (s.logging.buffers ++ [s.logging.currentBuffer])
      = (LogState.appended ls).flatten := by
  obtain ⟨p, hr, hinput, hbatches⟩ := run_represents hrun
  rw [← hbatches, batches_flatten, frontEnd_contents hr, ← List.flatten_append, ← hinput,
    Pipeline.input]

/-- The file and what is left of the current batch are what `keepBatch` leaves of the batches. -/
theorem output_contents {ls : List Label} {s : LogState}
    (hrun : exec LogState.step LogState.new ls = some s) :
    s.locals.output ++ contents s.logging.heap s.unwritten
      = ((LogState.batches ls).map keepBatch).flatten.flatten := by
  obtain ⟨p, hr, -, hbatches⟩ := run_represents hrun
  rw [backEnd_contents hr, ← hbatches, written_flatten]

end Contents

/-- **No line is lost, doubled, torn or moved.** In every state of every run of any threads:
the swapped batches and the front end have exactly the lines appended so far, in the order of
the lock; the file and the rest of the current batch have what `keepBatch` leaves of the
batches, so with no batch over 25 buffers the file, the rest of the batch, `buffers_` and
`currentBuffer_` are the appended lines; the file is made of whole lines, in order. No append
and no step of the running back end can fail. -/
theorem log_in_order {ls : List Label} {s : LogState}
    (hrun : exec LogState.step LogState.new ls = some s) :
    (LogState.batches ls).flatten.flatten
        ++ contents s.logging.heap (s.logging.buffers ++ [s.logging.currentBuffer])
      = (LogState.appended ls).flatten ∧
    s.locals.output ++ contents s.logging.heap s.unwritten
      = ((LogState.batches ls).map keepBatch).flatten.flatten ∧
    ((∀ batch ∈ LogState.batches ls, batch.length ≤ 25) →
      s.locals.output ++ contents s.logging.heap s.unwritten
          ++ contents s.logging.heap s.logging.buffers
          ++ contents s.logging.heap [s.logging.currentBuffer]
        = (LogState.appended ls).flatten) ∧
    (∃ lines : List (List UInt8), lines.Sublist (LogState.appended ls) ∧
      s.locals.output = lines.flatten) ∧
    (∀ line, ∃ s', s.step (.append line) = some s') ∧
    (s.position ≠ .unstarted → s.position ≠ .finished → ∃ s', s.step .backEnd = some s') := by
  obtain ⟨p, hr, hinput, -⟩ := run_represents hrun
  have hall := batches_contents hrun
  have hfile := output_contents hrun
  refine ⟨hall, hfile, fun hsmall => ?_, ?_, fun line => ?_, fun hstart hfinish => ?_⟩
  · have hkeep : (LogState.batches ls).map keepBatch = LogState.batches ls := by
      rw [List.map_congr_left fun batch hb => keepBatch_of_le (hsmall batch hb), List.map_id']
    rw [hfile, hkeep, ← hall, List.append_assoc, contents, contents, contents, List.flatMap_append]
  · rw [← hinput]
    exact output_lines hr
  · obtain ⟨s', -, hs', -⟩ := append_represents hr line
    exact ⟨s', hs'⟩
  · obtain ⟨s', -, hs', -⟩ := backEnd_represents hr hstart hfinish
    exact ⟨s', hs'⟩

/-- A line of one byte. -/
def byteLine (b : UInt8) : Line := ⟨[b], by simp [kLargeBuffer]⟩

/-- Two lines of a batch that is written, and a third one appended meanwhile. -/
def sampleRun : List Label :=
  [.append (byteLine 97), .start, .backEnd, .backEnd, .backEnd, .backEnd, .append (byteLine 98),
    .backEnd, .backEnd, .append (byteLine 99), .backEnd]

theorem log_in_order_sample :
    ∃ s, exec LogState.step LogState.new sampleRun = some s ∧ s.position = .writing 1 ∧
      (LogState.batches sampleRun).flatten.flatten
          ++ contents s.logging.heap (s.logging.buffers ++ [s.logging.currentBuffer])
        = (LogState.appended sampleRun).flatten ∧
      s.locals.output ++ contents s.logging.heap s.unwritten
        = ((LogState.batches sampleRun).map keepBatch).flatten.flatten ∧
      ((∀ batch ∈ LogState.batches sampleRun, batch.length ≤ 25) →
        s.locals.output ++ contents s.logging.heap s.unwritten
            ++ contents s.logging.heap s.logging.buffers
            ++ contents s.logging.heap [s.logging.currentBuffer]
          = (LogState.appended sampleRun).flatten) ∧
      (∃ lines : List (List UInt8), lines.Sublist (LogState.appended sampleRun) ∧
        s.locals.output = lines.flatten) ∧
      (∀ line, ∃ s', s.step (.append line) = some s') ∧
      (s.position ≠ .unstarted → s.position ≠ .finished → ∃ s', s.step .backEnd = some s') :=
  ⟨_, rfl, rfl, log_in_order rfl⟩

end HttpWebserver.LogSystem
