import HttpWebserver.LogSystem.DoubleBuffer

/-!
# LogSystem — what `stop` leaves in the log file

`stop` clears `running_` and joins the back end, which looks at `running_` only between two
iterations. So the place of the back end at that moment decides:

* inside an iteration that has not swapped yet, it still takes everything appended before
  (`beforeSwap_drains`);
* anywhere else it swaps no more (`afterSwap_keeps`), and what is in the front end is lost.

**`stop_drains_iff`** puts the two together: the lines appended before the call are in the file
when `stop` returns exactly when the back end is before its swap, or has all of them already.
-/

namespace HttpWebserver.LogSystem

open Machine

namespace LogState

variable {s s' : LogState}

/-! ## Where a step leads

The back end's place in its loop, and `running_`. Once it is cleared, the back end goes from the
test of the loop to its end. -/

/-- A step of the back end moves it, and leaves `running_` and the call of `stop` alone. -/
structure Moves (s s' : LogState) (pos : Position) : Prop where
  position : s'.position = pos
  running : s'.logging.running = s.logging.running
  stop : s'.stop = s.stop

theorem swapBuffers_moves (hs : s.swapBuffers = some s') : Moves s s' .trimming := by
  simp only [swapBuffers] at hs
  split at hs
  · cases hs
  · cases hs
    exact ⟨rfl, rfl, rfl⟩

theorem lockBuffers_moves (hs : s.lockBuffers = some s') :
    (s.logging.buffers = [] ∧ Moves s s' .waiting) ∨
      (s.logging.buffers ≠ [] ∧ Moves s s' .trimming) := by
  unfold lockBuffers at hs
  split at hs
  · split at hs
    · next hempty =>
        cases hs
        exact .inl ⟨hempty, rfl, rfl, rfl⟩
    · next hfull => exact .inr ⟨hfull, swapBuffers_moves hs⟩
  · cases hs

theorem writeBuffer_moves {i : Nat} {p : BufferPtr} (hs : s.writeBuffer i p = some s') :
    Moves s s' (.writing (i + 1)) := by
  obtain ⟨b, -, hb⟩ := Option.bind_eq_some_iff.mp hs
  cases hb
  exact ⟨rfl, rfl, rfl⟩

theorem recycle_moves (hs : s.recycle = some s') : Moves s s' .test := by
  obtain ⟨⟨p, written, heap⟩, -, hs⟩ := Option.bind_eq_some_iff.mp hs
  obtain ⟨⟨q, written', heap'⟩, -, hs⟩ := Option.bind_eq_some_iff.mp hs
  cases hs
  exact ⟨rfl, rfl, rfl⟩

/-- Before the swap, the back end waits or swaps. -/
theorem backEnd_beforeSwap (hpos : s.BeforeSwap) (hs : s.step .backEnd = some s') :
    s'.BeforeSwap ∨ (s.position = .waiting ∨ (s.position = .locking ∧ s.logging.buffers ≠ [])) := by
  rcases hpos with hpos | hpos
  · simp only [step, backEndStep, hpos] at hs
    rcases lockBuffers_moves hs with ⟨-, hmoves⟩ | ⟨hfull, -⟩
    · exact .inl (.inr hmoves.position)
    · exact .inr (.inr ⟨hpos, hfull⟩)
  · exact .inr (.inl hpos)

/-- Once `running_` is cleared, no iteration begins. -/
structure Leaving (s : LogState) : Prop where
  running : s.logging.running = false
  latched : s.Latched
  afterSwap : ¬ s.BeforeSwap

theorem Leaving.moves {pos : Position} (hl : s.Leaving) (hm : Moves s s' pos)
    (hpos : pos ≠ .unstarted ∧ pos ≠ .spawned ∧ pos ≠ .locking ∧ pos ≠ .waiting) :
    s'.Leaving := by
  refine ⟨hm.running.trans hl.running, ?_, ?_⟩
  · rw [Latched, hm.position]
    exact ⟨hpos.1, hpos.2.1⟩
  · rintro (h | h) <;> rw [hm.position] at h
    · exact hpos.2.2.1 h
    · exact hpos.2.2.2 h

theorem backEnd_leaving (hl : s.Leaving) (hs : s.step .backEnd = some s') : s'.Leaving := by
  simp only [step, backEndStep] at hs
  cases hpos : s.position with
  | unstarted => exact absurd hpos hl.latched.1
  | spawned => exact absurd hpos hl.latched.2
  | locking => exact absurd (.inl hpos) hl.afterSwap
  | waiting => exact absurd (.inr hpos) hl.afterSwap
  | opening =>
      rw [hpos] at hs
      cases hs
      exact hl.moves (show Moves s s.openLog .test from ⟨rfl, rfl, rfl⟩) (by decide)
  -- the test of `running_` leads out of the loop now
  | test =>
      rw [hpos] at hs
      simp only [hl.running, Bool.false_eq_true, if_false, Option.some.injEq] at hs
      subst hs
      exact hl.moves (show Moves s { s with position := .exiting } .exiting from ⟨rfl, rfl, rfl⟩)
        (by decide)
  | trimming =>
      rw [hpos] at hs
      cases hs
      exact hl.moves (show Moves s s.trimBuffers (.writing 0) from ⟨rfl, rfl, rfl⟩) (by decide)
  | writing i =>
      rw [hpos] at hs
      cases hq : s.locals.buffersToWrite[i]? with
      | some q =>
          simp only [hq] at hs
          exact hl.moves (writeBuffer_moves hs) (by simp)
      | none =>
          simp only [hq] at hs
          exact hl.moves (recycle_moves hs) (by decide)
  | exiting =>
      rw [hpos] at hs
      cases hs
      exact hl.moves (show Moves s { s with position := .finished } .finished from ⟨rfl, rfl, rfl⟩)
        (by decide)
  | finished =>
      rw [hpos] at hs
      cases hs

/-- The other threads do not move the back end, except for the one `start`. -/
theorem other_moves {l : Label} (hl : l ≠ .backEnd) (hs : s.step l = some s') :
    (s'.position = s.position ∧ (s.logging.running = false → s'.logging.running = false)) ∨
      s.position = .unstarted := by
  cases l with
  | append line =>
      obtain ⟨a, ha, hs⟩ := Option.map_eq_some_iff.mp hs
      subst hs
      refine .inl ⟨rfl, fun hrun => ?_⟩
      obtain ⟨b, -, ha⟩ := Option.bind_eq_some_iff.mp ha
      obtain ⟨heap, -, ha⟩ := Option.bind_eq_some_iff.mp ha
      cases ha
      -- `roll` copies the other members
      show (if _ then s.logging else s.logging.roll).running = false
      split
      · exact hrun
      · unfold AsyncLogging.roll
        simp only
        split <;> exact hrun
  | start =>
      simp only [step] at hs
      split at hs
      · next hpos => exact .inr hpos
      · cases hs
  | backEnd => exact absurd rfl hl
  | stop =>
      refine .inl ?_
      simp only [step, stopStep] at hs
      split at hs
      · split at hs
        · cases hs; exact ⟨rfl, id⟩
        · cases hs
      · cases hs; exact ⟨rfl, fun _ => rfl⟩
      · cases hs; exact ⟨rfl, id⟩
      · split at hs
        · cases hs; exact ⟨rfl, id⟩
        · cases hs
      · cases hs

theorem step_leaving (hl : s.Leaving) {l : Label} (hs : s.step l = some s') :
    s'.Leaving ∧ s.swapped l = [] := by
  by_cases hback : l = .backEnd
  · subst hback
    refine ⟨backEnd_leaving hl hs, if_neg ?_⟩
    rintro (hpos | ⟨hpos, -⟩)
    · exact hl.afterSwap (.inr hpos)
    · exact hl.afterSwap (.inl hpos)
  · rcases other_moves hback hs with ⟨hpos, hrun⟩ | hpos
    · refine ⟨⟨hrun hl.running, ?_, ?_⟩, ?_⟩
      · rw [Latched, hpos]
        exact hl.latched
      · rw [BeforeSwap, hpos]
        exact hl.afterSwap
      · cases l with
        | backEnd => exact absurd rfl hback
        | append line => rfl
        | start => rfl
        | stop => rfl
    · exact absurd hpos hl.latched.1

theorem backEnd_stop (hs : s.step .backEnd = some s') :
    s'.stop = s.stop ∧ s.position ≠ .finished := by
  simp only [step, backEndStep] at hs
  cases hpos : s.position <;> rw [hpos] at hs
  case unstarted => cases hs
  case spawned =>
    simp only at hs
    split at hs
    · cases hs
      exact ⟨rfl, by decide⟩
    · cases hs
  case locking =>
    rcases lockBuffers_moves hs with ⟨-, hmoves⟩ | ⟨-, hmoves⟩ <;> exact ⟨hmoves.stop, by decide⟩
  case waiting => exact ⟨(swapBuffers_moves hs).stop, by decide⟩
  case writing i =>
    cases hq : s.locals.buffersToWrite[i]? with
    | some q =>
        simp only [hq] at hs
        exact ⟨(writeBuffer_moves hs).stop, by simp⟩
    | none =>
        simp only [hq] at hs
        exact ⟨(recycle_moves hs).stop, by simp⟩
  case finished => cases hs
  case opening => cases hs; exact ⟨rfl, by decide⟩
  case test => cases hs; exact ⟨rfl, by decide⟩
  case trimming => cases hs; exact ⟨rfl, by decide⟩
  case exiting => cases hs; exact ⟨rfl, by decide⟩

/-- `stop` returns only when the back end has finished. -/
theorem returned_finished {ls : List Label} (hrun : exec step new ls = some s)
    (hstop : s.stop = .returned) : s.position = .finished := by
  refine exec_induction (P := fun _ s => s.stop = .returned → s.position = .finished)
    (fun h => by cases h) ?_ hrun hstop
  intro ls s l s' _ ih hstep hret
  cases l with
  | append line =>
      obtain ⟨a, -, hs'⟩ := Option.map_eq_some_iff.mp hstep
      subst hs'
      exact ih hret
  | start =>
      simp only [step] at hstep
      split at hstep
      · next hpos =>
          cases hstep
          rw [ih hret] at hpos
          cases hpos
      · cases hstep
  | backEnd =>
      -- the call of `stop` has returned already, so there is no such step
      obtain ⟨hsame, hfinish⟩ := backEnd_stop hstep
      exact absurd (ih (hsame.symm.trans hret)) hfinish
  | stop =>
      simp only [step, stopStep] at hstep
      split at hstep
      · split at hstep <;> cases hstep
        cases hret
      · cases hstep
        cases hret
      · cases hstep
        cases hret
      · split at hstep
        · next hpos =>
            cases hstep
            exact hpos
        · cases hstep
      · cases hstep

end LogState

/-! ## The rest of the run

Two cases, by whether the back end was before the swap of an iteration when `running_` was
cleared. -/

theorem contents_flatten_map (h : BufferHeap) (ps : List BufferPtr) :
    (ps.map fun p => LogState.contents h [p]).flatten = LogState.contents h ps := by
  simp [LogState.contents, List.flatMap]

section Rest

variable {ls js : List Label} {s t : LogState}

/-- Behind the swap the back end takes nothing more. -/
theorem afterSwap_keeps (hs : exec LogState.step LogState.new ls = some s) (hl : s.Leaving)
    (hrun : exec LogState.step s js = some t) :
    t.Leaving ∧ LogState.batches (ls ++ js) = LogState.batches ls := by
  refine exec_induction (P := fun js t => t.Leaving ∧
    LogState.batches (ls ++ js) = LogState.batches ls) ⟨hl, by rw [List.append_nil]⟩ ?_ hrun
  rintro js t l t' ht ⟨hleaving, hbatches⟩ hstep
  obtain ⟨hleaving', hswap⟩ := LogState.step_leaving hleaving hstep
  have hexec : exec LogState.step LogState.new (ls ++ js) = some t :=
    exec_append_eq_some.mpr ⟨s, hs, ht⟩
  refine ⟨hleaving', ?_⟩
  rw [← List.append_assoc, LogState.batches, emitted_concat hexec, hswap, List.append_nil]
  exact hbatches

/-- Before the swap, whatever was appended so far is still going to be taken. -/
theorem beforeSwap_drains {bytes : List UInt8}
    (hs : exec LogState.step LogState.new ls = some s) (hpos : s.BeforeSwap)
    (hbytes : bytes <+: (LogState.appended ls).flatten)
    (hrun : exec LogState.step s js = some t) :
    t.BeforeSwap ∨ bytes <+: (LogState.batches (ls ++ js)).flatten.flatten := by
  refine exec_induction (P := fun js t => t.BeforeSwap ∨
    bytes <+: (LogState.batches (ls ++ js)).flatten.flatten) (.inl hpos) ?_ hrun
  intro js t l t' ht ih hstep
  have hexec : exec LogState.step LogState.new (ls ++ js) = some t :=
    exec_append_eq_some.mpr ⟨s, hs, ht⟩
  have hbatches : LogState.batches (ls ++ (js ++ [l]))
      = LogState.batches (ls ++ js) ++ t.swapped l := by
    rw [← List.append_assoc]
    exact emitted_concat hexec l
  rcases ih with hbefore | htaken
  · by_cases hback : l = .backEnd
    · subst hback
      rcases LogState.backEnd_beforeSwap hbefore hstep with hbefore' | hswap
      · exact .inl hbefore'
      · -- the swap takes the front end, so everything appended so far
        have hall := batches_contents hexec
        have htaken : (LogState.batches (ls ++ (js ++ [.backEnd]))).flatten.flatten
            = (LogState.appended ls).flatten ++ (LogState.appended js).flatten := by
          rw [hbatches, LogState.swapped, if_pos hswap, List.flatten_append, List.flatten_append,
            List.flatten_singleton, contents_flatten_map, hall, ← List.flatten_append]
          exact congrArg List.flatten List.filterMap_append
        refine .inr (hbytes.trans ?_)
        rw [htaken]
        exact List.prefix_append _ _
    · rcases LogState.other_moves hback hstep with ⟨hpos', -⟩ | hpos'
      · refine .inl ?_
        rw [LogState.BeforeSwap, hpos']
        exact hbefore
      · rcases hbefore with h | h <;> rw [hpos'] at h <;> cases h
  · refine .inr (htaken.trans ?_)
    rw [hbatches, List.flatten_append, List.flatten_append]
    exact List.prefix_append _ _

end Rest

/-! ## `stop` -/

/-- The lines are in the file: it begins with them, in their order. -/
def Logged (lines : List (List UInt8)) (file : List UInt8) : Prop := lines.flatten <+: file

/-- **When `stop` drains the log.** In a run the call of `stop` comes after `pre`, it clears
`running_` after `mid` in the state `s`, and has returned in the state `t`. The lines of `pre` are
then in the file if and only if the back end was before the swap of an iteration when
`running_` was cleared, or had taken all of these lines already. -/
theorem stop_drains_iff {pre mid post : List Label} {s t : LogState}
    (hs : exec LogState.step LogState.new (pre ++ .stop :: mid) = some s) (hcall : s.stop = .called)
    (ht : exec LogState.step s (.stop :: post) = some t) (hret : t.stop = .returned)
    (hsmall : ∀ batch ∈ LogState.batches (pre ++ .stop :: mid ++ .stop :: post), batch.length ≤ 25) :
    Logged (LogState.appended pre) t.locals.output ↔
      s.BeforeSwap ∨ Logged (LogState.appended pre)
        (s.locals.output ++ LogState.contents s.logging.heap s.unwritten) := by
  have hall : exec LogState.step LogState.new (pre ++ .stop :: mid ++ .stop :: post) = some t :=
    exec_append_eq_some.mpr ⟨s, hs, ht⟩
  have hfinish := LogState.returned_finished hall hret
  -- nothing is left to write
  have hfile : t.locals.output
      = (LogState.batches (pre ++ .stop :: mid ++ .stop :: post)).flatten.flatten := by
    have hout := output_contents hall
    rw [List.map_congr_left fun batch hb => keepBatch_of_le (hsmall batch hb), List.map_id'] at hout
    rw [← hout, LogState.unwritten, hfinish]
    exact (List.append_nil _).symm
  by_cases hpos : s.BeforeSwap
  · refine iff_of_true ?_ (.inl hpos)
    have hpre : (LogState.appended pre).flatten
        <+: (LogState.appended (pre ++ .stop :: mid)).flatten := by
      rw [LogState.appended, List.filterMap_append, List.flatten_append]
      exact List.prefix_append _ _
    rcases beforeSwap_drains hs hpos hpre ht with hbefore | htaken
    · rcases hbefore with h | h <;> rw [hfinish] at h <;> cases h
    · rw [Logged, hfile]
      exact htaken
  · obtain ⟨u, hu, hpost⟩ := Option.bind_eq_some_iff.mp ht
    have hlatched : s.Latched := by
      obtain ⟨p, hr, -, -⟩ := run_represents hs
      exact hr.latched (by rw [hcall]; nofun)
    simp only [LogState.step, LogState.stopStep, hcall, Option.some.injEq] at hu
    have hleaving : u.Leaving := by
      subst hu
      exact ⟨rfl, hlatched, hpos⟩
    have hclear : exec LogState.step LogState.new (pre ++ .stop :: mid ++ [.stop]) = some u := by
      refine exec_concat_eq_some.mpr ⟨s, hs, ?_⟩
      simp only [LogState.step, LogState.stopStep, hcall, hu]
    -- no batch was swapped out after the state `s`
    have hbatches : LogState.batches (pre ++ .stop :: mid ++ .stop :: post)
        = LogState.batches (pre ++ .stop :: mid) := by
      rw [List.append_cons (pre ++ .stop :: mid), (afterSwap_keeps hclear hleaving hpost).2,
        LogState.batches, emitted_concat hs]
      exact List.append_nil _
    have hout := output_contents hs
    rw [← hbatches, List.map_congr_left fun batch hb => keepBatch_of_le (hsmall batch hb),
      List.map_id'] at hout
    rw [hout, ← hfile]
    exact (or_iff_right hpos).symm

/-- The back end is at the lock when `running_` is cleared. -/
def drainedCall : List Label := [.append (byteLine 97), .start, .backEnd, .backEnd, .backEnd]

def drainedRest : List Label :=
  [.backEnd, .backEnd, .backEnd, .backEnd, .backEnd, .backEnd, .backEnd, .stop, .stop]

/-- The state in which `running_` is cleared, and the one in which `stop` has returned. -/
def drainedAt : LogState where
  logging := { running := true, currentBuffer := some 0, nextBuffer := some 1, buffers := []
               heap := [⟨[97], by decide⟩, .new, .new, .new] }
  locals := { newBuffer1 := some 2, newBuffer2 := some 3, buffersToWrite := [], output := [] }
  position := .locking
  stop := .called

def drainedAfter : LogState where
  logging := { running := false, currentBuffer := some 2, nextBuffer := some 1, buffers := []
               heap := [.new, .new, .new, .new] }
  locals := { newBuffer1 := some 0, newBuffer2 := some 3, buffersToWrite := [], output := [97] }
  position := .finished
  stop := .returned

theorem stop_drains_iff_sample :
    exec LogState.step LogState.new (drainedCall ++ .stop :: []) = some drainedAt ∧
      exec LogState.step drainedAt (.stop :: drainedRest) = some drainedAfter ∧
      (Logged (LogState.appended drainedCall) drainedAfter.locals.output ↔
        drainedAt.BeforeSwap ∨ Logged (LogState.appended drainedCall)
          (drainedAt.locals.output
            ++ LogState.contents drainedAt.logging.heap drainedAt.unwritten)) := by
  have hs : exec LogState.step LogState.new (drainedCall ++ .stop :: []) = some drainedAt := rfl
  have ht : exec LogState.step drainedAt (.stop :: drainedRest) = some drainedAfter := rfl
  refine ⟨hs, ht, stop_drains_iff hs rfl ht rfl fun batch hb => ?_⟩
  have hbatch : batch = [[97]] := List.mem_singleton.mp hb
  rw [hbatch]
  decide

/-- The back end is before its first iteration when `running_` is cleared. -/
def lostCall : List Label := [.append (byteLine 97), .start, .backEnd]

def lostRest : List Label := [.backEnd, .backEnd, .backEnd, .stop, .stop]

theorem stop_loses_line :
    ∃ s, exec LogState.step LogState.new (lostCall ++ .stop :: .stop :: lostRest) = some s ∧
      s.stop = .returned ∧
      (∀ batch ∈ LogState.batches (lostCall ++ .stop :: .stop :: lostRest), batch.length ≤ 25) ∧
      LogState.appended lostCall = [[97]] ∧ s.locals.output = [] ∧
      ¬ Logged (LogState.appended lostCall) s.locals.output := by
  refine ⟨_, rfl, rfl, fun batch hb => ?_, rfl, rfl, fun h => ?_⟩
  · cases hb
  · exact absurd (List.prefix_nil.mp h) (by decide)

end HttpWebserver.LogSystem
