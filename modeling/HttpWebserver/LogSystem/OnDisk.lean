import HttpWebserver.LogSystem.DoubleBuffer
import HttpWebserver.LogSystem.LogFile

/-!
# LogSystem — from the logger to the file

In `LogState` the back end hands a buffer to `output` in one step. Here the call of
`LogFile::append` is what it is: it takes the mutex of the file and writes in rounds, and the front
ends go on in the meantime.

* `OnDisk.step`: `write` is the call; the rounds are steps of the file, and the back end waits for
  the call to return;
* `inHand`: the buffer of the call, read from the heap as it is now and not as it was at the call;
* **`on_disk`** — both parts take steps of their own models. As long as no write has failed, what
  the file lacks of `output` is the rest of the buffer in hand, so between two calls the file is
  made of whole lines, in order.
-/

namespace HttpWebserver.LogSystem

open Machine
open LogState (keepBatch)

/-- The logger with its file, which only the back end uses: it opens it, empty, before its loop. -/
structure OnDisk where
  log : LogState
  file : LogFile Unit

namespace OnDisk

def new : OnDisk where
  log := LogState.new
  file := LogFile.new

inductive Label where
  /-- A step of the logger other than a call of `LogFile::append`. -/
  | log (l : LogSystem.Label)
  /-- The call of `output.append`. -/
  | write
  /-- A step of the file in a call. -/
  | file (l : LogFile.Label Unit)

/-- The data of a buffer of the batch. -/
def buffer (s : OnDisk) (i : Nat) : Option (List UInt8) :=
  s.log.locals.buffersToWrite[i]?.bind fun p => (deref s.log.logging.heap p).map FixedBuffer.data

/-- The data of the buffer that the back end writes next, if it is in the write loop. -/
def toWrite (s : OnDisk) : Option (List UInt8) :=
  match s.log.position with
  | .writing i => s.buffer i
  | _ => none

/-- The data of the buffer that the back end has handed to the file last. -/
def inHand (s : OnDisk) : Option (List UInt8) :=
  match s.log.position with
  | .writing (i + 1) => s.buffer i
  | _ => none

def step (s : OnDisk) : Label → Option OnDisk
  | .log l =>
    match l with
    | .backEnd =>
      if s.toWrite = none ∧ s.file.call () = .idle then
        (s.log.step .backEnd).map fun log => { s with log := log }
      else none
    | l => (s.log.step l).map fun log => { s with log := log }
  | .write => s.toWrite.bind fun data =>
    (s.file.step (.append () data)).bind fun file =>
      (s.log.step .backEnd).map fun log => { log := log, file := file }
  | .file l =>
    match l with
    | .append .. => none
    | l => (s.file.step l).map fun file => { s with file := file }

/-- The step as one of the logger. -/
def logLabels (_ : OnDisk) : Label → List LogSystem.Label
  | .log l => [l]
  | .write => [.backEnd]
  | .file _ => []

/-- The step as one of the file. -/
def fileLabels (s : OnDisk) : Label → List (LogFile.Label Unit)
  | .log _ => []
  | .write => s.toWrite.toList.map (.append ())
  | .file l => [l]

/-- What the file has still to take of the buffer in hand. -/
def rest (s : OnDisk) : List UInt8 :=
  match s.file.call () with
  | .idle => []
  | .locking _ => s.inHand.getD []
  | .writing _ written => (s.inHand.getD []).drop written

/-- The record of a call is the buffer in hand, and the file has `output` up to the rest of it. -/
structure Inv (s : OnDisk) : Prop where
  record : ∀ logline, s.file.call () = .locking logline ∨
    (∃ written, s.file.call () = .writing logline written) → s.inHand = some logline
  output : s.file.error = false → s.file.bytes ++ s.rest = s.log.locals.output

section Step

variable {s s' : OnDisk} {l : Label} {ls : List Label} {p : Pipeline (List UInt8)}

theorem log_step {k : LogSystem.Label} (hs : step s (.log k) = some s') :
    ∃ log, s.log.step k = some log ∧ s' = { s with log := log } ∧
      (k = .backEnd → s.toWrite = none ∧ s.file.call () = .idle) := by
  cases k with
  | append line =>
    obtain ⟨log, hlog, heq⟩ := Option.map_eq_some_iff.mp hs
    exact ⟨log, hlog, heq.symm, fun h => by cases h⟩
  | start =>
    obtain ⟨log, hlog, heq⟩ := Option.map_eq_some_iff.mp hs
    exact ⟨log, hlog, heq.symm, fun h => by cases h⟩
  | backEnd =>
    simp only [step] at hs
    split at hs
    · next hcond =>
      obtain ⟨log, hlog, heq⟩ := Option.map_eq_some_iff.mp hs
      exact ⟨log, hlog, heq.symm, fun _ => hcond⟩
    · cases hs
  | stop =>
    obtain ⟨log, hlog, heq⟩ := Option.map_eq_some_iff.mp hs
    exact ⟨log, hlog, heq.symm, fun h => by cases h⟩

theorem write_step (hs : step s .write = some s') :
    ∃ data file log, s.toWrite = some data ∧ s.file.step (.append () data) = some file ∧
      s.log.step .backEnd = some log ∧ s' = { log := log, file := file } := by
  obtain ⟨data, hdata, hs⟩ := Option.bind_eq_some_iff.mp hs
  obtain ⟨file, hfile, hs⟩ := Option.bind_eq_some_iff.mp hs
  obtain ⟨log, hlog, heq⟩ := Option.map_eq_some_iff.mp hs
  exact ⟨data, file, log, hdata, hfile, hlog, heq.symm⟩

theorem file_step {k : LogFile.Label Unit} (hs : step s (.file k) = some s') :
    ∃ file, s.file.step k = some file ∧ s' = { s with file := file } ∧
      ∀ t data, k ≠ .append t data := by
  have hmap : (∀ t data, k ≠ .append t data) ∧
      (s.file.step k).map (fun file => { s with file := file }) = some s' := by
    cases k with
    | append t data => cases hs
    | lock t => exact ⟨nofun, hs⟩
    | fwrite t n err => exact ⟨nofun, hs⟩
    | finish t => exact ⟨nofun, hs⟩
    | flush t => exact ⟨nofun, hs⟩
  obtain ⟨file, hfile, heq⟩ := Option.map_eq_some_iff.mp hmap.2
  exact ⟨file, hfile, heq.symm, hmap.1⟩

theorem rest_idle (hidle : s.file.call () = .idle) : s.rest = [] := by
  rw [rest, hidle]

/-- Before the write loop no call is going on. -/
theorem Inv.idle (h : Inv s) (hhand : s.inHand = none) : s.file.call () = .idle := by
  have hnone : ∀ logline, s.inHand ≠ some logline := fun logline heq => by
    rw [hhand] at heq
    cases heq
  cases hcall : s.file.call () with
  | idle => rfl
  | locking logline => exact absurd (h.record logline (.inl hcall)) (hnone logline)
  | writing logline written =>
    exact absurd (h.record logline (.inr ⟨written, hcall⟩)) (hnone logline)

/-- Where no call is going on, the file has `output`. -/
theorem inv_idle (hidle : s.file.call () = .idle)
    (hout : s.file.error = false → s.file.bytes = s.log.locals.output) : Inv s := by
  refine ⟨fun logline hcall => ?_, fun hfine => ?_⟩
  · rw [hidle] at hcall
    rcases hcall with hcall | ⟨written, hcall⟩ <;> cases hcall
  · rw [rest_idle hidle, List.append_nil]
    exact hout hfine

theorem inv_locking {logline : List UInt8} (hcall : s.file.call () = .locking logline)
    (hhand : s.inHand = some logline)
    (hout : s.file.error = false → s.file.bytes ++ logline = s.log.locals.output) : Inv s := by
  refine ⟨fun logline' hnext => ?_, fun hfine => ?_⟩
  · rw [hcall] at hnext
    rcases hnext with hnext | ⟨written, hnext⟩ <;> cases hnext
    exact hhand
  · have hrest : s.rest = logline := by simp only [rest, hcall, hhand, Option.getD_some]
    rw [hrest]
    exact hout hfine

theorem inv_writing {logline : List UInt8} {written : Nat}
    (hcall : s.file.call () = .writing logline written) (hhand : s.inHand = some logline)
    (hout : s.file.error = false → s.file.bytes ++ logline.drop written = s.log.locals.output) :
    Inv s := by
  refine ⟨fun logline' hnext => ?_, fun hfine => ?_⟩
  · rw [hcall] at hnext
    rcases hnext with hnext | ⟨written, hnext⟩ <;> cases hnext
    exact hhand
  · have hrest : s.rest = logline.drop written := by
      simp only [rest, hcall, hhand, Option.getD_some]
    rw [hrest]
    exact hout hfine

theorem Inv.writing (h : Inv s) {logline : List UInt8} {written : Nat}
    (hcall : s.file.call () = .writing logline written) : s.inHand = some logline ∧
      (s.file.error = false → s.file.bytes ++ logline.drop written = s.log.locals.output) := by
  have hhand := h.record logline (.inr ⟨written, hcall⟩)
  have hrest : s.rest = logline.drop written := by simp only [rest, hcall, hhand, Option.getD_some]
  exact ⟨hhand, hrest ▸ h.output⟩

/-! ## The steps of the logger

The front ends and the back end work on while a call on the file is going on. What is left to
write of the buffer in hand must not change by that. -/

/-- A step of the logger that leaves the back end where it is and the buffers of the batch as they
are. -/
theorem Inv.frame (h : Inv s) {log : LogState} (hpos : log.position = s.log.position)
    (hlocals : log.locals = s.log.locals)
    (hkeeps : Keeps s.log.logging.heap log.logging.heap (back s.log.locals)) :
    Inv { s with log := log } := by
  -- the buffer in hand is one of the back end's, and those kept their contents
  have hhand : ∀ data, s.inHand = some data → inHand { s with log := log } = some data := by
    intro data hdata
    unfold inHand at hdata ⊢
    show (match log.position with
      | .writing (i + 1) => buffer { s with log := log } i
      | _ => none) = some data
    rw [hpos]
    split at hdata
    · next i _ =>
      obtain ⟨q, hq, hbuf⟩ := Option.bind_eq_some_iff.mp hdata
      obtain ⟨b, hb, hbdata⟩ := Option.map_eq_some_iff.mp hbuf
      have hmem : q ∈ back s.log.locals :=
        List.mem_cons_of_mem _ (List.mem_cons_of_mem _ (List.mem_of_getElem? hq))
      show (log.locals.buffersToWrite[i]?.bind fun q =>
        (deref log.logging.heap q).map FixedBuffer.data) = some data
      rw [hlocals, hq, Option.bind_some, hkeeps q hmem b hb, Option.map_some, hbdata]
    · cases hdata
  refine ⟨fun logline hcall => hhand logline (h.record logline hcall), fun hfine => ?_⟩
  have hout := h.output hfine
  show s.file.bytes ++ rest { s with log := log } = log.locals.output
  rw [hlocals, ← hout]
  congr 1
  unfold rest
  -- what is left to write is the same, wherever the call on the file is
  cases hcall : s.file.call () with
  | idle => rfl
  | locking logline =>
    have hdata := h.record logline (.inl hcall)
    show (inHand { s with log := log }).getD [] = s.inHand.getD []
    rw [hhand logline hdata, hdata]
  | writing logline written =>
    have hdata := h.record logline (.inr ⟨written, hcall⟩)
    show ((inHand { s with log := log }).getD []).drop written = (s.inHand.getD []).drop written
    rw [hhand logline hdata, hdata]

/-- An append of a front end, which may come in the middle of a call. -/
theorem Inv.append (h : Inv s) (hr : Represents s.log p) {line : Line} {log : LogState}
    (hs : s.log.step (.append line) = some log) : Inv { s with log := log } := by
  obtain ⟨a, -, happend, -, -, hkeeps, -, -, -⟩ := append_spec hr.frontEnd hr.owned line
  simp only [LogState.step, happend, Option.map_some, Option.some.injEq] at hs
  cases hs
  exact h.frame rfl rfl hkeeps

theorem Inv.stop (h : Inv s) {log : LogState} (hs : s.log.step .stop = some log) :
    Inv { s with log := log } := by
  simp only [LogState.step, LogState.stopStep] at hs
  split at hs
  · split at hs
    · cases hs
      exact h.frame rfl rfl fun _ _ _ hb => hb
    · cases hs
  · cases hs
    exact h.frame rfl rfl fun _ _ _ hb => hb
  · cases hs
    exact h.frame rfl rfl fun _ _ _ hb => hb
  · split at hs
    · cases hs
      exact h.frame rfl rfl fun _ _ _ hb => hb
    · cases hs
  · cases hs

theorem Inv.start (h : Inv s) {log : LogState} (hs : s.log.step .start = some log) :
    Inv { s with log := log } := by
  simp only [LogState.step] at hs
  split at hs
  · next hpos =>
    cases hs
    have hidle := h.idle (by rw [inHand, hpos])
    refine inv_idle hidle fun hfine => ?_
    have hout := h.output hfine
    rwa [rest_idle hidle, List.append_nil] at hout
  · cases hs

theorem swap_output {log log' : LogState} (hs : log.swapBuffers = some log') :
    log'.locals.output = log.locals.output := by
  simp only [LogState.swapBuffers] at hs
  split at hs
  · cases hs
  · cases hs
    rfl

theorem recycle_output {log log' : LogState} (hs : log.recycle = some log') :
    log'.locals.output = log.locals.output := by
  obtain ⟨r₁, -, hs⟩ := Option.bind_eq_some_iff.mp hs
  obtain ⟨r₂, -, hs⟩ := Option.bind_eq_some_iff.mp hs
  cases hs
  rfl

/-- Only the call of `LogFile::append` adds to `output`. -/
theorem backEnd_output (hr : Represents s.log p) (hnone : s.toWrite = none) {log : LogState}
    (hs : s.log.step .backEnd = some log) : log.locals.output = s.log.locals.output := by
  have hb := hr.backEnd
  simp only [LogState.step, LogState.backEndStep] at hs
  cases hpos : s.log.position with
  | unstarted =>
    rw [hpos] at hs
    cases hs
  | spawned =>
    simp only [hpos] at hs
    split at hs
    · cases hs
      rfl
    · cases hs
  | opening =>
    -- the file that is opened is empty, and nothing has been written
    rw [hpos] at hb hs
    cases hs
    rw [hb.1]
    rfl
  | test =>
    simp only [hpos] at hs
    cases hs
    rfl
  | locking =>
    simp only [hpos, LogState.lockBuffers] at hs
    split at hs
    · split at hs
      · cases hs
        rfl
      · exact swap_output hs
    · cases hs
  | waiting =>
    simp only [hpos] at hs
    exact swap_output hs
  | trimming =>
    simp only [hpos] at hs
    cases hs
    rfl
  | writing i =>
    simp only [hpos] at hs
    cases hq : s.log.locals.buffersToWrite[i]? with
    | some q =>
      -- the buffer is there, so this is the call
      obtain ⟨log', hwrite, -⟩ := write_represents hr hpos hq
      obtain ⟨b, hb, -⟩ := Option.bind_eq_some_iff.mp hwrite
      have hdata : s.toWrite = some b.data := by
        rw [toWrite, hpos]
        show s.buffer i = _
        rw [buffer, hq, Option.bind_some, hb, Option.map_some]
      rw [hnone] at hdata
      cases hdata
    | none =>
      simp only [hq] at hs
      exact recycle_output hs
  | exiting =>
    simp only [hpos] at hs
    cases hs
    rfl
  | finished =>
    simp only [hpos] at hs
    cases hs

/-! ## The call

The steps of `LogFile` for the one thread that uses it. -/

/-- The call hands the buffer to the file. -/
theorem Inv.write (h : Inv s) {data : List UInt8} {file : LogFile Unit} {log : LogState}
    (hdata : s.toWrite = some data) (hfile : s.file.step (.append () data) = some file)
    (hlog : s.log.step .backEnd = some log) : Inv { log := log, file := file } := by
  simp only [LogFile.step] at hfile
  split at hfile
  · next hidle =>
    cases hfile
    unfold toWrite at hdata
    split at hdata
    · next i hpos =>
      obtain ⟨q, hq, hbuf⟩ := Option.bind_eq_some_iff.mp hdata
      obtain ⟨b, hb, hbdata⟩ := Option.map_eq_some_iff.mp hbuf
      simp only [LogState.step, LogState.backEndStep, hpos, hq, LogState.writeBuffer, hb,
        Option.bind_eq_bind, Option.bind_some, Option.some.injEq] at hlog
      cases hlog
      refine inv_locking (LogFile.goto_call_self _) hdata fun hfine => ?_
      have hout := h.output hfine
      rw [rest_idle hidle, List.append_nil] at hout
      show s.file.bytes ++ data = s.log.locals.output ++ b.data
      rw [hout, hbdata]
    · cases hdata
  · cases hfile

theorem Inv.lock (h : Inv s) {file : LogFile Unit} (hs : s.file.step (.lock ()) = some file) :
    Inv { s with file := file } := by
  simp only [LogFile.step] at hs
  split at hs
  · next logline hcall _ =>
    cases hs
    have hhand := h.record logline (.inl hcall)
    refine inv_writing (LogFile.goto_call_self (s := s.file) (t := ()) _) hhand fun hfine => ?_
    have hout := h.output hfine
    simp only [rest, hcall, hhand, Option.getD_some] at hout
    exact hout
  · cases hs

theorem Inv.fwrite (h : Inv s) {n : Nat} {err : Bool} {file : LogFile Unit}
    (hs : s.file.step (.fwrite () n err) = some file) : Inv { s with file := file } := by
  simp only [LogFile.step] at hs
  split at hs
  · next logline written hcall =>
    obtain ⟨hhand, hout⟩ := h.writing hcall
    split at hs
    · split at hs
      · -- the call breaks off, so the indicator is set
        next hbreaks =>
        cases hs
        refine inv_idle (LogFile.goto_call_self (s := s.file) (t := ()) _) fun hfine => ?_
        have herr : (s.file.error || err) = true := hbreaks.2
        exact absurd (herr.symm.trans hfine) Bool.noConfusion
      · cases hs
        refine inv_writing (LogFile.goto_call_self (s := s.file) (t := ()) _) hhand fun hfine => ?_
        have hfine' : s.file.error = false := (Bool.or_eq_false_iff.mp hfine).1
        calc (s.file.bytes ++ (logline.drop written).take n) ++ logline.drop (written + n)
            = s.file.bytes ++ logline.drop written := by
              rw [← List.drop_drop, List.append_assoc, List.take_append_drop]
          _ = s.log.locals.output := hout hfine'
    · cases hs
  · cases hs

theorem Inv.finish (h : Inv s) {file : LogFile Unit}
    (hs : s.file.step (.finish ()) = some file) : Inv { s with file := file } := by
  simp only [LogFile.step] at hs
  split at hs
  · next logline written hcall =>
    split at hs
    · next hwritten =>
      cases hs
      refine inv_idle (LogFile.goto_call_self (s := s.file) (t := ()) _) fun hfine => ?_
      have hout := (h.writing hcall).2 hfine
      rw [hwritten, List.drop_length, List.append_nil] at hout
      exact hout
    · cases hs
  · cases hs

theorem Inv.flush (h : Inv s) {file : LogFile Unit} (hs : s.file.step (.flush ()) = some file) :
    Inv { s with file := file } := by
  simp only [LogFile.step] at hs
  split at hs
  · cases hs
    exact h
  · cases hs

theorem step_inv (h : Inv s) (hr : Represents s.log p) (hs : step s l = some s') : Inv s' := by
  cases l with
  | log l =>
    obtain ⟨log, hlog, rfl, hcond⟩ := log_step hs
    cases l with
    | append line => exact h.append hr hlog
    | start => exact h.start hlog
    | backEnd =>
      obtain ⟨hwrite, hidle⟩ := hcond rfl
      refine inv_idle hidle fun hfine => ?_
      show s.file.bytes = log.locals.output
      have hout := h.output hfine
      rw [rest_idle hidle, List.append_nil] at hout
      rw [backEnd_output hr hwrite hlog, hout]
    | stop => exact h.stop hlog
  | write =>
    obtain ⟨data, file, log, hdata, hfile, hlog, rfl⟩ := write_step hs
    exact h.write hdata hfile hlog
  | file l =>
    obtain ⟨file, hfile, rfl, hnot⟩ := file_step hs
    cases l with
    | append t data => exact absurd rfl (hnot t data)
    | lock t => exact h.lock hfile
    | fwrite t n err => exact h.fwrite hfile
    | finish t => exact h.finish hfile
    | flush t => exact h.flush hfile

/-- A step is one of the logger and one of the file, or of one of them alone. -/
theorem step_parts (hs : step s l = some s') :
    exec LogState.step s.log (logLabels s l) = some s'.log ∧
      exec LogFile.step s.file (fileLabels s l) = some s'.file := by
  cases l with
  | log l =>
    obtain ⟨log, hlog, rfl, -⟩ := log_step hs
    exact ⟨Option.bind_eq_some_iff.mpr ⟨log, hlog, rfl⟩, rfl⟩
  | write =>
    obtain ⟨data, file, log, hdata, hfile, hlog, rfl⟩ := write_step hs
    refine ⟨Option.bind_eq_some_iff.mpr ⟨log, hlog, rfl⟩, ?_⟩
    show exec LogFile.step s.file (s.toWrite.toList.map (.append ())) = some file
    rw [hdata]
    exact Option.bind_eq_some_iff.mpr ⟨file, hfile, rfl⟩
  | file l =>
    obtain ⟨file, hfile, rfl, -⟩ := file_step hs
    exact ⟨rfl, Option.bind_eq_some_iff.mpr ⟨file, hfile, rfl⟩⟩

theorem run_log (hrun : exec step new ls = some s) :
    exec LogState.step LogState.new (emitted step logLabels new ls) = some s.log :=
  exec_simulated (v := OnDisk.log) (fun _ _ _ h => (step_parts h).1) hrun

theorem run_file (hrun : exec step new ls = some s) :
    exec LogFile.step LogFile.new (emitted step fileLabels new ls) = some s.file :=
  exec_simulated (v := OnDisk.file) (fun _ _ _ h => (step_parts h).2) hrun

theorem run_inv (hrun : exec step new ls = some s) : Inv s := by
  refine exec_induction (P := fun _ s => Inv s) (inv_idle rfl fun _ => rfl) ?_ hrun
  intro ls s l t hs hinv hl
  obtain ⟨p, hr, -, -⟩ := run_represents (run_log hs)
  exact step_inv hinv hr hl

/-- **What is on disk.** Every run of the logger with its file is a run of either part. As long as
no write has failed, the file and the rest of the buffer in hand, as the heap has it now, are
`output`; between two calls the file is made of whole lines, in the order of the lock; and when the
back end has finished, it is what `keepBatch` leaves of all batches. -/
theorem on_disk (hrun : exec step new ls = some s) :
    exec LogState.step LogState.new (emitted step logLabels new ls) = some s.log ∧
    exec LogFile.step LogFile.new (emitted step fileLabels new ls) = some s.file ∧
    (s.file.error = false →
      s.file.bytes ++ s.rest = s.log.locals.output ∧
      (s.file.call () = .idle → ∃ lines : List (List UInt8),
        lines.Sublist (LogState.appended (emitted step logLabels new ls)) ∧
        s.file.bytes = lines.flatten) ∧
      (s.log.position = .finished → s.file.bytes =
        ((LogState.batches (emitted step logLabels new ls)).map keepBatch).flatten.flatten)) := by
  have hlog := run_log hrun
  have hinv := run_inv hrun
  obtain ⟨p, hr, hinput, hbatches⟩ := run_represents hlog
  refine ⟨hlog, run_file hrun, fun hfine => ⟨hinv.output hfine, fun hidle => ?_, fun hpos => ?_⟩⟩
  · -- between two calls on the file nothing of a buffer is left
    have hout := hinv.output hfine
    rw [rest_idle hidle, List.append_nil] at hout
    rw [hout, ← hinput]
    exact output_lines hr
  · -- a back end that has finished has written all batches
    have hout := hinv.output hfine
    rw [rest_idle (hinv.idle (by rw [inHand, hpos])), List.append_nil] at hout
    have hunwritten : s.log.unwritten = [] := by rw [LogState.unwritten, hpos]
    have hall := backEnd_contents hr
    rw [hunwritten] at hall
    rw [hout, ← hbatches, written_flatten, ← hall]
    exact (List.append_nil _).symm

/-- A line is appended while the one before it is on its way to the file. -/
def inRounds : List Label :=
  [.log (.append (byteLine 97)), .log (.append (byteLine 98)), .log .start, .log .backEnd,
    .log .backEnd, .log .backEnd, .log .backEnd, .log .backEnd, .log .backEnd, .write,
    .file (.lock ()), .file (.fwrite () 1 false), .log (.append (byteLine 99))]

theorem on_disk_rounds :
    ∃ s, exec step new inRounds = some s ∧ s.file.bytes = [97] ∧ s.rest = [98] ∧
      exec LogState.step LogState.new (emitted step logLabels new inRounds) = some s.log ∧
      exec LogFile.step LogFile.new (emitted step fileLabels new inRounds) = some s.file ∧
      (s.file.error = false →
        s.file.bytes ++ s.rest = s.log.locals.output ∧
        (s.file.call () = .idle → ∃ lines : List (List UInt8),
          lines.Sublist (LogState.appended (emitted step logLabels new inRounds)) ∧
          s.file.bytes = lines.flatten) ∧
        (s.log.position = .finished → s.file.bytes =
          ((LogState.batches (emitted step logLabels new inRounds)).map
            keepBatch).flatten.flatten)) :=
  ⟨_, rfl, rfl, rfl, on_disk (show exec step new inRounds = _ from rfl)⟩

end Step

end OnDisk

end HttpWebserver.LogSystem
