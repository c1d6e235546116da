import HttpWebserver.Lib.Machine
import Mathlib.Data.List.Infix
import Mathlib.Logic.Function.Basic

/-!
# LogSystem — the log file

The model of `LogSystem/LogFile.{h,cc}` for any threads. A call of `append` holds `mutex_` from its
first `fwrite_unlocked` to its return, and may need several.

* `bytes` is what the stream has taken, `error` its error indicator, which nothing clears. How much
  one `fwrite_unlocked` takes is the environment's choice, and whether it meets an error: a write
  that is short may set the indicator, and need not.
* A record is the `len` bytes at `logline`.
* **`records_whole`** — the records of different calls do not mix, whatever the order of the
  threads, and each is in the file as a whole unless the stream has failed.
-/

namespace HttpWebserver.LogSystem

open Machine

/-- Where a thread is in `append`. -/
inductive LogFile.Call where
  | idle
  | locking (logline : List UInt8)
  /-- At the test of the loop, with `mutex_`. -/
  | writing (logline : List UInt8) (written : Nat)
deriving DecidableEq, Repr

structure LogFile (T : Type*) where
  bytes : List UInt8
  error : Bool
  /-- Who holds `mutex_`. -/
  owner : Option T
  call : T → LogFile.Call

namespace LogFile

variable {T : Type*}

/-- The constructor; `"w+"` truncates the file. -/
def new : LogFile T where
  bytes := []
  error := false
  owner := none
  call _ := .idle

inductive Label (T : Type*) where
  | append (thread : T) (logline : List UInt8)
  | lock (thread : T)
  /-- A round of the loop: how many bytes are taken, and whether there is an error. -/
  | fwrite (thread : T) (n : Nat) (err : Bool)
  | finish (thread : T)
  | flush (thread : T)

variable [DecidableEq T]

def goto (s : LogFile T) (thread : T) (call : Call) : LogFile T :=
  { s with call := Function.update s.call thread call }

/-- The destructor of the lock, and the return. -/
def release (s : LogFile T) (thread : T) : LogFile T := { s.goto thread .idle with owner := none }

/-- The round breaks off: less was taken than was left, and the indicator is set. -/
def Breaks (s : LogFile T) (remain n : Nat) (err : Bool) : Prop := n ≠ remain ∧ (s.error || err)

instance (s : LogFile T) (remain n : Nat) (err : Bool) : Decidable (s.Breaks remain n err) :=
  inferInstanceAs (Decidable (_ ∧ _))

def step (s : LogFile T) : Label T → Option (LogFile T)
  | .append thread logline =>
    if s.call thread = .idle then some (s.goto thread (.locking logline)) else none
  | .lock thread =>
    match s.call thread, s.owner with
    | .locking logline, none =>
      some { s.goto thread (.writing logline 0) with owner := some thread }
    | _, _ => none
  | .fwrite thread n err =>
    match s.call thread with
    | .writing logline written =>
      let remain := logline.length - written
      if written ≠ logline.length ∧ n ≤ remain ∧ (err → n < remain) then
        let s' := { s with bytes := s.bytes ++ (logline.drop written).take n, error := s.error || err }
        if s.Breaks remain n err then some (s'.release thread)
        else some (s'.goto thread (.writing logline (written + n)))
      else none
    | _ => none
  | .finish thread =>
    match s.call thread with
    | .writing logline written =>
      if written = logline.length then some (s.release thread) else none
    | _ => none
  | .flush thread => if s.call thread = .idle ∧ s.owner.isNone then some s else none

/-! ## What a run has written

A record is begun when its thread takes the mutex, and ended when it releases it. The file is the
ended records in this order and, last, what the thread with the mutex has written of its own. -/

/-- The record of a step that takes the mutex. -/
def begun (s : LogFile T) : Label T → List (List UInt8)
  | .lock thread =>
    match s.call thread with
    | .locking logline => [logline]
    | _ => []
  | _ => []

/-- The record of a step that ends a call, with what the file has of it. -/
def ended (s : LogFile T) : Label T → List (List UInt8 × List UInt8)
  | .fwrite thread n err =>
    match s.call thread with
    | .writing logline written =>
      if s.Breaks (logline.length - written) n err then [(logline, logline.take (written + n))]
      else []
    | _ => []
  | .finish thread =>
    match s.call thread with
    | .writing logline _ => [(logline, logline)]
    | _ => []
  | _ => []

/-- The record of the call that has the mutex, with what the file has of it. -/
def current (s : LogFile T) : List (List UInt8 × List UInt8) :=
  match s.owner.map s.call with
  | some (.writing logline written) => [(logline, logline.take written)]
  | _ => []

/-- The thread with the mutex is the one in the loop, and has not written more than its record. -/
structure Inv (s : LogFile T) : Prop where
  owner : ∀ t, s.owner = some t ↔ ∃ logline written, s.call t = .writing logline written
  within : ∀ t logline written, s.call t = .writing logline written → written ≤ logline.length

/-- What a step does to the records and the file. -/
structure Effect (s : LogFile T) (l : Label T) (s' : LogFile T) : Prop where
  inv : Inv s'
  records : (s.ended l).map Prod.fst ++ s'.current.map Prod.fst =
    s.current.map Prod.fst ++ s.begun l
  bytes : ∀ ended, s.bytes = ended ++ s.current.flatMap Prod.snd →
    s'.bytes = ended ++ (s.ended l).flatMap Prod.snd ++ s'.current.flatMap Prod.snd
  part : ∀ e ∈ s.ended l, e.2 <+: e.1 ∧ (e.2 = e.1 ∨ s'.error)
  failed : s.error → s'.error

section Step

variable {s s' : LogFile T} {l : Label T} {ls : List (Label T)} {t : T} {logline : List UInt8}
  {written : Nat}

omit [DecidableEq T] in
theorem Inv.current (h : Inv s) (hcall : s.call t = .writing logline written) :
    s.owner = some t ∧ s.current = [(logline, logline.take written)] := by
  have howner := (h.owner t).mpr ⟨logline, written, hcall⟩
  refine ⟨howner, ?_⟩
  rw [LogFile.current, howner, Option.map_some, hcall]

omit [DecidableEq T] in
theorem current_free (hfree : s.owner = none) : s.current = [] := by
  rw [LogFile.current, hfree, Option.map_none]

/-- The other threads' calls stay. -/
theorem goto_call_other {u : T} (hne : u ≠ t) (call : Call) : (s.goto t call).call u = s.call u :=
  Function.update_of_ne hne _ _

theorem goto_call_self (call : Call) : (s.goto t call).call t = call := Function.update_self ..

theorem Inv.append (h : Inv s) (hidle : s.call t = .idle) :
    Effect s (.append t logline) (s.goto t (.locking logline)) := by
  have howner : s.owner ≠ some t := fun ho => by
    obtain ⟨r, w, hcall⟩ := (h.owner t).mp ho
    rw [hidle] at hcall
    -- the caller holds no lock, so the line in progress is another thread's
    cases hcall
  have hcurrent : (s.goto t (.locking logline)).current = s.current := by
    show (match s.owner.map (s.goto t (.locking logline)).call with
      | some (.writing logline written) => [(logline, logline.take written)]
      | _ => []) = s.current
    unfold LogFile.current
    cases ho : s.owner with
    | none => rfl
    | some u =>
      have hne : u ≠ t := fun hut => howner (hut ▸ ho)
      rw [Option.map_some, Option.map_some, goto_call_other hne]
  refine ⟨⟨fun u => ?_, fun u r w hcall => ?_⟩, ?_, fun ended hbytes => ?_, fun e he => ?_, id⟩
  · show s.owner = some u ↔ _
    rcases eq_or_ne u t with rfl | hne
    · simp [goto_call_self, howner]
    · rw [goto_call_other hne]
      exact h.owner u
  · rcases eq_or_ne u t with rfl | hne
    · rw [goto_call_self] at hcall
      cases hcall
    · rw [goto_call_other hne] at hcall
      exact h.within u r w hcall
  · rw [hcurrent]
    simp [ended, begun]
  · rw [hcurrent]
    show s.bytes = _
    simpa [LogFile.ended] using hbytes
  · cases he

theorem Inv.lock (h : Inv s) (hlocking : s.call t = .locking logline) (hfree : s.owner = none) :
    Effect s (.lock t) { s.goto t (.writing logline 0) with owner := some t } := by
  have hnone : ∀ u r w, s.call u ≠ .writing r w := fun u r w hcall => by
    have ho := (h.owner u).mpr ⟨r, w, hcall⟩
    rw [hfree] at ho
    cases ho
  have hinv : Inv { s.goto t (.writing logline 0) with owner := some t } := by
    refine ⟨fun u => ?_, fun u r w hcall => ?_⟩
    · show some t = some u ↔ ∃ r w, (s.goto t _).call u = .writing r w
      rcases eq_or_ne u t with rfl | hne
      · simp [goto_call_self]
      · rw [goto_call_other hne]
        simp [hne.symm, hnone]
    · change (s.goto t _).call u = .writing r w at hcall
      rcases eq_or_ne u t with rfl | hne
      · rw [goto_call_self] at hcall
        cases hcall
        exact Nat.zero_le _
      · rw [goto_call_other hne] at hcall
        exact absurd hcall (hnone u r w)
  have hcurrent := (hinv.current (goto_call_self (s := s) (t := t) (.writing logline 0))).2
  refine ⟨hinv, ?_, fun ended hbytes => ?_, fun e he => absurd he List.not_mem_nil, id⟩
  · rw [hcurrent, current_free hfree]
    simp [ended, begun, hlocking]
  · rw [hcurrent]
    rw [current_free hfree] at hbytes
    show s.bytes = _
    simpa [LogFile.ended] using hbytes

/-- The mutex is free again. -/
theorem Inv.release (h : Inv s) (hcall : s.call t = .writing logline written) :
    Inv (s.release t) := by
  have howner := (h.current hcall).1
  refine ⟨fun u => ?_, fun u r w hw => ?_⟩
  · show none = some u ↔ ∃ r w, (s.goto t .idle).call u = .writing r w
    rcases eq_or_ne u t with rfl | hne
    · simp [goto_call_self]
    · rw [goto_call_other hne]
      refine iff_of_false (by simp) fun hw => ?_
      have ho := (h.owner u).mpr hw
      rw [howner] at ho
      exact hne (Option.some.inj ho).symm
  · change (s.goto t .idle).call u = .writing r w at hw
    rcases eq_or_ne u t with rfl | hne
    · rw [goto_call_self] at hw
      cases hw
    · rw [goto_call_other hne] at hw
      exact h.within u r w hw

theorem release_current : (s.release t).current = [] := current_free rfl

/-- A round of the loop that goes on. -/
theorem Inv.advance (h : Inv s) (hcall : s.call t = .writing logline written) {n : Nat}
    (hn : n ≤ logline.length - written) : Inv (s.goto t (.writing logline (written + n))) := by
  have hwithin := h.within t logline written hcall
  refine ⟨fun u => ?_, fun u r w hw => ?_⟩
  · show s.owner = some u ↔ _
    rcases eq_or_ne u t with rfl | hne
    · simp [goto_call_self, (h.current hcall).1]
    · rw [goto_call_other hne]
      exact h.owner u
  · rcases eq_or_ne u t with rfl | hne
    · rw [goto_call_self] at hw
      cases hw
      omega
    · rw [goto_call_other hne] at hw
      exact h.within u r w hw

omit [DecidableEq T] in
/-- The stream takes bytes, and may fail. -/
theorem Inv.taken (h : Inv s) (bytes : List UInt8) (error : Bool) : Inv { s with bytes, error } :=
  ⟨h.owner, h.within⟩

theorem Inv.fwrite (h : Inv s) {n : Nat} {err : Bool} (hs : s.step (.fwrite t n err) = some s') :
    Effect s (.fwrite t n err) s' := by
  simp only [step] at hs
  split at hs
  · next logline written hcall =>
    split at hs
    · next hround =>
      have hcurrent := (h.current hcall).2
      have htake : logline.take written ++ (logline.drop written).take n =
          logline.take (written + n) := List.take_add.symm
      have hinv := h.taken (s.bytes ++ (logline.drop written).take n) (s.error || err)
      split at hs
      · -- the call breaks off
        next hbreaks =>
        cases hs
        have hended : s.ended (.fwrite t n err) = [(logline, logline.take (written + n))] := by
          simp [ended, hcall, hbreaks]
        refine ⟨hinv.release hcall, ?_, fun ended hbytes => ?_, fun e he => ?_, fun herr => ?_⟩
        · rw [hended, release_current, hcurrent]
          simp [begun]
        · rw [hended, release_current]
          rw [hcurrent] at hbytes
          show s.bytes ++ _ = _
          simp [hbytes, htake]
        · rw [hended] at he
          cases List.mem_singleton.mp he
          exact ⟨List.take_prefix _ _, .inr hbreaks.2⟩
        · show (s.error || err) = true
          simp [herr]
      · -- the loop goes on with the rest of the line
        next hgoes =>
        cases hs
        have hended : s.ended (.fwrite t n err) = [] := by simp [ended, hcall, hgoes]
        have hinv' := hinv.advance hcall hround.2.1
        have hcurrent' := (hinv'.current (goto_call_self _)).2
        refine ⟨hinv', ?_, fun ended hbytes => ?_, fun e he => ?_, fun herr => ?_⟩
        · rw [hended, hcurrent', hcurrent]
          simp [begun]
        · rw [hended, hcurrent']
          rw [hcurrent] at hbytes
          show s.bytes ++ _ = _
          simp [hbytes, htake]
        · rw [hended] at he
          cases he
        · show (s.error || err) = true
          simp [herr]
    · cases hs
  · cases hs

theorem Inv.finish (h : Inv s) (hs : s.step (.finish t) = some s') : Effect s (.finish t) s' := by
  simp only [step] at hs
  split at hs
  · next logline written hcall =>
    split at hs
    · next hwritten =>
      cases hs
      have hended : s.ended (.finish t) = [(logline, logline)] := by simp [ended, hcall]
      refine ⟨h.release hcall, ?_, fun ended hbytes => ?_, fun e he => ?_, id⟩
      · rw [hended, release_current, (h.current hcall).2]
        simp [begun]
      · rw [hended, release_current]
        rw [(h.current hcall).2, hwritten] at hbytes
        show s.bytes = _
        simpa using hbytes
      · rw [hended] at he
        cases List.mem_singleton.mp he
        exact ⟨List.prefix_rfl, .inl rfl⟩
    · cases hs
  · cases hs

theorem step_effect (h : Inv s) (hs : s.step l = some s') : Effect s l s' := by
  cases l with
  | append t logline =>
    simp only [step] at hs
    split at hs
    · next hidle =>
      cases hs
      exact h.append hidle
    · cases hs
  | lock t =>
    simp only [step] at hs
    split at hs
    · next hlocking hfree =>
      cases hs
      exact h.lock hlocking hfree
    · cases hs
  | fwrite t n err => exact h.fwrite hs
  | finish t => exact h.finish hs
  | flush t =>
    simp only [step] at hs
    split at hs
    · cases hs
      refine ⟨h, by simp [ended, begun], fun ended hbytes => ?_, fun e he => ?_, id⟩
      · simpa [LogFile.ended] using hbytes
      · cases he
    · cases hs

/-- What a run has written. -/
structure Written (ls : List (Label T)) (s : LogFile T) : Prop where
  /-- The records, in the order in which their calls took the mutex. -/
  records : (emitted step ended new ls).map Prod.fst ++ s.current.map Prod.fst =
    emitted step begun new ls
  /-- The file is what it has of each record, one behind the other. -/
  bytes : s.bytes = (emitted step ended new ls).flatMap Prod.snd ++ s.current.flatMap Prod.snd
  part : ∀ e ∈ emitted step ended new ls, e.2 <+: e.1 ∧ (e.2 = e.1 ∨ s.error)

omit [DecidableEq T] in
theorem new_inv : Inv (new : LogFile T) :=
  ⟨fun t => by simp [new], fun t r w hcall => Call.noConfusion hcall⟩

theorem run_written (hrun : exec step new ls = some s) : Inv s ∧ Written ls s := by
  refine exec_induction (P := fun ls s => Inv s ∧ Written ls s) ⟨new_inv, rfl, rfl, ?_⟩ ?_ hrun
  · exact fun e he => absurd he List.not_mem_nil
  · rintro ls s l t hs ⟨hinv, hw⟩ hl
    have heffect := step_effect hinv hl
    refine ⟨heffect.inv, ?_, ?_, ?_⟩
    · rw [emitted_concat hs, emitted_concat hs, List.map_append, List.append_assoc,
        heffect.records, ← List.append_assoc, hw.records]
    · rw [emitted_concat hs, List.flatMap_append]
      exact heffect.bytes _ hw.bytes
    · intro e he
      rw [emitted_concat hs] at he
      rcases List.mem_append.mp he with he | he
      · exact (hw.part e he).imp_right fun hpart => hpart.imp_right heffect.failed
      · exact heffect.part e he

/-- **Records are whole.** In every run of any threads, however much each `fwrite_unlocked` takes:
the file consists of one piece for each record, in the order in which the calls of `append` took the
mutex, and the piece of the call that has it now. A piece is the whole record, or the front of it
when the error indicator is set; while it is not, all records whose calls have returned are in the
file as they are. -/
theorem records_whole (hrun : exec step new ls = some s) :
    Written ls s ∧ (s.error = false →
      s.bytes = ((emitted step ended new ls).map Prod.fst).flatten ++
        s.current.flatMap Prod.snd) := by
  have hw := (run_written hrun).2
  refine ⟨hw, fun hfine => ?_⟩
  have hwhole : (emitted step ended new ls).flatMap Prod.snd =
      ((emitted step ended new ls).map Prod.fst).flatten := by
    rw [List.flatMap_def]
    congr 1
    refine List.map_congr_left fun e he => ?_
    simpa [hfine] using (hw.part e he).2
  rw [← hwhole]
  exact hw.bytes

/-- Two threads; a write of the first is short, and the second fails. -/
def shortWrites : List (Label Nat) :=
  [.append 0 [97, 98, 10], .append 1 [99, 100, 10], .lock 0, .fwrite 0 1 false, .fwrite 0 2 false,
    .finish 0, .lock 1, .fwrite 1 1 true]

theorem records_whole_short :
    ∃ s : LogFile Nat, exec step new shortWrites = some s ∧ s.bytes = [97, 98, 10, 99] ∧
      Written shortWrites s ∧ (s.error = false →
        s.bytes = ((emitted step ended new shortWrites).map Prod.fst).flatten ++
          s.current.flatMap Prod.snd) :=
  ⟨_, rfl, rfl, records_whole (show exec step new shortWrites = _ from rfl)⟩

end Step

end LogFile

end HttpWebserver.LogSystem
