import HttpWebserver.HttpConnection.LineDelivery
import HttpWebserver.HttpConnection.ProcessRead

/-!
# HttpConnection — the text the line handlers get

A connection after `init()` receives the head of a request in chunks, with a call of
`processRead` behind each of them. `Delivered` says that the line handlers are called with the
lines of the head, in order.

* **`lines_delivered_iff`** — whatever the handlers do, that is so only while there is no line
  at all.

`init()` sets `startLine_` to null, and `processRead` passes `startLine_` on before it assigns
to it: the request line is always handed on as a null pointer (`exec_firstCall`). What it then
assigns is `outputBuffer_.peek()`, so no later call sees the input either.
-/

namespace HttpWebserver.HttpConnection

open Buffer Machine MachineInt Storage

/-- A connection being served, `none` once the run is undefined or the connection is closed,
and the calls of handlers made for it. -/
structure Session (ω : Type) where
  conn : Option (ω × HttpConnection)
  calls : List Call

variable {ω : Type}

/-- What is left of the connection after `processRead`. -/
def ReadOutcome.conn : ReadOutcome ω → Option (ω × HttpConnection)
  | .returned w c _ => some (w, c)
  | .undefined => none
  | .outOfFuel => none

/-- A chunk arrives: `read()`, then `processRead()`. -/
def readThenProcess (H : Handlers ω) (s : Session ω) (chunk : List UInt8) :
    Option (Session ω) :=
  match s.conn with
  | none => some s
  | some (w, c) => do
    let (c, ok) ← c.read (.bytes chunk)
    if ok then
      let (outcome, calls) ← processRead H w c
      some ⟨outcome.conn, s.calls ++ calls⟩
    else
      -- the peer has closed the connection, or the read failed
      some ⟨none, s.calls⟩

/-- The line of a request head. -/
def LineText (l : List UInt8) : Prop := Bare l ∧ 0 ∉ l

/-- The head of a request: its lines, each with a CR and an LF. -/
def head (lines : List (List UInt8)) : List UInt8 := lines.flatMap fun l => l ++ [CR, LF]

/-- The line handlers have been called with the lines of the head in order: the first of them
went to `parseRequestLine`, the following ones to `parseHeaders`, none behind an empty one. -/
structure Delivered (lines : List (List UInt8)) (calls : List Call) : Prop where
  text : ∀ (i : Nat) (call : Call), calls[i]? = some call →
    call.handler ≠ .CHECK_STATE_CONTENT → ∃ line, lines[i]? = some line ∧ call.content = some line
  handler : ∀ (i : Nat) (call : Call), calls[i]? = some call →
    call.handler ≠ .CHECK_STATE_CONTENT → (call.handler = .CHECK_STATE_REQUESTLINE ↔ i = 0)
  ends : ∀ (i : Nat) (call : Call), calls[i]? = some call →
    call.handler = .CHECK_STATE_HEADER → ∀ j, 0 < j → j < i → lines[j]? ≠ some []

/-- The call every connection makes first: `parseRequestLine` with a null pointer. -/
def firstCall : Call := ⟨.CHECK_STATE_REQUESTLINE, .null, none⟩

/-! ## The calls of a run -/

section Calls

variable {H : Handlers ω}

/-- The loop only adds calls. -/
theorem processReadLoop_calls {lineOf : HttpConnection → Ptr} {fuel : Nat} {w : ω}
    {c : HttpConnection} {status : LineStatus} {calls calls' : List Call} {outcome : ReadOutcome ω}
    (h : processReadLoop lineOf H fuel w c status calls = some (outcome, calls')) :
    calls <+: calls' := by
  induction fuel generalizing c status calls with
  | zero =>
    cases h
    exact List.prefix_rfl
  | succ fuel ih =>
    obtain ⟨⟨c₁, status₁⟩, -, h⟩ := Option.bind_eq_some_iff.mp h
    simp only at h
    split at h
    · cases h
      exact List.prefix_rfl
    · -- the call of this round stands behind the earlier ones
      have hround : calls <+: calls ++ [⟨c₁.checkState, lineOf c,
          deref { c₁ with startLine := .output c₁.outputBuffer.peek } (lineOf c)⟩] :=
        List.prefix_append _ _
      split at h
      · cases h
        exact hround
      · cases h
        exact hround
      · exact hround.trans (ih h)

theorem readThenProcess_calls {s t : Session ω} {chunk : List UInt8}
    (h : readThenProcess H s chunk = some t) : s.calls <+: t.calls := by
  unfold readThenProcess at h
  split at h
  · cases h
    exact List.prefix_rfl
  · obtain ⟨⟨c, ok⟩, -, h⟩ := Option.bind_eq_some_iff.mp h
    simp only at h
    split at h
    · obtain ⟨⟨outcome, calls⟩, -, h⟩ := Option.bind_eq_some_iff.mp h
      cases h
      exact List.prefix_append _ _
    · cases h
      exact List.prefix_rfl

theorem exec_calls {s t : Session ω} {chunks : List (List UInt8)}
    (h : exec (readThenProcess H) s chunks = some t) : s.calls <+: t.calls :=
  exec_invariant (I := fun u => s.calls <+: u.calls)
    (fun _ _ _ hu hstep => hu.trans (readThenProcess_calls hstep)) List.prefix_rfl h

end Calls

/-! ## The first line

Nothing is called before a whole line has arrived, and then the first call is `parseRequestLine`
with a null pointer. No later call changes that. -/

/-- No line has been delimited yet: the bytes readable in the input buffer and those still to
come, `later`, begin with a line, and at most a CR of them has been left readable. -/
structure Waiting (c : HttpConnection) (later : List UInt8) : Prop where
  wellFormed : c.inputBuffer.WellFormed
  state : c.checkState = .CHECK_STATE_REQUESTLINE
  start : c.startLine = .null
  pending : c.inputBuffer.readable = [] ∨ c.inputBuffer.readable = [CR]
  line : ∃ L rest, Bare L ∧ c.inputBuffer.readable ++ later = L ++ CR :: LF :: rest

section First

variable {H : Handlers ω} {w : ω} {c : HttpConnection}

/-- A call of `processRead` that finds no whole line. -/
theorem processRead_open {b : Buffer} (hstate : c.checkState = .CHECK_STATE_REQUESTLINE)
    (hscan : scanLine c.inputBuffer = some (b, .LINE_OPEN)) :
    processRead H w c = some (.returned w { c with inputBuffer := b } .NO_REQUEST, []) := by
  have hline : c.nextLine .LINE_OK = _ := nextLine_requestLine hstate hscan
  exact processReadLoop_noLine hline (by decide) _ []

/-- A call of `processRead` that finds the request line. -/
theorem processRead_line {b : Buffer} {outcome : ReadOutcome ω} {calls : List Call}
    (hstate : c.checkState = .CHECK_STATE_REQUESTLINE) (hstart : c.startLine = .null)
    (hscan : scanLine c.inputBuffer = some (b, .LINE_OK))
    (h : processRead H w c = some (outcome, calls)) : [firstCall] <+: calls := by
  have hline : c.nextLine .LINE_OK = _ := nextLine_requestLine hstate hscan
  rw [processRead, processReadFrom, processReadLoop, hline] at h
  simp only [Option.bind_eq_bind, Option.bind_some, ne_eq, not_true_eq_false, if_false,
    List.nil_append, getLine, hstart, hstate, deref] at h
  split at h
  · cases h
    exact List.prefix_rfl
  · cases h
    exact List.prefix_rfl
  · exact processReadLoop_calls h

/-- A chunk that has not made the buffer compact has been stored, and `processRead` has run. -/
theorem readThenProcess_some {chunk : List UInt8} {t : Session ω} (h : c.inputBuffer.WellFormed)
    (hne : chunk ≠ []) (hmax : chunk.length ≤ maxTransfer)
    (hstep : readThenProcess H ⟨some (w, c), []⟩ chunk = some t) :
    ∃ b outcome calls, Extends c.inputBuffer chunk b ∧
      processRead H w { c with inputBuffer := b } = some (outcome, calls) ∧
      t = ⟨outcome.conn, calls⟩ := by
  obtain ⟨⟨c₁, ok⟩, hr, hstep⟩ := Option.bind_eq_some_iff.mp hstep
  by_cases hc : c.inputBuffer.Compacts chunk.length
  · rw [read_compact h hmax hc] at hr
    cases hr
  · obtain ⟨b, hx, hread⟩ := read_chunk h hne hmax hc
    cases hread.symm.trans hr
    obtain ⟨⟨outcome, calls⟩, hproc, hstep⟩ := Option.bind_eq_some_iff.mp hstep
    cases hstep
    exact ⟨b, outcome, calls, hx, hproc, rfl⟩

/-- Bytes of the line with none of its end among them: the connection goes on waiting. -/
theorem waiting_piece {b : Buffer} {outcome : ReadOutcome ω} {calls : List Call}
    {tail rest later : List UInt8} (hwf : b.WellFormed) (hsome : b.readable ≠ [])
    (hstate : c.checkState = .CHECK_STATE_REQUESTLINE) (hstart : c.startLine = .null)
    (hbare : Bare b.readable) (htail : Bare tail) (hlater : later = tail ++ CR :: LF :: rest)
    (hproc : processRead H w { c with inputBuffer := b } = some (outcome, calls)) :
    ∃ c', (⟨outcome.conn, calls⟩ : Session ω) = ⟨some (w, c'), []⟩ ∧ Waiting c' later := by
  obtain ⟨hwf', hempty⟩ := retrieveAll_spec hwf
  have hscan : scanLine b = some (b.retrieveAll, .LINE_OPEN) := scanLine_open hbare hsome hwf rfl
  rw [processRead_open (c := { c with inputBuffer := b }) hstate hscan] at hproc
  cases hproc
  refine ⟨_, rfl, hwf', hstate, hstart, .inl hempty, tail, rest, htail, ?_⟩
  show b.retrieveAll.readable ++ later = _
  rw [hempty, List.nil_append, hlater]

/-- The next chunk leaves the connection waiting, or brings the first call. -/
theorem waiting_step {later chunk : List UInt8} {t : Session ω} (hwait : Waiting c (chunk ++ later))
    (hne : chunk ≠ []) (hmax : chunk.length ≤ maxTransfer)
    (hstep : readThenProcess H ⟨some (w, c), []⟩ chunk = some t) :
    (∃ c', t = ⟨some (w, c'), []⟩ ∧ Waiting c' later) ∨ [firstCall] <+: t.calls := by
  obtain ⟨hwf, hstate, hstart, -, L, rest, hL, hline⟩ := hwait
  have hnil : Bare [] := by simp [Bare]
  obtain ⟨b, outcome, calls, hx, hproc, rfl⟩ := readThenProcess_some hwf hne hmax hstep
  have hread := hx.readable hwf
  have hwf' := hx.wellFormed
  have hsome : b.readable ≠ [] := by
    rw [hread]
    exact fun h => hne (List.append_eq_nil_iff.mp h).2
  rw [← List.append_assoc, ← hread] at hline
  -- where the bytes received so far end: inside the line, behind its CR, or behind its LF
  rcases List.append_eq_append_iff.mp hline with ⟨tail, hpre, hlater⟩ | ⟨ending, hend, hrest⟩
  · have hboth : Bare (b.readable ++ tail) := by rw [← hpre]; exact hL
    exact .inl (waiting_piece hwf' hsome hstate hstart hboth.of_append_left hboth.of_append_right
      hlater hproc)
  · cases ending with
    | nil =>
      have hall : Bare b.readable := by rw [hend, List.append_nil]; exact hL
      have hlater : later = [] ++ CR :: LF :: rest := hrest.symm
      exact .inl (waiting_piece hwf' hsome hstate hstart hall hnil hlater hproc)
    | cons x ending =>
      obtain ⟨rfl, hrest'⟩ := List.cons.inj hrest
      cases ending with
      | nil =>
        -- the CR stays readable
        left
        have hcr : (b.skip L.length).readable = [CR] := by
          rw [skip_readable, hend, List.drop_left]
        have hwf₁ : (b.skip L.length).WellFormed :=
          skip_wellFormed hwf' (by rw [hend, List.length_append]; omega)
        have hlater : later = LF :: rest := hrest'.symm
        rw [processRead_open (c := { c with inputBuffer := b }) hstate (scanLine_cr hL hwf' hend)]
          at hproc
        cases hproc
        refine ⟨_, rfl, hwf₁, hstate, hstart, .inr hcr, [], rest, hnil, ?_⟩
        show (b.skip L.length).readable ++ later = _
        rw [hcr, hlater]
        rfl
      | cons y ending =>
        obtain ⟨rfl, -⟩ := List.cons.inj hrest'
        exact .inr (processRead_line (c := { c with inputBuffer := b }) hstate hstart
          (scanLine_line hL hwf' hend) hproc)

/-- **The first call.** Once a whole line has arrived, the first call of a handler has been
made, with a null pointer. -/
theorem exec_firstCall {chunks : List (List UInt8)} {t : Session ω}
    (hwait : Waiting c chunks.flatten) (hne : ∀ chunk ∈ chunks, chunk ≠ [])
    (hmax : ∀ chunk ∈ chunks, chunk.length ≤ maxTransfer)
    (hrun : exec (readThenProcess H) ⟨some (w, c), []⟩ chunks = some t) :
    [firstCall] <+: t.calls := by
  induction chunks generalizing c with
  | nil =>
    -- nothing is left to arrive, so the line would have to be readable already
    obtain ⟨-, -, -, hpending, L, rest, -, hline⟩ := hwait
    have hcount := congrArg List.length hline
    rw [List.flatten_nil, List.append_nil, List.length_append, List.length_cons,
      List.length_cons] at hcount
    rcases hpending with h | h
    · rw [h, List.length_nil] at hcount
      omega
    · rw [h, List.length_singleton] at hcount
      omega
  | cons chunk chunks ih =>
    obtain ⟨s, hstep, hrun⟩ := Option.bind_eq_some_iff.mp hrun
    rcases waiting_step hwait (hne chunk List.mem_cons_self) (hmax chunk List.mem_cons_self) hstep
      with ⟨c', rfl, hwait'⟩ | hfirst
    · exact ih hwait' (fun x hx => hne x (List.mem_cons_of_mem _ hx))
        (fun x hx => hmax x (List.mem_cons_of_mem _ hx)) hrun
    · exact hfirst.trans (exec_calls hrun)

theorem init_waiting (h : c.inputBuffer.WellFormed) {line : List UInt8}
    {lines : List (List UInt8)} (hline : Bare line) : Waiting c.init (head (line :: lines)) where
  wellFormed := (retrieveAll_spec h).1
  state := rfl
  start := rfl
  pending := .inl (retrieveAll_spec h).2
  line := by
    refine ⟨line, head lines, hline, ?_⟩
    rw [show c.init.inputBuffer.readable = [] from (retrieveAll_spec h).2, List.nil_append, head,
      List.flatMap_cons, List.append_assoc]
    rfl

end First

/-- **The line handlers never get the lines.** After `init()` the head of a request arrives, in
any chunks: whatever the handlers do, they are given its lines exactly when it has none. -/
theorem lines_delivered_iff (H : Handlers ω) (w : ω) (c : HttpConnection) (h : c.inputBuffer.WellFormed)
    (lines : List (List UInt8)) (hlines : ∀ line ∈ lines, LineText line)
    (chunks : List (List UInt8)) (hne : ∀ chunk ∈ chunks, chunk ≠ [])
    (hmax : ∀ chunk ∈ chunks, chunk.length ≤ maxTransfer) (hchunks : chunks.flatten = head lines) :
    (∃ s, exec (readThenProcess H) ⟨some (w, c.init), []⟩ chunks = some s ∧ Delivered lines s.calls) ↔
      lines = [] := by
  constructor
  · rintro ⟨s, hrun, hdelivered⟩
    cases lines with
    | nil => rfl
    | cons line lines =>
      exfalso
      have hwait : Waiting c.init chunks.flatten := by
        rw [hchunks]
        exact init_waiting h (hlines line List.mem_cons_self).1
      obtain ⟨more, hcalls⟩ := exec_firstCall hwait hne hmax hrun
      have hfirst : s.calls[0]? = some firstCall := by rw [← hcalls]; rfl
      obtain ⟨text, -, htext⟩ := hdelivered.text 0 firstCall hfirst (by decide)
      cases htext
  · rintro rfl
    have hnone : chunks = [] := by
      cases chunks with
      | nil => rfl
      | cons chunk chunks =>
        have hnil := List.flatten_eq_nil_iff.mp hchunks chunk List.mem_cons_self
        exact absurd hnil (hne chunk List.mem_cons_self)
    refine ⟨_, by rw [hnone, exec_nil], ?_, ?_, ?_⟩ <;> intro i call hcall <;> cases hcall

/-- Handlers that accept everything and want another line. -/
def acceptAll : Handlers Unit where
  parseRequestLine c _ := some ({ c with checkState := .CHECK_STATE_HEADER }, .NO_REQUEST)
  parseHeaders c _ := some (c, .NO_REQUEST)
  parseContent c _ := some (c, .NO_REQUEST)
  doRequest _ c := some ((), c, .FILE_REQUEST)

/-- The head of one line `a`, in two chunks. -/
theorem lines_delivered_iff_sample :
    ¬ ∃ s, exec (readThenProcess acceptAll) ⟨some ((), sampleConnection.init), []⟩ [[97], [13, 10]]
        = some s ∧ Delivered [[97]] s.calls := by
  intro h
  have hnone := (lines_delivered_iff acceptAll () sampleConnection (new_wellFormed readBufferSize)
    [[97]] (by simp [LineText, Bare, CR, LF]) [[97], [13, 10]] (by decide) (by decide) rfl).mp h
  cases hnone

/-- The head `a`, `b`: the request line is handed on as a null pointer, and the header as a
pointer into the empty output buffer. -/
theorem line_handlers_get_null :
    ∃ s, exec (readThenProcess acceptAll) ⟨some ((), sampleConnection.init), []⟩
        [[97, 13, 10, 98, 13, 10]] = some s ∧
      s.calls = [⟨.CHECK_STATE_REQUESTLINE, .null, none⟩,
        ⟨.CHECK_STATE_HEADER, .output 8, some []⟩] ∧
      ¬ Delivered [[97], [98]] s.calls := by
  have hrun : (exec (readThenProcess acceptAll) ⟨some ((), sampleConnection.init), []⟩
      [[97, 13, 10, 98, 13, 10]]).map Session.calls
      = some [⟨.CHECK_STATE_REQUESTLINE, .null, none⟩,
        ⟨.CHECK_STATE_HEADER, .output 8, some []⟩] := by decide +kernel
  obtain ⟨s, hs, hcalls⟩ := Option.map_eq_some_iff.mp hrun
  refine ⟨s, hs, hcalls, fun hdelivered => ?_⟩
  have hfirst : s.calls[0]? = some firstCall := by rw [hcalls]; rfl
  obtain ⟨text, -, htext⟩ := hdelivered.text 0 firstCall hfirst (by decide)
  cases htext

end HttpWebserver.HttpConnection
