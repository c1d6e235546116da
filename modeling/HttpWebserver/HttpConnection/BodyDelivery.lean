import HttpWebserver.HttpConnection.LineDelivery
import HttpWebserver.HttpConnection.ParseRequest
import HttpWebserver.HttpConnection.ProcessRead

/-!
# HttpConnection — a body that arrives in pieces

A connection in `CHECK_STATE_CONTENT` receives the body of a request in chunks, with a call of
`processRead` behind each of them. The line handlers are the ones of the connection; `doRequest`
is any function.

* `Waits` and `GoesOn` are what the call shall do before the last chunk and behind it.
* **`body_received_iff`** — every call does so, with all bytes of the body still readable,
  exactly when no read compacts, every call before the last one finds a byte in front at which
  `parseLine` stops, and the last one has room for the NUL that `parseContent` writes.

An incomplete body makes `parseContent` return `NO_REQUEST`. The loop then sets `lineStatus` to
`LINE_OPEN`, which makes its condition call `parseLine`, on the body.
-/

namespace HttpWebserver.HttpConnection

open Buffer Machine MachineInt Storage

/-! ## The calls behind the chunks

What `processRead` should do behind each chunk, for any `doRequest`: wait while the body is
incomplete, and call it once when it is there. -/

/-- The handlers of the connection, with any `doRequest`. -/
def handlersWith {ω : Type} (f : ω → HttpConnection → Option (ω × HttpConnection × HttpCode)) :
    Handlers ω where
  parseRequestLine := parseRequestLine
  parseHeaders := parseHeaders
  parseContent := parseContent
  doRequest := f

/-- How `processRead` ends with the result of `doRequest`. -/
def outcomeOf {ω : Type} : Option (ω × HttpConnection × HttpCode) → ReadOutcome ω
  | none => .undefined
  | some (w, c, ret) => .returned w c ret

/-- Whatever `doRequest` is, `processRead` returns `NO_REQUEST` and leaves `c'`. -/
def Waits (c c' : HttpConnection) : Prop :=
  ∀ (ω : Type) (f : ω → HttpConnection → Option (ω × HttpConnection × HttpCode)) (w : ω),
    ∃ calls, processRead (handlersWith f) w c = some (.returned w c' .NO_REQUEST, calls)

/-- Whatever `doRequest` is, `processRead` ends with a call of it. -/
def GoesOn (c : HttpConnection) : Prop :=
  ∃ c', ∀ (ω : Type) (f : ω → HttpConnection → Option (ω × HttpConnection × HttpCode)) (w : ω),
    ∃ calls, processRead (handlersWith f) w c = some (outcomeOf (f w c'), calls)

/-- A chunk arrives: `read()`, then `processRead()`. The run ends with the call of
`doRequest`. -/
def receive (c : HttpConnection) (chunk : List UInt8) : Option HttpConnection := do
  let (c, ok) ← c.read (.bytes chunk)
  if ok then
    match processRead (handlersWith fun (_ : Unit) _ => none) () c with
    | some (.returned _ c _, _) => some c
    | _ => none
  else none

/-- The call behind a chunk does what it shall. -/
structure Received (c : HttpConnection) (chunk : List UInt8) : Prop where
  waits : c.inputBuffer.readable.length + chunk.length < c.ContentLength.toNat →
    ∃ c₁ c₂, c.read (.bytes chunk) = some (c₁, true) ∧ c₁.Waits c₂ ∧
      c₂.inputBuffer.readable = c.inputBuffer.readable ++ chunk
  goesOn : c.ContentLength.toNat ≤ c.inputBuffer.readable.length + chunk.length →
    ∃ c₁, c.read (.bytes chunk) = some (c₁, true) ∧ c₁.GoesOn

/-- The chunk is stored, `parseLine` stops at the first byte of a body that is not complete, and
behind a complete one there is a byte to write the NUL to. -/
structure Undisturbed (c : HttpConnection) (chunk : List UInt8) : Prop where
  stored : ¬ c.inputBuffer.Compacts chunk.length
  stuck : ∀ c₁, c.read (.bytes chunk) = some (c₁, true) →
    c₁.inputBuffer.readable.length < c.ContentLength.toNat → Stuck c₁.inputBuffer
  room : ∀ c₁, c.read (.bytes chunk) = some (c₁, true) →
    c.ContentLength.toNat ≤ c₁.inputBuffer.readable.length →
    (c₁.charAt c₁.startLine c.ContentLength.toNat).isSome

/-- A connection that waits for a body. -/
structure InBody (c : HttpConnection) : Prop where
  wellFormed : c.inputBuffer.WellFormed
  state : c.checkState = .CHECK_STATE_CONTENT
  positive : 0 < c.ContentLength
  long : c.ContentLength < 2 ^ 63

/-- The connection in a round of the loop. -/
def inRound (c : HttpConnection) : HttpConnection :=
  { c with startLine := .output c.outputBuffer.peek }

/-! ## `parseContent`

It looks at the whole body at each call and consumes nothing. -/

section Content

variable {c : HttpConnection} {text : Ptr} {ω : Type}
  {f : ω → HttpConnection → Option (ω × HttpConnection × HttpCode)} {w : ω}

theorem InBody.toSizeT (h : InBody c) : toSizeT c.ContentLength = c.ContentLength.toNat := by
  have hpos := h.positive
  have hlong := h.long
  have hnat : c.ContentLength = (c.ContentLength.toNat : Int) :=
    (Int.toNat_of_nonneg (by omega)).symm
  rw [hnat, toSizeT_natCast (by omega), Int.toNat_natCast]

theorem putNul_isSome (c : HttpConnection) (p : Ptr) (n : Nat) :
    (c.putNul p n).isSome ↔ (c.charAt p n).isSome := by
  unfold putNul charAt
  cases c.storage p with
  | none => exact Iff.rfl
  | some mem =>
    rw [Option.bind_eq_bind, Option.bind_some, Option.bind_eq_bind, Option.bind_some]
    by_cases hlt : p.off + n < mem.length
    · have hfit : p.off + n + [(0 : UInt8)].length ≤ mem.length := hlt
      rw [writeAt_eq_some hfit, List.getElem?_eq_getElem hlt]
      exact Iff.rfl
    · have hover : mem.length < p.off + n + [(0 : UInt8)].length := by
        rw [List.length_singleton]
        omega
      rw [writeAt_eq_none hover, List.getElem?_eq_none (by omega)]
      exact Iff.rfl

/-- The round of an incomplete body. -/
theorem dispatch_incomplete (h : InBody c)
    (hless : c.inputBuffer.readable.length < c.ContentLength.toNat) :
    dispatch (handlersWith f) w c text = some (.again c .LINE_OPEN) := by
  rw [h.wellFormed.readable_length, ← h.toSizeT] at hless
  simp only [dispatch, h.state, handlersWith, parseContent, if_neg (Nat.not_le_of_lt hless),
    Option.bind_eq_bind, Option.bind_some]
  rfl

/-- The round of a complete body. -/
theorem dispatch_complete (h : InBody c)
    (hall : c.ContentLength.toNat ≤ c.inputBuffer.readable.length) {c' : HttpConnection}
    (hput : c.putNul text c.ContentLength.toNat = some c') :
    dispatch (handlersWith f) w c text
      = (f w { c' with string := text }).map fun r => .stop r.1 r.2.1 r.2.2 := by
  rw [h.wellFormed.readable_length, ← h.toSizeT] at hall
  simp only [dispatch, h.state, handlersWith, parseContent, if_pos hall, hput,
    Option.bind_eq_bind, Option.bind_some, if_true]
  cases f w { c' with string := text } <;> rfl

theorem dispatch_outside (h : InBody c)
    (hall : c.ContentLength.toNat ≤ c.inputBuffer.readable.length)
    (hput : c.putNul text c.ContentLength.toNat = none) :
    dispatch (handlersWith f) w c text = none := by
  rw [h.wellFormed.readable_length, ← h.toSizeT] at hall
  simp only [dispatch, h.state, handlersWith, parseContent, if_pos hall, hput,
    Option.bind_eq_bind, Option.bind_none]

end Content

/-! ## One call

The loop condition calls `parseLine` again in the round behind an incomplete body, and this
consumes bytes of the body unless it stops at the first one. -/

section Round

variable {c c' : HttpConnection} {ω : Type}
  {f : ω → HttpConnection → Option (ω × HttpConnection × HttpCode)} {w w' : ω}

theorem InBody.inRound (h : InBody c) : InBody c.inRound :=
  ⟨h.wellFormed, h.state, h.positive, h.long⟩

theorem InBody.of_input {b : Buffer} (h : InBody c) (hwf : b.WellFormed) :
    InBody { c with inputBuffer := b } := ⟨hwf, h.state, h.positive, h.long⟩

/-- In the first round no line is delimited. -/
theorem processRead_inBody (h : InBody c) :
    ∃ calls, processRead (handlersWith f) w c
      = match dispatch (handlersWith f) w c.inRound c.startLine with
        | none => some (.undefined, calls)
        | some (.stop w d ret) => some (.returned w d ret, calls)
        | some (.again d lineStatus) => processReadLoop getLine (handlersWith f)
            (c.inputBuffer.readableBytes + 1) w d lineStatus calls := by
  refine ⟨[⟨c.checkState, c.startLine, c.inRound.deref c.startLine⟩], ?_⟩
  rw [processRead, processReadFrom, processReadLoop, nextLine, if_pos ⟨h.state, rfl⟩]
  rfl

/-- A round of an incomplete body: the loop ends, or goes on with what the line scan has left. -/
theorem processReadLoop_round (h : InBody c)
    (hless : c.inputBuffer.readable.length < c.ContentLength.toNat) {fuel : Nat}
    {lineStatus : LineStatus} {ret : HttpCode} {calls calls' : List Call}
    (hrun : processReadLoop getLine (handlersWith f) (fuel + 1) w c lineStatus calls
      = some (.returned w' c' ret, calls')) :
    ∃ b status, c.nextLine lineStatus = some ({ c with inputBuffer := b }, status) ∧
      b.WellFormed ∧ b.readable <:+ c.inputBuffer.readable ∧
      (c' = { c with inputBuffer := b } ∨ ∃ calls₁,
        processReadLoop getLine (handlersWith f) fuel w (inRound { c with inputBuffer := b })
          .LINE_OPEN calls₁ = some (.returned w' c' ret, calls')) := by
  obtain ⟨⟨c₁, status⟩, hline, hrun⟩ := Option.bind_eq_some_iff.mp hrun
  -- the condition of the loop: `parseLine` has run, or it has not
  obtain ⟨b, hwf, hsuffix, rfl⟩ : ∃ b : Buffer, b.WellFormed ∧
      b.readable <:+ c.inputBuffer.readable ∧ c₁ = { c with inputBuffer := b } := by
    unfold nextLine at hline
    split at hline
    · cases hline
      exact ⟨c.inputBuffer, h.wellFormed, List.suffix_rfl, rfl⟩
    · obtain ⟨⟨b, status⟩, hscan, hc₁⟩ := Option.map_eq_some_iff.mp hline
      cases hc₁
      obtain ⟨hwf, hsuffix⟩ := scanLine_suffix h.wellFormed hscan
      exact ⟨b, hwf, hsuffix, rfl⟩
  refine ⟨b, status, hline, hwf, hsuffix, ?_⟩
  simp only at hrun
  split at hrun
  · cases hrun
    exact .inl rfl
  · -- a line was delimited: another round, in which the body is still incomplete
    have hround : InBody (inRound { c with inputBuffer := b }) := (h.of_input hwf).inRound
    have hless' : b.readable.length < c.ContentLength.toNat :=
      Nat.lt_of_le_of_lt hsuffix.length_le hless
    rw [show { c with inputBuffer := b, startLine := _ } = inRound { c with inputBuffer := b }
      from rfl, dispatch_incomplete hround hless'] at hrun
    exact .inr ⟨_, hrun⟩

/-- The rounds of an incomplete body only take bytes away from it. -/
theorem processReadLoop_shrinks (h : InBody c)
    (hless : c.inputBuffer.readable.length < c.ContentLength.toNat) {fuel : Nat}
    {lineStatus : LineStatus} {ret : HttpCode} {calls calls' : List Call}
    (hrun : processReadLoop getLine (handlersWith f) fuel w c lineStatus calls
      = some (.returned w' c' ret, calls')) :
    c'.inputBuffer.readable.length ≤ c.inputBuffer.readable.length := by
  induction fuel generalizing c lineStatus calls with
  | zero => cases hrun
  | succ fuel ih =>
    obtain ⟨b, status, -, hwf, hsuffix, rfl | ⟨calls₁, hrun⟩⟩ := processReadLoop_round h hless hrun
    · exact hsuffix.length_le
    · have hround : InBody (inRound { c with inputBuffer := b }) := (h.of_input hwf).inRound
      have hless' : b.readable.length < c.ContentLength.toNat :=
        Nat.lt_of_le_of_lt hsuffix.length_le hless
      exact Nat.le_trans (ih hround hless' hrun) hsuffix.length_le

/-- An incomplete body: `parseLine` is called on it. -/
theorem processRead_incomplete (h : InBody c)
    (hless : c.inputBuffer.readable.length < c.ContentLength.toNat) :
    ∃ calls, processRead (handlersWith f) w c = processReadLoop getLine (handlersWith f)
      (c.inputBuffer.readableBytes + 1) w c.inRound .LINE_OPEN calls := by
  obtain ⟨calls, hrun⟩ := processRead_inBody (f := f) (w := w) h
  have hless' : c.inRound.inputBuffer.readable.length < c.inRound.ContentLength.toNat := hless
  exact ⟨calls, by rw [hrun, dispatch_incomplete h.inRound hless']⟩

/-- The line scan in the second round, where it changes nothing. -/
theorem waits_of_stuck (h : InBody c)
    (hless : c.inputBuffer.readable.length < c.ContentLength.toNat)
    (hstuck : Stuck c.inputBuffer) : c.Waits c.inRound := by
  intro ω f w
  obtain ⟨status, hstatus, hscan⟩ := scanLine_stuck h.wellFormed hstuck
  obtain ⟨calls, hrun⟩ := processRead_incomplete (f := f) (w := w) h hless
  have hline : c.inRound.nextLine .LINE_OPEN = some (c.inRound, status) :=
    nextLine_scan (fun hbody => absurd hbody.2 (by decide)) hscan
  refine ⟨calls, ?_⟩
  rw [hrun]
  exact processReadLoop_noLine hline hstatus _ calls

/-- The line scan in the second round, where it consumes bytes of the body. -/
theorem loses_of_not_stuck (h : InBody c) (hne : c.inputBuffer.readable ≠ [])
    (hless : c.inputBuffer.readable.length < c.ContentLength.toNat)
    (hstuck : ¬ Stuck c.inputBuffer) (hwait : c.Waits c') :
    c'.inputBuffer.readable.length < c.inputBuffer.readable.length := by
  obtain ⟨calls', hrun⟩ := hwait Unit (fun _ _ => none) ()
  obtain ⟨calls, hloop⟩ := processRead_incomplete (f := fun (_ : Unit) _ => none) (w := ()) h hless
  rw [hloop] at hrun
  obtain ⟨b, status, hline, hwf, -, hend⟩ := processReadLoop_round h.inRound hless hrun
  rw [nextLine, if_neg (by simp)] at hline
  obtain ⟨⟨b', status'⟩, hscan, heq⟩ := Option.map_eq_some_iff.mp hline
  have hlt : b.readable.length < c.inputBuffer.readable.length := by
    rw [← show b' = b from congrArg (fun r => r.1.inputBuffer) heq]
    exact scanLine_consumes h.wellFormed hne hstuck hscan
  rcases hend with rfl | ⟨calls₁, hrest⟩
  · exact hlt
  · -- a line was delimited, and the loop goes on with fewer bytes
    have hround : InBody (inRound { c.inRound with inputBuffer := b }) :=
      (h.inRound.of_input hwf).inRound
    have hless' : b.readable.length < c.ContentLength.toNat := Nat.lt_trans hlt hless
    exact Nat.lt_of_le_of_lt (processReadLoop_shrinks hround hless' hrest) hlt

/-- A complete body: `parseContent` has to write a NUL behind it. -/
theorem goesOn_iff (h : InBody c)
    (hall : c.ContentLength.toNat ≤ c.inputBuffer.readable.length) :
    c.GoesOn ↔ (c.charAt c.startLine c.ContentLength.toNat).isSome := by
  have hall' : c.inRound.ContentLength.toNat ≤ c.inRound.inputBuffer.readable.length := hall
  have hsame : c.charAt c.startLine c.ContentLength.toNat
      = c.inRound.charAt c.startLine c.inRound.ContentLength.toNat := by
    unfold charAt storage
    rfl
  rw [hsame, ← putNul_isSome]
  cases hput : c.inRound.putNul c.startLine c.inRound.ContentLength.toNat with
  | none =>
    -- the write is undefined, also where `doRequest` would have returned
    refine iff_of_false ?_ (by simp)
    rintro ⟨c', hgoes⟩
    obtain ⟨calls', hrun⟩ := hgoes Unit (fun w c => some (w, c, .FILE_REQUEST)) ()
    obtain ⟨calls, hround⟩ := processRead_inBody
      (f := fun (w : Unit) c => some (w, c, .FILE_REQUEST)) (w := ()) h
    rw [hround, dispatch_outside h.inRound hall' hput] at hrun
    cases hrun
  | some c₁ =>
    refine iff_of_true ⟨{ c₁ with string := c.startLine }, fun ω f w => ?_⟩ rfl
    obtain ⟨calls, hround⟩ := processRead_inBody (f := f) (w := w) h
    refine ⟨calls, ?_⟩
    rw [hround, dispatch_complete h.inRound hall' hput]
    cases f w { c₁ with string := c.startLine } <;> rfl

end Round

/-! ## Runs

Up to the first chunk that is disturbed, all bytes of the body are readable; a disturbed one takes
some away for good. -/

section Runs

variable {c c' : HttpConnection} {chunk : List UInt8}

theorem receive_eq {c₁ : HttpConnection} (hread : c.read (.bytes chunk) = some (c₁, true)) :
    receive c chunk = match processRead (handlersWith fun (_ : Unit) _ => none) () c₁ with
      | some (.returned _ c _, _) => some c
      | _ => none := by
  rw [receive, hread]
  rfl

/-- An incomplete body that is left alone: the connection waits for the rest. -/
theorem receive_incomplete (h : InBody c) (hne : chunk ≠ []) (hmax : chunk.length ≤ maxTransfer)
    (hu : Undisturbed c chunk)
    (hless : c.inputBuffer.readable.length + chunk.length < c.ContentLength.toNat) :
    ∃ b, Extends c.inputBuffer chunk b ∧
      receive c chunk = some (inRound { c with inputBuffer := b }) := by
  obtain ⟨b, hx, hread⟩ := read_chunk h.wellFormed hne hmax hu.stored
  have hless' : b.readable.length < c.ContentLength.toNat := by
    rw [hx.readable h.wellFormed, List.length_append]
    exact hless
  obtain ⟨calls, hrun⟩ := waits_of_stuck (h.of_input hx.wellFormed) hless'
    (hu.stuck _ hread hless') Unit (fun _ _ => none) ()
  refine ⟨b, hx, ?_⟩
  rw [receive_eq hread, hrun]

/-- A complete body ends the run. -/
theorem receive_complete (h : InBody c) (hne : chunk ≠ []) (hmax : chunk.length ≤ maxTransfer)
    (hu : Undisturbed c chunk)
    (hall : c.ContentLength.toNat ≤ c.inputBuffer.readable.length + chunk.length) :
    receive c chunk = none := by
  obtain ⟨b, hx, hread⟩ := read_chunk h.wellFormed hne hmax hu.stored
  have hall' : c.ContentLength.toNat ≤ b.readable.length := by
    rw [hx.readable h.wellFormed, List.length_append]
    exact hall
  obtain ⟨d, hgoes⟩ := (goesOn_iff (h.of_input hx.wellFormed) hall').mpr (hu.room _ hread hall')
  obtain ⟨calls, hrun⟩ := hgoes Unit (fun _ _ => none) ()
  rw [receive_eq hread, hrun]
  rfl

theorem receive_inBody (h : InBody c) (hne : chunk ≠ []) (hmax : chunk.length ≤ maxTransfer)
    (hu : Undisturbed c chunk) (hstep : receive c chunk = some c') : InBody c' := by
  rcases Nat.lt_or_ge (c.inputBuffer.readable.length + chunk.length) c.ContentLength.toNat
    with hless | hall
  · obtain ⟨b, hx, hrecv⟩ := receive_incomplete h hne hmax hu hless
    cases hrecv.symm.trans hstep
    exact (h.of_input hx.wellFormed).inRound
  · rw [receive_complete h hne hmax hu hall] at hstep
    cases hstep

/-- One chunk. -/
theorem received_iff (h : InBody c) (hne : chunk ≠ []) (hmax : chunk.length ≤ maxTransfer) :
    Received c chunk ↔ Undisturbed c chunk := by
  have hcount := Nat.lt_or_ge (c.inputBuffer.readable.length + chunk.length) c.ContentLength.toNat
  by_cases hc : c.inputBuffer.Compacts chunk.length
  · -- the chunk is not stored
    refine iff_of_false (fun hr => ?_) fun hu => hu.stored hc
    have hnone := read_compact h.wellFormed hmax hc
    rcases hcount with hless | hall
    · obtain ⟨c₁, -, hread, -⟩ := hr.waits hless
      rw [hnone] at hread
      cases hread
    · obtain ⟨c₁, hread, -⟩ := hr.goesOn hall
      rw [hnone] at hread
      cases hread
  · obtain ⟨b, hx, hread⟩ := read_chunk h.wellFormed hne hmax hc
    have hbytes : b.readable = c.inputBuffer.readable ++ chunk := hx.readable h.wellFormed
    have hlen : b.readable.length = c.inputBuffer.readable.length + chunk.length := by
      rw [hbytes, List.length_append]
    have hb := h.of_input hx.wellFormed
    constructor
    · intro hr
      refine ⟨hc, fun c₁ hread₁ hless => ?_, fun c₁ hread₁ hall => ?_⟩
      · cases hread.symm.trans hread₁
        obtain ⟨c₁, c₂, hread₂, hwaits, hkept⟩ := hr.waits (by rw [← hlen]; exact hless)
        cases hread.symm.trans hread₂
        -- otherwise the line scan would have taken a byte of the body
        by_contra hstuck
        have hsome : b.readable ≠ [] := by
          rw [hbytes]
          exact fun hnil => hne (List.append_eq_nil_iff.mp hnil).2
        have hlost := loses_of_not_stuck hb hsome hless hstuck hwaits
        rw [hkept, ← hbytes] at hlost
        exact Nat.lt_irrefl _ hlost
      · cases hread.symm.trans hread₁
        obtain ⟨c₁, hread₂, hgoes⟩ := hr.goesOn (by rw [← hlen]; exact hall)
        cases hread.symm.trans hread₂
        exact (goesOn_iff hb hall).mp hgoes
    · intro hu
      refine ⟨fun hless => ?_, fun hall => ?_⟩
      · have hless' : b.readable.length < c.ContentLength.toNat := by rw [hlen]; exact hless
        exact ⟨_, _, hread, waits_of_stuck hb hless' (hu.stuck _ hread hless'), hbytes⟩
      · have hall' : c.ContentLength.toNat ≤ b.readable.length := by rw [hlen]; exact hall
        exact ⟨_, hread, (goesOn_iff hb hall').mpr (hu.room _ hread hall')⟩

/-- **When a body that arrives in pieces is received.** A connection waits for a body, of which
a part may be readable already, and the rest arrives in any chunks. Each call of `processRead`
before the body is complete returns `NO_REQUEST` with all bytes received so far still readable
in order, and the one behind its last byte goes on to `doRequest`, if and only if every chunk
of the run is `Undisturbed`. -/
theorem body_received_iff (h : InBody c) (chunks : List (List UInt8))
    (hne : ∀ chunk ∈ chunks, chunk ≠ []) (hmax : ∀ chunk ∈ chunks, chunk.length ≤ maxTransfer) :
    Along receive Received c chunks ↔ Along receive Undisturbed c chunks := by
  -- induction on the chunks: behind the first one the connection waits for the body again
  induction chunks generalizing c with
  | nil => exact Iff.rfl
  | cons chunk chunks ih =>
    have hne₀ := hne chunk List.mem_cons_self
    have hmax₀ := hmax chunk List.mem_cons_self
    unfold Along
    rw [received_iff h hne₀ hmax₀]
    refine and_congr_right fun hu => forall_congr' fun c' => imp_congr_right fun hstep => ?_
    exact ih (receive_inBody h hne₀ hmax₀ hu hstep) (fun x hx => hne x (List.mem_cons_of_mem _ hx))
      fun x hx => hmax x (List.mem_cons_of_mem _ hx)

end Runs

/-! ## Bodies of two and three bytes -/

/-- A new connection that waits for a body, its head handled. -/
def awaiting (length : Int) : HttpConnection :=
  { sampleConnection with
    checkState := .CHECK_STATE_CONTENT
    ContentLength := length
    startLine := .output kCheapPrepend }

theorem awaiting_inBody {length : Int} (hpos : 0 < length) (hlong : length < 2 ^ 63) :
    InBody (awaiting length) := ⟨new_wellFormed readBufferSize, rfl, hpos, hlong⟩

/-- Room for the NUL, in the output buffer. -/
theorem awaiting_room {n : Nat} (c : HttpConnection)
    (hc : c.outputBuffer = Buffer.new writeBufferSize) (hn : n < writeBufferSize) :
    (c.charAt (.output kCheapPrepend) n).isSome := by
  have hlen : c.outputBuffer.buffer.length = kCheapPrepend + writeBufferSize := by
    rw [hc]
    exact List.length_replicate
  have hlt : kCheapPrepend + n < c.outputBuffer.buffer.length := by omega
  show (c.outputBuffer.buffer[kCheapPrepend + n]?).isSome
  rw [List.getElem?_eq_getElem hlt]
  rfl

/-- A body that begins with a CR and an `a`, in two chunks. -/
theorem body_received_iff_sample : Along receive Received (awaiting 3) [[13, 97], [98]] := by
  have hbody : InBody (awaiting 3) := awaiting_inBody (by decide) (by decide)
  have hfirst : Undisturbed (awaiting 3) [13, 97] := by
    have hnc : ¬ (awaiting 3).inputBuffer.Compacts [13, 97].length := not_compacts_of_reader rfl _
    obtain ⟨b, hx, hread⟩ := read_chunk hbody.wellFormed (show [13, 97] ≠ [] by decide)
      (by decide) hnc
    have hbytes : b.readable = [13, 97] := hx.readable hbody.wellFormed
    refine ⟨hnc, fun c₁ hread₁ _ => ?_, fun c₁ hread₁ hall => ?_⟩
    · cases hread.symm.trans hread₁
      left
      show b.readable.head? = some CR ∧ b.readable[1]? ≠ some LF
      rw [hbytes]
      decide
    · cases hread.symm.trans hread₁
      have hall' : 3 ≤ b.readable.length := hall
      rw [hbytes] at hall'
      exact absurd hall' (by decide)
  refine (body_received_iff hbody _ (by decide) (by decide)).mpr ⟨hfirst, fun c' hstep => ?_⟩
  obtain ⟨b, hx, hrecv⟩ := receive_incomplete hbody (by decide) (by decide) hfirst (by decide)
  cases hrecv.symm.trans hstep
  have hbytes : b.readable = [13, 97] := hx.readable hbody.wellFormed
  have hnc : ¬ b.Compacts [98].length := not_compacts_of_reader hx.readerIndex _
  obtain ⟨b₂, hx₂, hread⟩ := read_chunk (c := inRound { awaiting 3 with inputBuffer := b })
    hx.wellFormed (show [98] ≠ [] by decide) (by decide) hnc
  have hbytes₂ : b₂.readable = b.readable ++ [98] := hx₂.readable hx.wellFormed
  refine ⟨⟨hnc, fun c₁ hread₁ hless => ?_, fun c₁ hread₁ _ => ?_⟩, fun _ _ => trivial⟩
  · cases hread.symm.trans hread₁
    have hless' : b₂.readable.length < 3 := hless
    rw [hbytes₂, hbytes] at hless'
    exact absurd hless' (by decide)
  · cases hread.symm.trans hread₁
    exact awaiting_room _ rfl (show 3 < writeBufferSize by decide)

/-- The body `ab` in two chunks: the first call consumes the `a`. -/
theorem body_lost_between_chunks :
    ∃ c, receive (awaiting 2) [97] = some c ∧ c.inputBuffer.readable = [] ∧
      ¬ Along receive Received (awaiting 2) [[97], [98]] := by
  have hread : (receive (awaiting 2) [97]).map (fun c => c.inputBuffer.readable) = some [] := by
    decide +kernel
  obtain ⟨c, hc, hempty⟩ := Option.map_eq_some_iff.mp hread
  refine ⟨c, hc, hempty, fun h => ?_⟩
  have hbody : InBody (awaiting 2) := awaiting_inBody (by decide) (by decide)
  have hu := (received_iff hbody (by decide) (by decide)).mp h.1
  obtain ⟨b, hx, hread⟩ := read_chunk hbody.wellFormed (by decide) (by decide) hu.stored
  have hbytes : b.readable = [] ++ [97] := hx.readable hbody.wellFormed
  have hstuck := hu.stuck _ hread (by rw [hbytes]; decide)
  rw [Stuck, hbytes] at hstuck
  revert hstuck
  simp [CR, LF]

end HttpWebserver.HttpConnection
