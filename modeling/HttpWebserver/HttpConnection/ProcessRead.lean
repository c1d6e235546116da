import HttpWebserver.HttpConnection.ParseLine
import HttpWebserver.Lib.CString

/-!
# HttpConnection — the request state machine

The model of `processRead` in `HttpConnection/HttpConnection.cc`: a loop that delimits a line
with `parseLine` and hands it to the handler that `checkState_` selects.

* The handlers are parameters; `doRequest` also changes a world that connections share. A
  handler that leaves the defined behaviour returns `none`.
* `processReadLoop` runs on fuel, one unit for each evaluation of the loop condition, and says
  in `ReadOutcome` how it ended. It also lists the calls of handlers it made, each with the
  text that was passed and what could be read there; `none` is undefined behaviour of the
  loop's own accesses to the input buffer.
* Where the text of a line begins is a parameter of the loop as well. In the code it is
  `getLine`; `lineStart` is the byte the next `parseLine` starts at.
* `passed` are the bytes that the loop's calls of `parseLine` advance over.

`nextLine_scan`, `processReadLoop_noLine` and `processReadLoop_line` say what one evaluation of the
condition and one round do.
-/

namespace HttpWebserver

namespace HttpConnection

open CString

/-- What a `char*` of the connection points at, read as a string. -/
def deref (c : HttpConnection) : Ptr → Option (List UInt8)
  | .null => none
  | .input off => cString c.inputBuffer.buffer off
  | .output off => cString c.outputBuffer.buffer off

def getLine (c : HttpConnection) : Ptr := c.startLine

/-- The first byte of the next line, in the input buffer. -/
def lineStart (c : HttpConnection) : Ptr := .input c.inputBuffer.peek

structure Handlers (ω : Type) where
  parseRequestLine : HttpConnection → Ptr → Option (HttpConnection × HttpCode)
  parseHeaders : HttpConnection → Ptr → Option (HttpConnection × HttpCode)
  parseContent : HttpConnection → Ptr → Option (HttpConnection × HttpCode)
  doRequest : ω → HttpConnection → Option (ω × HttpConnection × HttpCode)

/-- A call of a line handler: the state that selected it, its argument, and the string there. -/
structure Call where
  handler : CheckState
  text : Ptr
  content : Option (List UInt8)
deriving DecidableEq, Repr

inductive ReadOutcome (ω : Type) where
  | returned (w : ω) (c : HttpConnection) (ret : HttpCode)
  | undefined
  | outOfFuel

/-- The value that `processRead` returns. -/
def ReadOutcome.ret {ω : Type} : ReadOutcome ω → Option HttpCode
  | .returned _ _ ret => some ret
  | .undefined => none
  | .outOfFuel => none

/-- How the `switch` of a round ends: with another round, or with a value to return. -/
inductive Round (ω : Type) where
  | again (c : HttpConnection) (lineStatus : LineStatus)
  | stop (w : ω) (c : HttpConnection) (ret : HttpCode)

variable {ω : Type}

/-- The `switch` on `checkState_`; `lineStatus` is `LINE_OK` where it is reached. -/
def dispatch (H : Handlers ω) (w : ω) (c : HttpConnection) (text : Ptr) : Option (Round ω) :=
  match c.checkState with
  | .CHECK_STATE_REQUESTLINE => do
    let (c, ret) ← H.parseRequestLine c text
    if ret = .BAD_REQUEST then some (.stop w c .BAD_REQUEST) else some (.again c .LINE_OK)
  | .CHECK_STATE_HEADER => do
    let (c, ret) ← H.parseHeaders c text
    if ret = .BAD_REQUEST then some (.stop w c .BAD_REQUEST)
    else if ret = .GET_REQUEST then
      let (w, c, ret) ← H.doRequest w c
      some (.stop w c ret)
    else some (.again c .LINE_OK)
  | .CHECK_STATE_CONTENT => do
    let (c, ret) ← H.parseContent c text
    if ret = .GET_REQUEST then
      let (w, c, ret) ← H.doRequest w c
      some (.stop w c ret)
    else some (.again c .LINE_OPEN)

/-- The loop condition: in the body of a request no line is delimited. -/
def nextLine (c : HttpConnection) (lineStatus : LineStatus) :
    Option (HttpConnection × LineStatus) :=
  if c.checkState = .CHECK_STATE_CONTENT ∧ lineStatus = .LINE_OK then some (c, .LINE_OK)
  else c.parseLine

def processReadLoop (lineOf : HttpConnection → Ptr) (H : Handlers ω) :
    Nat → ω → HttpConnection → LineStatus → List Call → Option (ReadOutcome ω × List Call)
  | 0, _, _, _, calls => some (.outOfFuel, calls)
  | fuel + 1, w, c, lineStatus, calls => do
    -- `parseLine` does not change `startLine_`
    let text := lineOf c
    let (c, lineStatus) ← c.nextLine lineStatus
    if lineStatus ≠ .LINE_OK then
      some (.returned w c .NO_REQUEST, calls)
    else
      let c := { c with startLine := .output c.outputBuffer.peek }
      let calls := calls ++ [⟨c.checkState, text, c.deref text⟩]
      match dispatch H w c text with
      | none => some (.undefined, calls)
      | some (.stop w c ret) => some (.returned w c ret, calls)
      | some (.again c lineStatus) => processReadLoop lineOf H fuel w c lineStatus calls

/-- `processRead`, its lines found by `lineOf`, with the calls of handlers it makes. -/
def processReadFrom (lineOf : HttpConnection → Ptr) (H : Handlers ω) (w : ω)
    (c : HttpConnection) : Option (ReadOutcome ω × List Call) :=
  processReadLoop lineOf H (c.inputBuffer.readableBytes + 2) w c .LINE_OK []

def processRead (H : Handlers ω) (w : ω) (c : HttpConnection) :
    Option (ReadOutcome ω × List Call) :=
  processReadFrom getLine H w c

/-- What a call of `parseLine` has advanced over: the front of what it found readable. -/
def advanced (c d : HttpConnection) : List UInt8 :=
  c.inputBuffer.readable.take (c.inputBuffer.readable.length - d.inputBuffer.readable.length)

/-- What the calls of `parseLine` in the loop advance over, one after the other. What a handler
drops is not among it. -/
def passedLoop (lineOf : HttpConnection → Ptr) (H : Handlers ω) :
    Nat → ω → HttpConnection → LineStatus → List UInt8
  | 0, _, _, _ => []
  | fuel + 1, w, c, lineStatus =>
    match c.nextLine lineStatus with
    | none => []
    | some (d, status) =>
      if status ≠ .LINE_OK then c.advanced d
      else
        let round := dispatch H w { d with startLine := .output d.outputBuffer.peek } (lineOf c)
        c.advanced d ++ match round with
          | some (.again e status) => passedLoop lineOf H fuel w e status
          | _ => []

/-- The bytes that `parseLine` passes over in `processRead`. -/
def passed (H : Handlers ω) (w : ω) (c : HttpConnection) : List UInt8 :=
  passedLoop getLine H (c.inputBuffer.readableBytes + 2) w c .LINE_OK

/-! ## One round

The equations of the loop, by its condition. -/

section OneRound

variable {H : Handlers ω} {w : ω} {c d : HttpConnection} {lineStatus status : LineStatus}
  {lineOf : HttpConnection → Ptr}

/-- The loop condition where it calls `parseLine`. -/
theorem nextLine_scan {b : Buffer}
    (hlines : ¬ (c.checkState = .CHECK_STATE_CONTENT ∧ lineStatus = .LINE_OK))
    (hscan : scanLine c.inputBuffer = some (b, status)) :
    c.nextLine lineStatus = some ({ c with inputBuffer := b }, status) := by
  rw [nextLine, if_neg hlines, parseLine, hscan]
  rfl

/-- It does at a request line. -/
theorem nextLine_requestLine {b : Buffer} (hstate : c.checkState = .CHECK_STATE_REQUESTLINE)
    (hscan : scanLine c.inputBuffer = some (b, status)) :
    c.nextLine lineStatus = some ({ c with inputBuffer := b }, status) :=
  nextLine_scan (fun hbody => absurd (hstate.symm.trans hbody.1) (by decide)) hscan

/-- The loop condition is false. -/
theorem processReadLoop_noLine (hline : c.nextLine lineStatus = some (d, status))
    (hstop : status ≠ .LINE_OK) (fuel : Nat) (calls : List Call) :
    processReadLoop lineOf H (fuel + 1) w c lineStatus calls
      = some (.returned w d .NO_REQUEST, calls) := by
  rw [processReadLoop, hline]
  exact if_pos hstop

/-- The loop behind the `switch` of a round. -/
def afterRound (lineOf : HttpConnection → Ptr) (H : Handlers ω) (fuel : Nat) (w : ω)
    (calls : List Call) : Option (Round ω) → Option (ReadOutcome ω × List Call)
  | none => some (.undefined, calls)
  | some (.stop w c ret) => some (.returned w c ret, calls)
  | some (.again c lineStatus) => processReadLoop lineOf H fuel w c lineStatus calls

/-- A round on a line that is complete, or on a body. -/
theorem processReadLoop_line {round : Option (Round ω)}
    (hline : c.nextLine lineStatus = some (d, .LINE_OK))
    (hround : dispatch H w { d with startLine := .output d.outputBuffer.peek } (lineOf c) = round)
    (fuel : Nat) (calls : List Call) :
    processReadLoop lineOf H (fuel + 1) w c lineStatus calls = afterRound lineOf H fuel w
      (calls ++ [⟨d.checkState, lineOf c, d.deref (lineOf c)⟩]) round := by
  rw [processReadLoop, hline, ← hround]
  rfl

/-- What the rounds behind it pass over. -/
def passedAfter (lineOf : HttpConnection → Ptr) (H : Handlers ω) (fuel : Nat) (w : ω) :
    Option (Round ω) → List UInt8
  | some (.again c lineStatus) => passedLoop lineOf H fuel w c lineStatus
  | _ => []

theorem passedLoop_noLine (hline : c.nextLine lineStatus = some (d, status))
    (hstop : status ≠ .LINE_OK) (fuel : Nat) :
    passedLoop lineOf H (fuel + 1) w c lineStatus = c.advanced d := by
  rw [passedLoop, hline]
  exact if_pos hstop

theorem passedLoop_line {round : Option (Round ω)}
    (hline : c.nextLine lineStatus = some (d, .LINE_OK))
    (hround : dispatch H w { d with startLine := .output d.outputBuffer.peek } (lineOf c) = round)
    (fuel : Nat) : passedLoop lineOf H (fuel + 1) w c lineStatus
      = c.advanced d ++ passedAfter lineOf H fuel w round := by
  rw [passedLoop, hline, ← hround]
  rfl

end OneRound

end HttpConnection

end HttpWebserver
