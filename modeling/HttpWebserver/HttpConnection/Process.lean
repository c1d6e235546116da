import HttpWebserver.HttpConnection.DocRoot
import HttpWebserver.HttpConnection.Response
import HttpWebserver.Reactor.Registration

/-!
# HttpConnection — closing a connection

The model of `process` and `closeConn` in `HttpConnection/HttpConnection.cc`, with the appender of
the response and the handlers of the request as parameters.

* `Closed`: the poller and the kernel have forgotten the channel of the connection;
* `closeConn_closed`: `closeConn` does that;
* **`process_registers_again`** — a connection is registered when `process` returns, also where
  `closeConn` was called: the call of `enableWriting` behind it sees a new channel.
-/

namespace HttpWebserver.HttpConnection

variable {ω : Type}

def closeConn (c : HttpConnection) : HttpConnection :=
  let (poller, channel) := c.poller.removeChannel c.channel
  { c with poller := poller, channel := channel }

/-- `process` behind `processRead`. -/
def answerRead (add : Appender) (w : ω) (c : HttpConnection) (readRet : HttpCode) :
    Option (ω × HttpConnection) :=
  if readRet = .NO_REQUEST then some (w, c.enableReading)
  else do
    let (c, writeRet) ← processWriteWith add c readRet
    let c := if !writeRet then c.closeConn else c
    some (w, c.enableWriting)

/-- `process`; `none` where `processRead` or `processWrite` leaves the defined behaviour. -/
def process (add : Appender) (H : Handlers ω) (w : ω) (c : HttpConnection) :
    Option (ω × HttpConnection) := do
  match ← processRead H w c with
  | (.returned w c readRet, _) => answerRead add w c readRet
  | _ => none

/-- The channel is not registered, and no event of it is delivered. -/
structure Closed (c : HttpConnection) : Prop where
  hasChannel : c.poller.hasChannel c.channel = false
  status : c.channel.status = .kNew
  interest : c.poller.interest c.channel.fd = none
  silent : ∀ revents, c.poller.report c.channel.fd revents = none

/-- The channel is registered, and the kernel watches its descriptor. -/
structure Registered (c : HttpConnection) : Prop where
  hasChannel : c.poller.hasChannel c.channel = true
  status : c.channel.status = .kAdded
  interest : (c.poller.interest c.channel.fd).isSome

theorem Registered.not_closed {c : HttpConnection} (h : Registered c) : ¬ Closed c := by
  intro hclosed
  have hstatus := hclosed.status
  rw [h.status] at hstatus
  cases hstatus

section Closing

variable {add : Appender} {H : Handlers ω} {w w' : ω} {c c₁ c₂ : HttpConnection}
  {ret : HttpCode} {calls : List Call}

/-- `closeConn` closes a connection that the poller knows as it is. -/
theorem closeConn_closed (h : Tracked c.poller c.channel) : Closed c.closeConn := by
  have hclosed : Tracked c.closeConn.poller c.closeConn.channel := removeChannel_tracked h
  have hinterest : c.closeConn.poller.interest c.closeConn.channel.fd = none := hclosed.interest
  refine ⟨?_, rfl, hinterest, fun revents => ?_⟩
  · rw [EpollPoller.hasChannel, hclosed.channels]
    rfl
  · rw [EpollPoller.report, hinterest]

/-- The call behind it registers the connection. -/
theorem closeConn_enableWriting (c : HttpConnection) : Registered c.closeConn.enableWriting := by
  obtain ⟨hstatus, hhas, hinterest⟩ := updateChannel_kNew (c := { c.closeConn.channel with
    events := c.closeConn.channel.events ||| (Channel.kWriteEvent ||| Channel.kCloseEvent) })
    c.closeConn.poller rfl
  exact ⟨hhas, hstatus, hinterest⟩

/-- An event is delivered then. -/
theorem closeConn_enableWriting_report (h : Tracked c.poller c.channel) :
    ∃ p, c.closeConn.enableWriting.poller.report c.closeConn.enableWriting.channel.fd EPOLLOUT
      = some p := by
  have hagain : Tracked c.closeConn.enableWriting.poller c.closeConn.enableWriting.channel :=
    updateChannel_tracked (removeChannel_tracked h) _
  refine hagain.report (closeConn_enableWriting c).status (by decide) ?_
  show EPOLLOUT &&& (c.channel.events ||| (Channel.kWriteEvent ||| Channel.kCloseEvent)) = EPOLLOUT
  have hout : EPOLLOUT &&& (Channel.kWriteEvent ||| Channel.kCloseEvent) = EPOLLOUT := by decide
  rw [BitVec.and_or_distrib_left, hout]
  grind

/-- What follows on a `processWrite` that returns false. -/
theorem process_of_fails (hrun : processRead H w c = some (.returned w' c₁ ret, calls))
    (hret : ret ≠ .NO_REQUEST) (hfails : processWriteWith add c₁ ret = some (c₂, false)) :
    process add H w c = some (w', c₂.closeConn.enableWriting) := by
  rw [process, hrun]
  show answerRead add w' c₁ ret = _
  rw [answerRead, if_neg hret, hfails]
  rfl

/-- **Closed connections come back.** For every connection and every verdict with which
`processWrite` returns false: the connection is registered when `process` returns. From a
connection that the poller knew as it was, the kernel may report `EPOLLOUT` next. -/
theorem process_registers_again (hrun : processRead H w c = some (.returned w' c₁ ret, calls))
    (hret : ret ≠ .NO_REQUEST) (hfails : processWriteWith add c₁ ret = some (c₂, false)) :
    ∃ d, process add H w c = some (w', d) ∧ Registered d ∧ ¬ Closed d ∧
      (Tracked c₂.poller c₂.channel →
        ∃ p, d.poller.report d.channel.fd EPOLLOUT = some p) := by
  have hopen := closeConn_enableWriting c₂
  exact ⟨_, process_of_fails hrun hret hfails, hopen, hopen.not_closed,
    closeConn_enableWriting_report⟩

/-- A request without a body for a page that does not exist. -/
def missingPage : HttpConnection :=
  { formAt "/w" "/0" "" with
    channel := sampleConnection.channel
    poller := sampleConnection.poller
    outputBuffer := Buffer.new writeBufferSize
    startLine := .output 0
    checkState := .CHECK_STATE_CONTENT }

theorem missingPage_run : ∃ w' c₁ calls, processRead (handlers sampleSite) sampleWorld missingPage
    = some (.returned w' c₁ .NO_RESOURCE, calls) := by
  have hdone : (processRead (handlers sampleSite) sampleWorld missingPage).bind (·.1.ret)
      = some .NO_RESOURCE := by decide +kernel
  obtain ⟨⟨outcome, calls⟩, hrun, hret⟩ := Option.bind_eq_some_iff.mp hdone
  cases outcome with
  | returned w' c₁ ret =>
    cases hret
    exact ⟨w', c₁, calls, hrun⟩
  | undefined => cases hret
  | outOfFuel => cases hret

theorem process_registers_again_missing : ∃ w' d,
    process addResponse (handlers sampleSite) sampleWorld missingPage = some (w', d) ∧
      Registered d := by
  obtain ⟨w', c₁, calls, hrun⟩ := missingPage_run
  obtain ⟨d, hprocess, hopen, -⟩ :=
    process_registers_again hrun (by decide) (noResource_fails c₁ addResponse)
  exact ⟨w', d, hprocess, hopen⟩

/-- `processWrite` fails for the page that does not exist, and the connection is not closed. -/
theorem missing_page_not_closed : ∃ w' c₁ calls d,
    processRead (handlers sampleSite) sampleWorld missingPage
        = some (.returned w' c₁ .NO_RESOURCE, calls) ∧
      processWrite c₁ .NO_RESOURCE = some (c₁, false) ∧
      process addResponse (handlers sampleSite) sampleWorld missingPage = some (w', d) ∧
      ¬ Closed d := by
  obtain ⟨w', c₁, calls, hrun⟩ := missingPage_run
  have hfails : processWrite c₁ .NO_RESOURCE = some (c₁, false) := noResource_fails c₁ addResponse
  exact ⟨w', c₁, calls, _, hrun, hfails, process_of_fails hrun (by decide) hfails,
    (closeConn_enableWriting c₁).not_closed⟩

end Closing

end HttpWebserver.HttpConnection
