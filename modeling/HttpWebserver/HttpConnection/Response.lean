import HttpWebserver.Buffer.Fifo
import HttpWebserver.HttpConnection.Write
import HttpWebserver.Lib.CString

/-!
# HttpConnection — building a response

The model of `processWrite` and of the functions under it in `HttpConnection/HttpConnection.cc`.
They append to `outputBuffer_` through `addResponse`, a function with variable arguments.

* `render`: what `vsnprintf` makes of a format and its arguments; `none` where a conversion has
  no argument of its type;
* `Appender` is a way to append a formatted text to the buffer. `processWrite` and what it calls
  have it as a parameter; in the code it is `addResponse`, which calls `vappend` with the format
  and without its own arguments.
* **`arguments_not_used`** — no function with a conversion in its format appends the text that its
  arguments give.
* `Complete`: a status line, headers and a body are queued, and all the counts agree;
* **`no_verdict_responds`** — no verdict gets a complete response. A missing resource and an empty
  file would not get one either if `addResponse` used its arguments.
-/

namespace HttpWebserver

open CString MachineInt

/-! ## Formats

An appender is what `addResponse` may be: the functions of the response are defined for any of
them, and for the one of the source that passes no arguments on. -/

/-- An argument of a function with variable arguments. -/
inductive Arg where
  | int (n : Int)
  | str (s : List UInt8)
deriving DecidableEq, Repr

/-- `%d`. -/
def decimal (n : Int) : List UInt8 := ascii (toString n)

/-- The output for a format with `%s` and `%d`. -/
def render : List UInt8 → List Arg → Option (List UInt8)
  | [], _ => some []
  | 37 :: 115 :: format, .str s :: args => (render format args).map (s ++ ·)
  | 37 :: 100 :: format, .int n :: args => (render format args).map (decimal n ++ ·)
  | 37 :: _, _ => none
  | x :: format, args => (render format args).map (x :: ·)

example : render (ascii "%s %d %s\r\n") [.str (ascii "HTTP/1.1"), .int 200, .str (ascii "OK")] =
    some (ascii "HTTP/1.1 200 OK\r\n") := by decide +kernel

/-- A function that appends a formatted text to a buffer. -/
abbrev Appender := Buffer → List UInt8 → List Arg → Option (Buffer × Bool)

/-- `vappend(maxLen, format, …)` with the arguments it is called with. -/
def Buffer.vappendFormat (b : Buffer) (maxLen : Nat) (format : List UInt8) (args : List Arg) :
    Option (Buffer × Bool) := do
  let out ← render format args
  b.vappend maxLen out

namespace HttpConnection

/-- `vappend` is called with the format only. -/
def addResponse : Appender := fun b format _ => b.vappendFormat writeBufferSize format []

section Response

variable (add : Appender) (c : HttpConnection)

/-- A call of the appender on `outputBuffer_`. -/
def addFormat (format : List UInt8) (args : List Arg) : Option (HttpConnection × Bool) := do
  let (outputBuffer, ok) ← add c.outputBuffer format args
  some ({ c with outputBuffer := outputBuffer }, ok)

def addStatusLine (status : Int) (title : List UInt8) : Option (HttpConnection × Bool) :=
  addFormat add c (ascii "%s %d %s\r\n") [.str (ascii "HTTP/1.1"), .int status, .str title]

def addContentLength (contentLen : Int) : Option (HttpConnection × Bool) :=
  addFormat add c (ascii "Content-Length:%d\r\n") [.int contentLen]

def addLinger : Option (HttpConnection × Bool) :=
  addFormat add c (ascii "Connection:%s\r\n")
    [.str (if c.linger = true then ascii "keep-alive" else ascii "close")]

def addBlankLine : Option (HttpConnection × Bool) :=
  addFormat add c (ascii "%s") [.str (ascii "\r\n")]

def addHeaders (contentLen : Int) : Option (HttpConnection × Bool) := do
  let (c, ok) ← addContentLength add c contentLen
  if !ok then some (c, false)
  else do
    let (c, ok) ← addLinger add c
    if !ok then some (c, false) else addBlankLine add c

def addContent (content : List UInt8) : Option (HttpConnection × Bool) :=
  addFormat add c (ascii "%s") [.str content]

def ok200Title : List UInt8 := ascii "OK"
def error400Form : List UInt8 :=
  ascii "Your request has bad syntax or is inherently impossible to staisfy.\n"
def error403Title : List UInt8 := ascii "Forbidden"
def error403Form : List UInt8 :=
  ascii "You do not have permission to get file form this server.\n"
def error404Title : List UInt8 := ascii "Not Found"
def error500Title : List UInt8 := ascii "Internal Error"
def error500Form : List UInt8 :=
  ascii "There was an unusual problem serving the request file.\n"
def okString : List UInt8 := ascii "<html><body></body></html>"

/-- A case of `processWrite` for an error, and the tail behind the `switch`. -/
def errorResponse (status : Int) (title form : List UInt8) : Option (HttpConnection × Bool) := do
  let (c, _) ← addStatusLine add c status title
  let (c, _) ← addHeaders add c form.length
  let (c, ok) ← addContent add c form
  if ok then some (c.queueBuffer, true) else some (c, false)

/-- The case `FILE_REQUEST`; for an empty file it goes on with `default`. -/
def fileResponse : Option (HttpConnection × Bool) := do
  let (c, _) ← addStatusLine add c 200 ok200Title
  if c.fileStat.st_size ≠ 0 then do
    let (c, _) ← addHeaders add c (toInt32 c.fileStat.st_size)
    some (c.queueFile, true)
  else do
    let (c, _) ← addHeaders add c okString.length
    let (c, _) ← addContent add c okString
    some (c, false)

/-- A bad request is answered with the status line of a missing file. -/
def processWriteWith : HttpCode → Option (HttpConnection × Bool)
  | .INTERNAL_ERROR => errorResponse add c 500 error500Title error500Form
  | .BAD_REQUEST => errorResponse add c 404 error404Title error400Form
  | .FORBIDDEN_REQUEST => errorResponse add c 403 error403Title error403Form
  | .FILE_REQUEST => fileResponse add c
  | _ => some (c, false)

end Response

def processWrite (c : HttpConnection) (ret : HttpCode) : Option (HttpConnection × Bool) :=
  processWriteWith addResponse c ret

/-! ## The arguments -/

/-- The space that `vsnprintf` is given: what is writable once `vappend` has reserved its part. -/
def formatSpace (c : HttpConnection) : Nat :=
  ((c.outputBuffer.ensureWritableBytes writeBufferSize).map Buffer.writableBytes).getD 0

/-- What a function shall do that appends a format with its arguments: the text is appended where
it is shorter than the space, and otherwise nothing is. -/
def Appends (c : HttpConnection) (format : List UInt8) (args : List Arg)
    (r : Option (HttpConnection × Bool)) : Prop :=
  ∃ out d ok, render format args = some out ∧ r = some (d, ok) ∧
    (out.length < c.formatSpace → ok = true ∧
      d.outputBuffer.readable = c.outputBuffer.readable ++ out) ∧
    (c.formatSpace ≤ out.length → ok = false ∧
      d.outputBuffer.readable = c.outputBuffer.readable)

/-- `addResponse` as it would be if it passed its arguments on. -/
def addResponseWithArgs : Appender := fun b format args =>
  b.vappendFormat writeBufferSize format args

section Arguments

variable (c : HttpConnection) {format : List UInt8}

/-- A conversion has no argument. -/
theorem addFormat_undefined (args : List Arg) (hformat : render format [] = none) :
    addFormat addResponse c format args = none := by
  rw [addFormat, addResponse, Buffer.vappendFormat, hformat]
  rfl

theorem Appends.ne_none {args : List Arg} {r : Option (HttpConnection × Bool)}
    (h : Appends c format args r) : r ≠ none := by
  obtain ⟨out, d, ok, -, hr, -⟩ := h
  rw [hr]
  nofun

/-- **The arguments of a response.** For every connection and all arguments: none of the four
functions appends its format with the arguments that it was given. -/
theorem arguments_not_used (status contentLen : Int) (title content : List UInt8) :
    ¬ Appends c (ascii "%s %d %s\r\n") [.str (ascii "HTTP/1.1"), .int status, .str title]
        (addStatusLine addResponse c status title) ∧
      ¬ Appends c (ascii "Content-Length:%d\r\n") [.int contentLen]
        (addContentLength addResponse c contentLen) ∧
      ¬ Appends c (ascii "Connection:%s\r\n")
        [.str (if c.linger = true then ascii "keep-alive" else ascii "close")]
        (addLinger addResponse c) ∧
      ¬ Appends c (ascii "%s") [.str content] (addContent addResponse c content) := by
  refine ⟨fun h => ?_, fun h => ?_, fun h => ?_, fun h => ?_⟩
  · exact h.ne_none c (addFormat_undefined c _ (by decide))
  · exact h.ne_none c (addFormat_undefined c _ (by decide))
  · exact h.ne_none c (addFormat_undefined c _ (by decide))
  · exact h.ne_none c (addFormat_undefined c _ (by decide))

/-- A text that fits in would be appended if the arguments were passed on, on a buffer that does
not compact. -/
theorem appends_with_args {args : List Arg} {out : List UInt8} (hwf : c.outputBuffer.WellFormed)
    (hnc : ¬ c.outputBuffer.Compacts writeBufferSize) (hrender : render format args = some out)
    (hout : out.length < 2 ^ 31) (hfits : out.length < c.formatSpace) :
    Appends c format args (addFormat addResponseWithArgs c format args) := by
  obtain ⟨b₁, hb₁, -, hroom⟩ := Buffer.ensureWritableBytes_spec hwf hnc
  have hspace : c.formatSpace = max writeBufferSize c.outputBuffer.writableBytes := by
    rw [formatSpace, hb₁, ← hroom]
    rfl
  have hfits' : out.length < writeBufferSize ∨ out.length < c.outputBuffer.writableBytes := by
    omega
  obtain ⟨b, hb, -, hread⟩ := Buffer.vappend_spec hwf hout hfits' hnc
  refine ⟨out, { c with outputBuffer := b }, true, hrender, ?_, fun _ => ⟨rfl, hread⟩, ?_⟩
  · have hcall : c.outputBuffer.vappendFormat writeBufferSize format args = some (b, true) := by
      rw [Buffer.vappendFormat, hrender]
      exact hb
    rw [addFormat, addResponseWithArgs, hcall]
    rfl
  · exact fun hfull => absurd hfits (Nat.not_lt_of_le hfull)

/-- The linger header of a new connection. -/
theorem linger_not_rendered :
    addLinger addResponse sampleConnection = none ∧
      ¬ Appends sampleConnection (ascii "Connection:%s\r\n") [.str (ascii "close")]
        (addLinger addResponse sampleConnection) := by
  have hnone : addLinger addResponse sampleConnection = none :=
    addFormat_undefined sampleConnection _ (by decide)
  exact ⟨hnone, fun h => h.ne_none _ hnone⟩

end Arguments

/-! ## Complete responses

No case of `processWrite` gets to its end with a status line: the first conversion of its format
has no argument. -/

/-- The bytes of a response. -/
def responseBytes (status : Int) (title : List UInt8) (linger : Bool) (body : List UInt8) :
    List UInt8 :=
  ascii "HTTP/1.1 " ++ decimal status ++ ascii " " ++ title ++ ascii "\r\n" ++
    ascii "Content-Length:" ++ decimal body.length ++ ascii "\r\n" ++
    ascii "Connection:" ++ (if linger then ascii "keep-alive" else ascii "close") ++
    ascii "\r\n" ++ ascii "\r\n" ++ body

/-- A response is queued: the iovecs are its bytes, and `bytesToSend_` counts them. -/
def Complete (c : HttpConnection) : Prop :=
  (∃ status title body, Holds c (responseBytes status title c.linger body)) ∧
    c.bytesToSend = c.iovTotal

/-- The verdict gets a response. -/
def Responds (add : Appender) (c : HttpConnection) (ret : HttpCode) : Prop :=
  ∃ d, processWriteWith add c ret = some (d, true) ∧ Complete d

section Verdicts

variable (c : HttpConnection)

/-- The first conversion of the status line has no argument. -/
theorem addStatusLine_undefined (status : Int) (title : List UInt8) :
    addStatusLine addResponse c status title = none :=
  addFormat_undefined c _ (by decide)

theorem errorResponse_undefined (status : Int) (title form : List UInt8) :
    errorResponse addResponse c status title form = none := by
  rw [errorResponse, addStatusLine_undefined]
  rfl

/-- Whatever `addResponse` does, `default` answers a missing resource. -/
theorem noResource_fails (add : Appender) :
    processWriteWith add c .NO_RESOURCE = some (c, false) := rfl

/-- Whatever `addResponse` does, the case of an empty file runs into `default`. -/
theorem emptyFile_fails (add : Appender) (hsize : c.fileStat.st_size = 0)
    (d : HttpConnection) : processWriteWith add c .FILE_REQUEST ≠ some (d, true) := by
  intro hrun
  obtain ⟨⟨c₁, ok⟩, hstatus, hrun⟩ := Option.bind_eq_some_iff.mp hrun
  obtain ⟨⟨b, ok'⟩, -, hstatus⟩ := Option.bind_eq_some_iff.mp hstatus
  cases hstatus
  -- the status line does not change the size
  dsimp only at hrun
  rw [if_neg (not_not.mpr hsize)] at hrun
  obtain ⟨⟨c₂, ok₂⟩, -, hrun⟩ := Option.bind_eq_some_iff.mp hrun
  obtain ⟨⟨c₃, ok₃⟩, -, hrun⟩ := Option.bind_eq_some_iff.mp hrun
  cases hrun

/-- **No response.** For every connection and every verdict: `processWrite` does not leave a
complete response. For a missing resource and for an empty file no other `addResponse` would
change that. -/
theorem no_verdict_responds (ret : HttpCode) :
    ¬ Responds addResponse c ret ∧
      (ret = .NO_RESOURCE ∨ ret = .FILE_REQUEST ∧ c.fileStat.st_size = 0 →
        ∀ add, ¬ Responds add c ret) := by
  constructor
  · rintro ⟨d, hrun, -⟩
    cases ret with
    | INTERNAL_ERROR | BAD_REQUEST | FORBIDDEN_REQUEST =>
      rw [processWriteWith, errorResponse_undefined] at hrun
      cases hrun
    | FILE_REQUEST =>
      rw [processWriteWith, fileResponse, addStatusLine_undefined] at hrun
      cases hrun
    | NO_REQUEST | GET_REQUEST | NO_RESOURCE | CLOSED_CONNECTION => cases hrun
  · rintro (rfl | ⟨rfl, hsize⟩) add ⟨d, hrun, -⟩
    · rw [noResource_fails] at hrun
      cases hrun
    · exact emptyFile_fails c add hsize d hrun

/-- A new connection that may not read the file it asked for. -/
theorem forbidden_gets_no_response :
    processWrite sampleConnection .FORBIDDEN_REQUEST = none ∧
      ¬ Responds addResponse sampleConnection .FORBIDDEN_REQUEST := by
  have hnone : processWrite sampleConnection .FORBIDDEN_REQUEST = none :=
    errorResponse_undefined sampleConnection 403 error403Title error403Form
  refine ⟨hnone, ?_⟩
  rintro ⟨d, hrun, -⟩
  cases hnone.symm.trans hrun

end Verdicts

end HttpConnection

end HttpWebserver
