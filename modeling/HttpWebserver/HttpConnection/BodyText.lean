import HttpWebserver.HttpConnection.BodyDelivery
import HttpWebserver.HttpConnection.MalformedLine
import HttpWebserver.HttpConnection.Pipelining

/-!
# HttpConnection — the text of a body

`parseContent` looks at a body that is in the input buffer, and at the `text` it is called with.

* `Extracts`: the verdict says whether the body is complete, `string_` is the body, and the NUL
  behind it stands in the input buffer, on none of the bytes that follow the body there.
* `processRead_texts`: `processRead` passes no text that is in the input buffer.
* **`body_extracted_iff`** — for such a text `Extracts` holds exactly when the body is not
  complete.
* `body_extracted_in_front_iff` is about the text that begins where the body does: the NUL has no
  place of its own behind it, unless nothing follows the body and the storage goes on.

`ContentLength_` is converted to an unsigned type for the comparison, where a negative value
comes out larger than any buffer (`complete_iff`).
-/

namespace HttpWebserver.HttpConnection

open Buffer CString MachineInt PartialRules Storage

/-- A connection that is at a body, with any value of the `long` `ContentLength_`. -/
structure AtBody (c : HttpConnection) : Prop where
  wellFormed : c.inputBuffer.WellFormed
  size : c.inputBuffer.buffer.length < 2 ^ 63
  state : c.checkState = .CHECK_STATE_CONTENT
  negative : -2 ^ 63 ≤ c.ContentLength
  positive : c.ContentLength < 2 ^ 63

/-- All bytes of the body are in the input buffer. -/
def BodyComplete (c : HttpConnection) : Prop :=
  0 ≤ c.ContentLength ∧ c.ContentLength ≤ c.inputBuffer.readable.length

instance (c : HttpConnection) : Decidable c.BodyComplete := by
  unfold BodyComplete
  infer_instance

def body (c : HttpConnection) : List UInt8 := c.inputBuffer.readable.take c.ContentLength.toNat

/-- What `parseContent` shall do with its text. -/
structure Extracts (c : HttpConnection) (text : Ptr) : Prop where
  verdict : ∃ d ret, c.parseContent text = some (d, ret) ∧
    (ret = .GET_REQUEST ↔ c.BodyComplete)
  string : ∀ d, c.parseContent text = some (d, .GET_REQUEST) → 0 ∉ c.body →
    d.deref d.string = some c.body
  /-- The position of the NUL is one of the input buffer, and none between the end of the body
  and the end of what is readable. -/
  terminator : ∀ d, c.parseContent text = some (d, .GET_REQUEST) →
    ∃ off, d.string = .input off ∧
      off + c.ContentLength.toNat < c.inputBuffer.buffer.length ∧
      ¬ (c.inputBuffer.peek + c.ContentLength.toNat ≤ off + c.ContentLength.toNat ∧
        off + c.ContentLength.toNat < c.inputBuffer.beginWrite)

/-! ## The two branches

The verdict depends on the count of readable bytes alone, and `string_` on the text alone. -/

section Branches

variable {c : HttpConnection} {text : Ptr}

theorem AtBody.complete_iff (h : AtBody c) :
    toSizeT c.ContentLength ≤ c.inputBuffer.readableBytes ↔ c.BodyComplete := by
  have hwf := h.wellFormed
  have hinside := hwf.inside
  have hsize := h.size
  have hneg := h.negative
  have hpos := h.positive
  have hlen := hwf.readable_length
  have hread := hwf.readableBytes_eq
  unfold BodyComplete
  rcases Int.lt_or_le c.ContentLength 0 with hlt | hge
  · have hlarge := toSizeT_of_neg (by omega) hlt
    omega
  · have hsame := toSizeT_of_nonneg hge (by omega)
    omega

theorem parseContent_incomplete (h : AtBody c) (hless : ¬ c.BodyComplete) :
    c.parseContent text = some (c, .NO_REQUEST) :=
  if_neg fun hle => hless (h.complete_iff.mp hle)

theorem parseContent_complete (h : AtBody c) (hall : c.BodyComplete) :
    c.parseContent text = (c.putNul text c.ContentLength.toNat).bind fun d =>
      some ({ d with string := text }, .GET_REQUEST) :=
  if_pos (h.complete_iff.mpr hall)

/-- A body that is not complete is waited for. -/
theorem extracts_incomplete (h : AtBody c) (hless : ¬ c.BodyComplete) : Extracts c text := by
  have hwait : c.parseContent text = some (c, .NO_REQUEST) := parseContent_incomplete h hless
  constructor
  · exact ⟨c, .NO_REQUEST, hwait, nofun, fun hall => absurd hall hless⟩
  · intro d hd
    cases hwait.symm.trans hd
  · intro d hd
    cases hwait.symm.trans hd

/-- The verdict on a complete body. -/
theorem Extracts.accepted (h : Extracts c text) (hall : c.BodyComplete) :
    ∃ d, c.parseContent text = some (d, .GET_REQUEST) := by
  obtain ⟨d, ret, hrun, hret⟩ := h.verdict
  rw [hret.mpr hall] at hrun
  exact ⟨d, hrun⟩

/-- `string_` is the text. -/
theorem parseContent_string {d : HttpConnection}
    (hrun : c.parseContent text = some (d, .GET_REQUEST)) : d.string = text := by
  rcases parseContent_spec c text _ hrun with hwait | ⟨mem, hd⟩
  · cases hwait
  · cases hd
    rfl

end Branches

/-! ## The texts `processRead` passes

`getLine()` returns `startLine_`: a null pointer behind `init()`, and a pointer into the output
buffer from the first round on. No handler ever gets a text in the input buffer. -/

section Texts

variable {site : Site} {c d : HttpConnection}

theorem nextLine_outside {status : LineStatus} (hc : c.Outside) :
    Ensures (fun r => r.1.Outside) (c.nextLine status) := by
  unfold nextLine parseLine
  refine ensures_ite (fun _ => ensures_some hc) fun _ r hr => ?_
  obtain ⟨⟨b, status'⟩, -, rfl⟩ := Option.map_eq_some_iff.mp hr
  exact ⟨hc.startLine, hc.url⟩

theorem processReadLoop_texts {fuel : Nat} (w : World) {status : LineStatus} {calls : List Call}
    (hc : c.Outside) (hcalls : ∀ call ∈ calls, call.text.Outside) :
    Ensures (fun r => ∀ call ∈ r.2, call.text.Outside)
      (processReadLoop getLine (handlers site) fuel w c status calls) := by
  -- induction on the rounds: outside the input buffer is where `startLine_` points in each of them
  induction fuel generalizing c status calls with
  | zero => exact ensures_some hcalls
  | succ fuel ih =>
    unfold processReadLoop
    refine ensures_bind (nextLine_outside hc) ?_
    rintro ⟨d, status'⟩ hd
    refine ensures_ite (fun _ => ensures_some hcalls) fun _ => ?_
    have hround := dispatch_beside site w
      (c := { d with startLine := .output d.outputBuffer.peek })
      ⟨Ptr.outside_output _, hd.url⟩ (show c.getLine.Outside from hc.startLine)
    have hcalls' : ∀ call ∈ calls ++ [(⟨d.checkState, c.getLine,
        deref { d with startLine := .output d.outputBuffer.peek } c.getLine⟩ : Call)],
        call.text.Outside := by
      intro call hmem
      rcases List.mem_append.mp hmem with hmem | hmem
      · exact hcalls call hmem
      · rw [List.mem_singleton.mp hmem]
        exact hc.startLine
    dsimp only
    revert hround
    generalize dispatch (handlers site) w
      { d with startLine := .output d.outputBuffer.peek } c.getLine = round
    intro hround
    cases round with
    | none => exact ensures_some hcalls'
    | some round =>
      have hbeside := hround round rfl
      cases round with
      | stop w' e ret => exact ensures_some hcalls'
      | again e status'' => exact ih (hbeside.1.outside (Ptr.outside_output _)) hcalls'

/-- On a connection that `init()` has set up, or that an earlier call has left, no handler is
called with a text in the input buffer. -/
theorem processRead_texts (w : World) (hc : c.Outside) :
    Ensures (fun r => ∀ call ∈ r.2, call.text.Outside) (processRead (handlers site) w c) :=
  processReadLoop_texts w hc nofun

end Texts

/-! ## The text of the connection -/

section Extracted

variable {c : HttpConnection} {text : Ptr}

/-- **When a body is extracted.** For every content of the input buffer and every value of
`ContentLength_`, with any text that `processRead` passes to `parseContent`: the verdict, the
string and its NUL are right if and only if the body is not complete. A complete body is never
what `string_` points at. -/
theorem body_extracted_iff (h : AtBody c) (htext : text.Outside) :
    Extracts c text ↔ ¬ c.BodyComplete := by
  constructor
  · intro hx hall
    obtain ⟨d, hrun⟩ := hx.accepted hall
    obtain ⟨off, hoff, -⟩ := hx.terminator d hrun
    rw [parseContent_string hrun] at hoff
    exact htext off hoff
  · exact extracts_incomplete h

/-- The connection with the NUL behind all that is readable. -/
def terminated (c : HttpConnection) : HttpConnection :=
  { c with
    inputBuffer := c.inputBuffer.store c.inputBuffer.beginWrite [0]
    string := .input c.inputBuffer.peek }

/-- A body with nothing behind it, in a storage that goes on. -/
theorem parseContent_terminated (h : AtBody c) (hall : c.BodyComplete)
    (hend : c.ContentLength = c.inputBuffer.readable.length)
    (hroom : c.inputBuffer.writerIndex < c.inputBuffer.buffer.length) :
    c.parseContent (.input c.inputBuffer.peek) = some (c.terminated, .GET_REQUEST) := by
  have hord := h.wellFormed.order
  have hlen := h.wellFormed.readable_length_eq
  have hpos : c.inputBuffer.peek + c.ContentLength.toNat = c.inputBuffer.beginWrite := by
    rw [hend, Int.toNat_natCast, hlen]
    exact Nat.add_sub_cancel' hord
  have hfit : c.inputBuffer.beginWrite + [(0 : UInt8)].length ≤ c.inputBuffer.buffer.length := hroom
  rw [parseContent_complete h hall, putNul, storage, Option.bind_eq_bind, Option.bind_some,
    Ptr.off, hpos, writeAt_eq_some hfit]
  rfl

theorem deref_terminated (h : AtBody c)
    (hroom : c.inputBuffer.writerIndex < c.inputBuffer.buffer.length)
    (hzero : 0 ∉ c.inputBuffer.readable) :
    c.terminated.deref c.terminated.string = some c.inputBuffer.readable := by
  have hord := h.wellFormed.order
  have hfit : c.inputBuffer.writerIndex + [(0 : UInt8)].length ≤ c.inputBuffer.buffer.length :=
    hroom
  show cString (overwrite c.inputBuffer.buffer c.inputBuffer.writerIndex [0])
    c.inputBuffer.readerIndex = some c.inputBuffer.readable
  refine cString_eq_some_iff.mpr ⟨hzero, c.inputBuffer.buffer.drop
    (c.inputBuffer.writerIndex + [(0 : UInt8)].length), ?_⟩
  rw [← slice_append_drop _ (Nat.le_trans hord (Nat.le_add_right _ _)),
    slice_overwrite_extend hord hfit, drop_overwrite hfit (Nat.le_refl _), List.append_assoc]
  rfl

/-- **A body of which the text is the beginning.** `Extracts` holds if and only if the body is
not complete, or nothing follows it and the storage of the buffer does not end with it. -/
theorem body_extracted_in_front_iff (h : AtBody c) :
    Extracts c (.input c.inputBuffer.peek) ↔
      (c.BodyComplete → c.ContentLength = c.inputBuffer.readable.length ∧
        c.inputBuffer.writerIndex < c.inputBuffer.buffer.length) := by
  have hord := h.wellFormed.order
  have hlen := h.wellFormed.readable_length_eq
  constructor
  · intro hx hall
    obtain ⟨d, hrun⟩ := hx.accepted hall
    obtain ⟨off, hoff, hinside, hfree⟩ := hx.terminator d hrun
    cases (parseContent_string hrun).symm.trans hoff
    obtain ⟨hnonneg, hle⟩ := hall
    unfold beginWrite peek at *
    -- the NUL is not on a byte behind the body, so there is none
    omega
  · intro hbehind
    by_cases hall : c.BodyComplete
    · obtain ⟨hend, hroom⟩ := hbehind hall
      have hrun := parseContent_terminated h hall hend hroom
      have hbody : c.body = c.inputBuffer.readable := by
        rw [body, hend, Int.toNat_natCast, List.take_length]
      constructor
      · exact ⟨_, _, hrun, fun _ => hall, fun _ => rfl⟩
      · intro d hd hzero
        cases hrun.symm.trans hd
        rw [hbody] at hzero ⊢
        exact deref_terminated h hroom hzero
      · intro d hd
        cases hrun.symm.trans hd
        refine ⟨c.inputBuffer.peek, rfl, ?_, ?_⟩
        · unfold peek
          omega
        · unfold beginWrite peek
          omega
    · exact extracts_incomplete h hall

end Extracted

/-! ## A body of five bytes -/

/-- A connection that waits for a body of five bytes, of which a text has arrived. -/
def receivedPart (text : String) : HttpConnection :=
  { holding text with
    checkState := .CHECK_STATE_CONTENT
    ContentLength := 5
    outputBuffer := Buffer.new writeBufferSize
    startLine := .output kCheapPrepend }

theorem receivedPart_atBody (text : String) (hlen : (ascii text).length < 2 ^ 62) :
    AtBody (receivedPart text) := by
  have hsize : (receivedPart text).inputBuffer.buffer.length
      = kCheapPrepend + (ascii text).length := by
    show (List.replicate kCheapPrepend 0 ++ ascii text).length = _
    rw [List.length_append, List.length_replicate]
  refine ⟨⟨Nat.le_refl _, Nat.le_add_right _ _, Nat.le_of_eq hsize.symm⟩, ?_, rfl, ?_, ?_⟩
  · rw [hsize, kCheapPrepend]
    omega
  · show (-2 ^ 63 : Int) ≤ 5
    decide
  · show (5 : Int) < 2 ^ 63
    decide

theorem body_extracted_iff_waiting : Extracts (receivedPart "user") (.output kCheapPrepend) :=
  (body_extracted_iff (receivedPart_atBody "user" (by decide +kernel))
    (Ptr.outside_output _)).mpr (by decide +kernel)

/-- A complete body: the verdict is right, and `string_` is what the output buffer holds. -/
theorem body_not_extracted : (receivedPart "user=").BodyComplete ∧
    ¬ Extracts (receivedPart "user=") (receivedPart "user=").getLine := by
  have hall : (receivedPart "user=").BodyComplete := by decide +kernel
  refine ⟨hall, fun hx => ?_⟩
  obtain ⟨d, hrun⟩ := hx.accepted hall
  obtain ⟨off, hoff, -⟩ := hx.terminator d hrun
  rw [parseContent_string hrun] at hoff
  cases hoff

end HttpWebserver.HttpConnection
