import HttpWebserver.HttpConnection.DoRequest
import HttpWebserver.Lib.PartialRules

/-!
# HttpConnection — what the handlers depend on

Two connections are `Alike` when they agree in the members a request's handlers read before
they write them. The handlers, and with them the loop of `processRead`, then return the same
verdict on both and leave them alike.

* `url_` is not among the members: `parseRequestLine` assigns it before anything reads it. Once
  it has, the two connections agree in it too (`AlikeUrl`).
* `version_`, `host_`, `fileStat_` and the members of the response are not read before they are
  written either; `string_` is read only where `cgi_` is 1.
* A pointer is `Local` when it does not point into the output buffer, where the response of the
  request before has been.
-/

namespace HttpWebserver

def Ptr.Local (p : Ptr) : Prop := ∀ off, p ≠ .output off

namespace Ptr

theorem local_null : Ptr.null.Local := fun _ h => by cases h

theorem local_input (off : Nat) : (Ptr.input off).Local := fun _ h => by cases h

theorem Local.moveTo {p : Ptr} (hp : p.Local) (pos : Nat) : (p.moveTo pos).Local := by
  cases p with
  | null => exact local_null
  | input off => exact local_input pos
  | output off => exact absurd rfl (hp off)

theorem Local.add {p : Ptr} (hp : p.Local) (n : Nat) : (p.add n).Local := hp.moveTo _

theorem Local.of_from {p q : Ptr} (hp : p.Local) (h : p.From q) : q.Local := by
  rcases h with rfl | ⟨pos, rfl⟩
  · exact local_null
  · exact hp.moveTo pos

end Ptr

namespace HttpConnection

open CString MachineInt Storage PartialRules

structure Alike (c d : HttpConnection) : Prop where
  docRoot : c.docRoot = d.docRoot
  inputBuffer : c.inputBuffer = d.inputBuffer
  checkState : c.checkState = d.checkState
  method : c.method = d.method
  realFile : c.realFile = d.realFile
  fileAddress : c.fileAddress = d.fileAddress
  linger : c.linger = d.linger
  ContentLength : c.ContentLength = d.ContentLength
  cgi : c.cgi = d.cgi
  string : c.cgi = 1 → c.string = d.string ∧ c.string.Local

/-- Alike, with the url of the request line. -/
structure AlikeUrl (c d : HttpConnection) : Prop extends Alike c d where
  url : c.url = d.url
  inside : c.url.Local

/-! ## Strings behind a pointer

The handlers reach the storage through their pointers only. Where none of them points into the
input buffer, each of these functions reads and writes the same on both connections. -/

section Strings

variable {c d : HttpConnection} {p : Ptr}

theorem Alike.storage (h : Alike c d) (hp : p.Local) : c.storage p = d.storage p := by
  cases p with
  | null => rfl
  | input off => exact congrArg (fun b : Buffer => some b.buffer) h.inputBuffer
  | output off => exact absurd rfl (hp off)

theorem Alike.charAt (h : Alike c d) (hp : p.Local) (n : Nat) : c.charAt p n = d.charAt p n := by
  rw [HttpConnection.charAt, HttpConnection.charAt, h.storage hp]

theorem Alike.reading {α : Type} (h : Alike c d) (hp : p.Local)
    (f : List UInt8 → Nat → Option α) : c.reading p f = d.reading p f := by
  rw [HttpConnection.reading, HttpConnection.reading, h.storage hp]

theorem Alike.search (h : Alike c d) (hp : p.Local) (f : List UInt8 → Nat → Option (Option Nat)) :
    c.search p f = d.search p f := by
  rw [HttpConnection.search, HttpConnection.search, h.storage hp]

theorem Alike.skipBlanks (h : Alike c d) (hp : p.Local) : c.skipBlanks p = d.skipBlanks p := by
  rw [HttpConnection.skipBlanks, HttpConnection.skipBlanks, h.reading hp]

theorem Alike.deref (h : Alike c d) (hp : p.Local) : c.deref p = d.deref p := by
  cases p with
  | null => rfl
  | input off => exact congrArg (fun b : Buffer => cString b.buffer off) h.inputBuffer
  | output off => exact absurd rfl (hp off)

theorem AlikeUrl.setStorage (h : AlikeUrl c d) (p : Ptr) (mem : List UInt8) :
    AlikeUrl (c.setStorage p mem) (d.setStorage p mem) := by
  cases p with
  | null => exact h
  | input off =>
    exact { h with
      inputBuffer := congrArg (fun b : Buffer => { b with buffer := mem }) h.inputBuffer }
  | output off => exact { h with }

theorem AlikeUrl.writing (h : AlikeUrl c d) (hp : p.Local)
    (f : List UInt8 → Nat → Option (List UInt8)) :
    Option.Rel AlikeUrl (c.writing p f) (d.writing p f) := by
  rw [HttpConnection.writing, HttpConnection.writing, h.storage hp]
  refine rel_bind_same fun mem _ => rel_bind_same fun mem' _ => ?_
  exact rel_some (h.setStorage p mem')

theorem AlikeUrl.putNul (h : AlikeUrl c d) (hp : p.Local) (n : Nat) :
    Option.Rel AlikeUrl (c.putNul p n) (d.putNul p n) := by
  rw [HttpConnection.putNul, HttpConnection.putNul, h.storage hp]
  refine rel_bind_same fun mem _ => rel_bind_same fun mem' _ => ?_
  exact rel_some (h.setStorage p mem')

theorem AlikeUrl.setUrl (h : Alike c d) (hp : p.Local) :
    AlikeUrl { c with url := p } { d with url := p } :=
  { h with url := rfl, inside := hp }

end Strings

/-! ## The line handlers

One lemma for each function, along its text. They end with the same verdict, on connections that
are alike again. -/

/-- The same verdict, and connections that are alike. -/
def SameStep (r s : HttpConnection × HttpCode) : Prop := AlikeUrl r.1 s.1 ∧ r.2 = s.2

section Handlers

variable {c d : HttpConnection} {text : Ptr}

theorem stripScheme_alike (h : AlikeUrl c d) (scheme : List UInt8) :
    Option.Rel AlikeUrl (c.stripScheme scheme) (d.stripScheme scheme) := by
  unfold stripScheme
  rw [← h.url, h.reading h.inside]
  refine rel_bind_same fun starts _ => rel_ite Iff.rfl (fun _ => ?_) (fun _ => rel_some h)
  have hp := h.inside.add scheme.length
  rw [h.search hp]
  exact rel_bind_same fun url hurl =>
    rel_some (AlikeUrl.setUrl h.toAlike (hp.of_from (search_from hurl)))

theorem parseUrl_alike (h : AlikeUrl c d) :
    Option.Rel SameStep c.parseUrl d.parseUrl := by
  unfold parseUrl
  refine rel_bind (stripScheme_alike h _) fun c₁ d₁ h₁ => ?_
  refine rel_bind (stripScheme_alike h₁ _) fun c₂ d₂ h₂ => ?_
  rw [← h₂.url, h₂.charAt h₂.inside, h₂.reading h₂.inside]
  refine rel_ite Iff.rfl (fun _ => rel_some ⟨h₂, rfl⟩) fun _ => rel_bind_same fun first _ => ?_
  refine rel_ite Iff.rfl (fun _ => rel_some ⟨h₂, rfl⟩) fun _ => rel_bind_same fun len _ => ?_
  refine rel_bind (r := AlikeUrl) ?_ fun c₃ d₃ h₃ => ?_
  · exact rel_ite Iff.rfl (fun _ => h₂.writing h₂.inside _) fun _ => rel_some h₂
  · exact rel_some ⟨{ h₃ with checkState := rfl }, rfl⟩

theorem parseVersion_alike (h : AlikeUrl c d) :
    Option.Rel SameStep c.parseVersion d.parseVersion := by
  unfold parseVersion
  rw [← h.url, h.skipBlanks h.inside]
  refine rel_bind_same fun url hurl => ?_
  have h₁ := AlikeUrl.setUrl h.toAlike (h.inside.of_from (skipBlanks_from hurl))
  simp only
  rw [h₁.search h₁.inside]
  refine rel_bind_same fun version hversion => ?_
  have hlocal := h₁.inside.of_from (search_from hversion)
  have h₂ : AlikeUrl { c with url := url, version := version }
      { d with url := url, version := version } :=
    { h₁ with }
  refine rel_ite Iff.rfl (fun _ => rel_some ⟨h₂, rfl⟩) fun _ => ?_
  refine rel_bind (h₂.putNul hlocal 0) fun c₃ d₃ h₃ => ?_
  rw [h₃.skipBlanks (hlocal.add 1)]
  refine rel_bind_same fun version' hversion' => ?_
  have hlocal' := (hlocal.add 1).of_from (skipBlanks_from hversion')
  have h₄ : AlikeUrl { c₃ with version := version' } { d₃ with version := version' } := { h₃ with }
  rw [h₄.reading hlocal']
  exact rel_bind_same fun same _ =>
    rel_ite Iff.rfl (fun _ => parseUrl_alike h₄) fun _ => rel_some ⟨h₄, rfl⟩

theorem parseRequestLine_alike (h : Alike c d) (ht : text.Local) :
    Option.Rel SameStep (c.parseRequestLine text) (d.parseRequestLine text) := by
  unfold parseRequestLine
  rw [h.search ht]
  refine rel_bind_same fun url hurl => ?_
  have hlocal := ht.of_from (search_from hurl)
  have h₁ := AlikeUrl.setUrl h hlocal
  refine rel_ite Iff.rfl (fun _ => rel_some ⟨h₁, rfl⟩) fun _ => ?_
  refine rel_bind (h₁.putNul hlocal 0) fun c₂ d₂ h₂ => ?_
  have h₃ := AlikeUrl.setUrl h₂.toAlike (hlocal.add 1)
  simp only [parseMethod]
  rw [h₃.reading ht, h₃.reading ht]
  refine rel_bind_same fun method _ => ?_
  cases method with
  | none => exact rel_some ⟨h₃, rfl⟩
  | some method => exact parseVersion_alike { h₃ with method := rfl }

theorem parseHeaders_alike (h : AlikeUrl c d) (ht : text.Local) :
    Option.Rel SameStep (c.parseHeaders text) (d.parseHeaders text) := by
  unfold parseHeaders
  rw [h.charAt ht]
  simp only [h.reading ht]
  refine rel_bind_same fun first _ => rel_ite Iff.rfl (fun _ => ?_) fun _ => ?_
  · -- the empty line
    exact rel_ite (by rw [h.ContentLength]) (fun _ => rel_some ⟨{ h with checkState := rfl }, rfl⟩)
      fun _ => rel_some ⟨h, rfl⟩
  refine rel_bind_same fun connection _ => rel_ite Iff.rfl (fun _ => ?_) fun _ => ?_
  · rw [h.skipBlanks (ht.add 11)]
    refine rel_bind_same fun value hvalue => ?_
    rw [h.reading ((ht.add 11).of_from (skipBlanks_from hvalue))]
    exact rel_bind_same fun keep _ =>
      rel_ite Iff.rfl (fun _ => rel_some ⟨{ h with linger := rfl }, rfl⟩) fun _ => rel_some ⟨h, rfl⟩
  refine rel_bind_same fun length _ => rel_ite Iff.rfl (fun _ => ?_) fun _ => ?_
  · rw [h.skipBlanks (ht.add 15)]
    refine rel_bind_same fun value hvalue => ?_
    rw [h.reading ((ht.add 15).of_from (skipBlanks_from hvalue))]
    exact rel_bind_same fun n _ => rel_some ⟨{ h with ContentLength := rfl }, rfl⟩
  refine rel_bind_same fun host _ => rel_ite Iff.rfl (fun _ => ?_) fun _ => rel_some ⟨h, rfl⟩
  rw [h.skipBlanks (ht.add 5)]
  exact rel_bind_same fun value _ => rel_some ⟨{ h with }, rfl⟩

theorem parseContent_alike (h : AlikeUrl c d) (ht : text.Local) :
    Option.Rel SameStep (c.parseContent text) (d.parseContent text) := by
  unfold parseContent
  refine rel_ite (by rw [h.ContentLength, h.inputBuffer]) (fun _ => ?_) fun _ => rel_some ⟨h, rfl⟩
  rw [← h.ContentLength]
  refine rel_bind (h.putNul ht _) fun c₁ d₁ h₁ => ?_
  exact rel_some ⟨{ h₁ with string := fun _ => ⟨rfl, ht⟩ }, rfl⟩

end Handlers

/-! ## `doRequest`

The world is the same on both sides, so the cache, the users table and the answers of the system
are. -/

/-- The same world, verdict and connections that are alike. -/
def SameAnswer (r s : World × HttpConnection × HttpCode) : Prop :=
  r.1 = s.1 ∧ AlikeUrl r.2.1 s.2.1 ∧ r.2.2 = s.2.2

section Request

variable {c d : HttpConnection} {p : Ptr}

theorem copyUntil_alike (h : Alike c d) (hp : p.Local) (stop : UInt8) (room i : Nat) :
    c.copyUntil p stop room i = d.copyUntil p stop room i :=
  copyUntil_congr (h.charAt hp) stop room i

theorem decodeForm_alike (h : Alike c d) (hcgi : c.cgi = 1) : c.decodeForm = d.decodeForm := by
  obtain ⟨hstring, hlocal⟩ := h.string hcgi
  unfold decodeForm
  rw [← hstring]
  simp only [copyUntil_alike h hlocal]

theorem answerForm_alike (h : AlikeUrl c d) (hcgi : c.cgi = 1) (hp : p.Local) (site : Site)
    (w : World) :
    Option.Rel (fun r s => r.1 = s.1 ∧ AlikeUrl r.2 s.2) (answerForm site w c p)
      (answerForm site w d p) := by
  unfold answerForm
  rw [← h.url, decodeForm_alike h.toAlike hcgi, h.charAt hp]
  refine rel_bind_same fun ⟨name, password⟩ _ => rel_bind_same fun choice _ => ?_
  exact rel_bind (h.writing h.inside _) fun c₂ d₂ h₂ => rel_some ⟨rfl, h₂⟩

theorem doCgi_alike (h : AlikeUrl c d) (hcgi : c.cgi = 1) (hp : p.Local) (site : Site) (w : World) :
    Option.Rel (fun r s => r.1 = s.1 ∧ AlikeUrl r.2 s.2) (doCgi site w c p) (doCgi site w d p) := by
  unfold doCgi
  rw [show d.charAt d.url 1 = c.charAt c.url 1 from by rw [← h.url, h.charAt h.inside],
    show d.deref (d.url.add 2) = c.deref (c.url.add 2) from by
      rw [← h.url, h.deref (h.inside.add 2)]]
  refine rel_bind_same fun _ _ => rel_bind_same fun rest _ => ?_
  have h₁ : AlikeUrl { c with realFile := c.realFile ++ slash :: rest }
      { d with realFile := d.realFile ++ slash :: rest } :=
    { h with realFile := congrArg (· ++ slash :: rest) h.realFile }
  exact answerForm_alike h₁ hcgi hp site w

theorem page_alike (h : AlikeUrl c d) (choice : UInt8) : c.page choice = d.page choice := by
  unfold page
  rw [← h.url, h.deref h.inside]

theorem loadFile_alike (h : AlikeUrl c d) (site : Site) (w : World) :
    Option.Rel SameAnswer (loadFile site w c) (loadFile site w d) := by
  unfold loadFile
  rw [← h.realFile, ← h.fileAddress]
  refine rel_bind_same fun ⟨cache, found, fileAddress⟩ _ => ?_
  refine rel_ite Iff.rfl
    (fun _ => rel_some ⟨rfl, { h with realFile := rfl, fileAddress := rfl }, rfl⟩) fun _ => ?_
  refine rel_bind_same fun mapping _ => rel_bind_same fun content _ => ?_
  exact rel_bind_same fun cache' _ =>
    rel_some ⟨rfl, { h with realFile := rfl, fileAddress := rfl }, rfl⟩

theorem resolveFile_alike (h : AlikeUrl c d) (site : Site) (w : World) :
    Option.Rel SameAnswer (resolveFile site w c) (resolveFile site w d) := by
  unfold resolveFile
  rw [show site.stat d.realFile = site.stat c.realFile from by rw [h.realFile]]
  cases site.stat c.realFile with
  | none => exact rel_some ⟨rfl, h, rfl⟩
  | some st =>
    have h₁ : AlikeUrl { c with fileStat := st } { d with fileStat := st } := { h with }
    exact rel_ite Iff.rfl (fun _ => rel_some ⟨rfl, h₁, rfl⟩) fun _ =>
      rel_ite Iff.rfl (fun _ => rel_some ⟨rfl, h₁, rfl⟩) fun _ => loadFile_alike h₁ site w

theorem resolveUrl_alike (h : AlikeUrl c d) (site : Site) (w : World) :
    Option.Rel SameAnswer (resolveUrl site w c) (resolveUrl site w d) := by
  unfold resolveUrl
  rw [← h.url, h.search h.inside]
  refine rel_bind_same fun p hp => ?_
  have hlocal := h.inside.of_from (search_from hp)
  rw [h.charAt hlocal]
  refine rel_bind_same fun choice _ => ?_
  -- the form is read only where `cgi_` is 1, so where `string_` is the same
  refine rel_bind (r := fun r s => r.1 = s.1 ∧ AlikeUrl r.2 s.2) ?_ ?_
  · exact rel_ite (by rw [h.cgi]) (fun hcgi => doCgi_alike h hcgi.1 hlocal site w)
      fun _ => rel_some ⟨rfl, h⟩
  · rintro ⟨w₁, c₂⟩ ⟨w₂, d₂⟩ ⟨rfl, h₂⟩
    simp only at h₂ ⊢
    rw [h₂.charAt hlocal]
    refine rel_bind_same fun choice' _ => ?_
    rw [page_alike h₂]
    refine rel_bind_same fun file _ => ?_
    have h₃ : AlikeUrl { c₂ with realFile := c₂.realFile ++ file }
        { d₂ with realFile := d₂.realFile ++ file } :=
      { h₂ with realFile := congrArg (· ++ file) h₂.realFile }
    exact resolveFile_alike h₃ site w₁

theorem doRequest_alike (h : AlikeUrl c d) (site : Site) (w : World) :
    Option.Rel SameAnswer (doRequest site w c) (doRequest site w d) := by
  have h₁ : AlikeUrl { c with realFile := c.realFile ++ c.docRoot }
      { d with realFile := d.realFile ++ d.docRoot } :=
    { h with realFile := congrArg₂ (· ++ ·) h.realFile h.docRoot }
  exact resolveUrl_alike h₁ site w

end Request

/-! ## The loop

Before the request line is parsed `url_` may be different on the two connections. No handler reads
it until then, and `parseRequestLine` assigns it first. -/

/-- Alike, and with the same url once the request line has been parsed. -/
def Matched (c d : HttpConnection) : Prop :=
  Alike c d ∧ (c.checkState ≠ .CHECK_STATE_REQUESTLINE → c.url = d.url ∧ c.url.Local)

theorem AlikeUrl.matched {c d : HttpConnection} (h : AlikeUrl c d) : Matched c d :=
  ⟨h.toAlike, fun _ => ⟨h.url, h.inside⟩⟩

/-- Two rounds that end alike. -/
inductive SameRound : Round World → Round World → Prop where
  | again {c d : HttpConnection} (lineStatus : LineStatus) (h : AlikeUrl c d) :
    SameRound (.again c lineStatus) (.again d lineStatus)
  | stop {c d : HttpConnection} (w : World) (ret : HttpCode) (h : AlikeUrl c d) :
    SameRound (.stop w c ret) (.stop w d ret)

/-- Two runs of the loop that end alike; while the request line is awaited there is no url. -/
inductive SameOutcome : ReadOutcome World → ReadOutcome World → Prop where
  | returned {c d : HttpConnection} (w : World) (ret : HttpCode) (h : Alike c d)
    (hurl : ¬ (ret = .NO_REQUEST ∧ c.checkState = .CHECK_STATE_REQUESTLINE) →
      c.url = d.url ∧ c.url.Local) :
    SameOutcome (.returned w c ret) (.returned w d ret)
  | undefined : SameOutcome .undefined .undefined
  | outOfFuel : SameOutcome .outOfFuel .outOfFuel

section Loop

variable {c d : HttpConnection} {text : Ptr}

theorem answer_alike (h : AlikeUrl c d) (site : Site) (w : World) :
    Option.Rel SameRound
      ((doRequest site w c).bind fun r => some (.stop r.1 r.2.1 r.2.2))
      ((doRequest site w d).bind fun r => some (.stop r.1 r.2.1 r.2.2)) := by
  refine rel_bind (doRequest_alike h site w) ?_
  rintro ⟨w₁, c₁, ret⟩ ⟨w₂, d₁, ret'⟩ ⟨rfl, h₁, rfl⟩
  exact rel_some (.stop w₁ ret h₁)

theorem dispatch_alike (h : Matched c d) (ht : text.Local) (site : Site) (w : World) :
    Option.Rel SameRound (dispatch (handlers site) w c text)
      (dispatch (handlers site) w d text) := by
  unfold dispatch
  rw [← h.1.checkState]
  cases hstate : c.checkState with
  | CHECK_STATE_REQUESTLINE =>
    refine rel_bind (parseRequestLine_alike h.1 ht) ?_
    rintro ⟨c₁, ret⟩ ⟨d₁, ret'⟩ ⟨h₁, rfl⟩
    exact rel_ite Iff.rfl (fun _ => rel_some (.stop w _ h₁)) fun _ => rel_some (.again _ h₁)
  | CHECK_STATE_HEADER =>
    obtain ⟨hurl, hinside⟩ := h.2 (by rw [hstate]; decide)
    refine rel_bind (parseHeaders_alike { h.1 with url := hurl, inside := hinside } ht) ?_
    rintro ⟨c₁, ret⟩ ⟨d₁, ret'⟩ ⟨h₁, rfl⟩
    refine rel_ite Iff.rfl (fun _ => rel_some (.stop w _ h₁)) fun _ => ?_
    exact rel_ite Iff.rfl (fun _ => answer_alike h₁ site w) fun _ => rel_some (.again _ h₁)
  | CHECK_STATE_CONTENT =>
    obtain ⟨hurl, hinside⟩ := h.2 (by rw [hstate]; decide)
    refine rel_bind (parseContent_alike { h.1 with url := hurl, inside := hinside } ht) ?_
    rintro ⟨c₁, ret⟩ ⟨d₁, ret'⟩ ⟨h₁, rfl⟩
    exact rel_ite Iff.rfl (fun _ => answer_alike h₁ site w) fun _ => rel_some (.again _ h₁)

theorem nextLine_alike (h : Matched c d) (lineStatus : LineStatus) :
    Option.Rel (fun r s => Matched r.1 s.1 ∧ r.2 = s.2) (c.nextLine lineStatus)
      (d.nextLine lineStatus) := by
  unfold nextLine
  refine rel_ite (by rw [h.1.checkState]) (fun _ => rel_some ⟨h, rfl⟩) fun _ => ?_
  unfold parseLine
  rw [← h.1.inputBuffer]
  cases scanLine c.inputBuffer with
  | none => exact .none
  | some r => exact rel_some ⟨⟨{ h.1 with inputBuffer := rfl }, h.2⟩, rfl⟩

/-- The loop, from connections that are alike. -/
theorem processReadLoop_alike (h : Matched c d) (site : Site) (fuel : Nat) (w : World)
    (lineStatus : LineStatus) (calls calls' : List Call) :
    Option.Rel (fun r s => SameOutcome r.1 s.1)
      (processReadLoop lineStart (handlers site) fuel w c lineStatus calls)
      (processReadLoop lineStart (handlers site) fuel w d lineStatus calls') := by
  -- induction on the rounds; what they leave is alike again, with the same url
  induction fuel generalizing w c d lineStatus calls calls' with
  | zero => exact rel_some .outOfFuel
  | succ fuel ih =>
    unfold processReadLoop
    refine rel_bind (nextLine_alike h lineStatus) ?_
    rintro ⟨c₁, status⟩ ⟨d₁, status'⟩ ⟨h₁, rfl⟩
    refine rel_ite Iff.rfl (fun _ => rel_some (.returned w _ h₁.1 fun hurl => ?_)) fun _ => ?_
    · exact h₁.2 fun hstate => hurl ⟨rfl, hstate⟩
    -- the line starts in the input buffer, which both have
    have htext : d.lineStart = c.lineStart := by rw [lineStart, lineStart, h.1.inputBuffer]
    have h₂ : Matched { c₁ with startLine := .output c₁.outputBuffer.peek }
        { d₁ with startLine := .output d₁.outputBuffer.peek } := ⟨{ h₁.1 with }, h₁.2⟩
    have hround := dispatch_alike h₂ (Ptr.local_input c.inputBuffer.peek) site w
    simp only [htext]
    rw [show c.lineStart = .input c.inputBuffer.peek from rfl]
    revert hround
    generalize dispatch (handlers site) w { c₁ with startLine := .output c₁.outputBuffer.peek }
      (.input c.inputBuffer.peek) = x
    generalize dispatch (handlers site) w { d₁ with startLine := .output d₁.outputBuffer.peek }
      (.input c.inputBuffer.peek) = y
    intro hround
    cases hround with
    | none => exact rel_some .undefined
    | some hround =>
      cases hround with
      | again lineStatus h₃ => exact ih h₃.matched w lineStatus _ _
      | stop w ret h₃ => exact rel_some (.returned w ret h₃.toAlike fun _ => ⟨h₃.url, h₃.inside⟩)

end Loop

end HttpConnection

end HttpWebserver
