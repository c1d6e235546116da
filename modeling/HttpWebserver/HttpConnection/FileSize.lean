import HttpWebserver.HttpConnection.Response

/-!
# HttpConnection — the size of a file response

`st_size` is a 64-bit value. `processWrite` passes it to `addHeaders(int)`, adds it to the length of
the header in `bytesToSend_`, an `int`, and `write` counts in that and in `bytesHaveSend_`.

* `AsksLength`: the number that `addContentLength` is given, read off the calls of the appender;
* `sizes_iff`: the number and the count are right exactly where header and file fit an `int`;
* `CountFits`: the condition on a count that `writev` returns;
* **`response_sizes_iff`** — in which runs the two counters stay an account of the response.
-/

namespace HttpWebserver.HttpConnection

open Machine MachineInt CString

/-- The two appenders differ, if at all, on a `Content-Length` other than `n`. -/
def AgreeAt (n : Int) (add add' : Appender) : Prop :=
  ∀ b format args, (format = ascii "Content-Length:%d\r\n" → args = [.int n]) →
    add b format args = add' b format args

/-- For a file, `processWrite` gives `addContentLength` the number `n` and no other: appenders that
differ on other numbers only make the same response. -/
def AsksLength (c : HttpConnection) (n : Int) : Prop :=
  ∀ add add', AgreeAt n add add' →
    processWriteWith add c .FILE_REQUEST = processWriteWith add' c .FILE_REQUEST

section Sizes

variable {add add' : Appender} {c d : HttpConnection} {n : Int}

theorem addFormat_congr {format : List UInt8} {args : List Arg}
    (h : add c.outputBuffer format args = add' c.outputBuffer format args) :
    addFormat add c format args = addFormat add' c format args := by
  rw [addFormat, addFormat, h]

theorem addHeaders_congr (h : AgreeAt n add add') (c : HttpConnection) :
    addHeaders add c n = addHeaders add' c n := by
  have hlength : ∀ c, addContentLength add c n = addContentLength add' c n :=
    fun c => addFormat_congr (h _ _ _ fun _ => rfl)
  have hlinger : ∀ c, addLinger add c = addLinger add' c :=
    fun c => addFormat_congr (h _ _ _ fun hformat => absurd hformat (by decide))
  have hblank : ∀ c, addBlankLine add c = addBlankLine add' c :=
    fun c => addFormat_congr (h _ _ _ fun hformat => absurd hformat (by decide))
  simp only [addHeaders, hlength, hlinger, hblank]

/-- An appended text changes the buffer alone. -/
theorem addFormat_frame {format : List UInt8} {args : List Arg} {ok : Bool}
    (h : addFormat add c format args = some (d, ok)) :
    d.fileStat = c.fileStat ∧ d.bytesHaveSend = c.bytesHaveSend := by
  obtain ⟨⟨b, ok'⟩, -, hd⟩ := Option.bind_eq_some_iff.mp h
  cases hd
  exact ⟨rfl, rfl⟩

theorem addHeaders_frame {ok : Bool} (h : addHeaders add c n = some (d, ok)) :
    d.fileStat = c.fileStat ∧ d.bytesHaveSend = c.bytesHaveSend := by
  obtain ⟨⟨c₁, ok₁⟩, hlength, h⟩ := Option.bind_eq_some_iff.mp h
  have h₁ := addFormat_frame hlength
  dsimp only at h
  split at h
  · cases h
    exact h₁
  obtain ⟨⟨c₂, ok₂⟩, hlinger, h⟩ := Option.bind_eq_some_iff.mp h
  have h₂ := addFormat_frame hlinger
  dsimp only at h
  split at h
  · cases h
    exact ⟨h₂.1.trans h₁.1, h₂.2.trans h₁.2⟩
  · have h₃ := addFormat_frame h
    exact ⟨h₃.1.trans (h₂.1.trans h₁.1), h₃.2.trans (h₂.2.trans h₁.2)⟩

/-- The response for a file that is not empty, whatever is done with the texts. -/
theorem fileResponse_eq (hsize : c.fileStat.st_size ≠ 0) :
    processWriteWith add c .FILE_REQUEST =
      (addStatusLine add c 200 ok200Title).bind fun r =>
        (addHeaders add r.1 (toInt32 c.fileStat.st_size)).bind fun r =>
          some (r.1.queueFile, true) := by
  rw [processWriteWith, fileResponse, Option.bind_eq_bind]
  refine Option.bind_congr fun r hr => ?_
  have hstat : r.1.fileStat = c.fileStat := (addFormat_frame hr).1
  dsimp only
  rw [hstat, if_pos hsize]

theorem asksLength_iff (hsize : c.fileStat.st_size ≠ 0) :
    c.AsksLength n ↔ n = toInt32 c.fileStat.st_size := by
  constructor
  · intro h
    by_contra hne
    -- two appenders that take everything, but one of them no other number than `n`
    let accept : Appender := fun b _ _ => some (b, true)
    let refuse : Appender := fun b format args =>
      if format = ascii "Content-Length:%d\r\n" → args = [.int n] then some (b, true) else none
    have hagree : AgreeAt n accept refuse := fun b format args hargs => (if_pos hargs).symm
    have hrun := h accept refuse hagree
    have hstatus : addStatusLine refuse c 200 ok200Title = some (c, true) := by
      have haccept : addStatusLine refuse c 200 ok200Title =
          addStatusLine accept c 200 ok200Title :=
        addFormat_congr (hagree _ _ _ fun hformat => absurd hformat (by decide)).symm
      rw [haccept]
      rfl
    have hlength : addHeaders refuse c (toInt32 c.fileStat.st_size) = none := by
      have hrefuse : refuse c.outputBuffer (ascii "Content-Length:%d\r\n")
          [.int (toInt32 c.fileStat.st_size)] = none := by
        refine if_neg fun hargs => hne ?_
        cases hargs rfl
        rfl
      rw [addHeaders, addContentLength, addFormat, hrefuse]
      rfl
    rw [fileResponse_eq hsize, fileResponse_eq hsize, hstatus, Option.bind_some, hlength] at hrun
    cases hrun
  · rintro rfl add add' hagree
    have hstatus : addStatusLine add c 200 ok200Title = addStatusLine add' c 200 ok200Title :=
      addFormat_congr (hagree _ _ _ fun hformat => absurd hformat (by decide))
    simp only [fileResponse_eq hsize, hstatus, addHeaders_congr hagree]

/-- The connection that `processWrite` leaves for a file that is not empty. -/
theorem fileResponse_queued (hsize : c.fileStat.st_size ≠ 0)
    (hrun : processWriteWith add c .FILE_REQUEST = some (d, true)) :
    d.bytesToSend = toInt32 (d.outputBuffer.readableBytes + c.fileStat.st_size) ∧
      d.bytesHaveSend = c.bytesHaveSend := by
  rw [fileResponse_eq hsize] at hrun
  obtain ⟨⟨c₁, ok₁⟩, hstatus, hrun⟩ := Option.bind_eq_some_iff.mp hrun
  obtain ⟨⟨c₂, ok₂⟩, hheaders, hd⟩ := Option.bind_eq_some_iff.mp hrun
  cases hd
  obtain ⟨hstat₁, hsent₁⟩ := addFormat_frame hstatus
  obtain ⟨hstat₂, hsent₂⟩ := addHeaders_frame hheaders
  refine ⟨?_, hsent₂.trans hsent₁⟩
  rw [← hstat₁, ← hstat₂]
  rfl

/-- The number that is announced and the count of bytes to send are those of the response. -/
theorem sizes_iff (hpos : 0 < c.fileStat.st_size)
    (hrun : processWriteWith add c .FILE_REQUEST = some (d, true)) :
    (c.AsksLength c.fileStat.st_size ∧
        d.bytesToSend = d.outputBuffer.readableBytes + c.fileStat.st_size) ↔
      d.outputBuffer.readableBytes + c.fileStat.st_size < 2 ^ 31 := by
  have hsize : c.fileStat.st_size ≠ 0 := by omega
  rw [asksLength_iff hsize, (fileResponse_queued hsize hrun).1]
  constructor
  · rintro ⟨-, hcount⟩
    by_contra hge
    have hless := toInt32_lt_of_ge (not_lt.mp hge)
    omega
  · intro hfits
    exact ⟨(toInt32_of_range (by omega) (by omega)).symm, toInt32_of_range (by omega) hfits⟩

end Sizes

/-! ## The counters of `write`

`bytesToSend_` and `bytesHaveSend_` are `int`s. As long as the length of the response fits, they
count what is left and what was sent. -/

/-- `write`, up to the state in which the response is complete. -/
def sendStep (s : Sending) (l : WriteLabel) : Option Sending :=
  if s.phase = .complete then none else writeStep s l

/-- Both counters are lengths, and together they are `total`. -/
structure Accounts (total : Int) (s : Sending) : Prop where
  left : 0 ≤ s.conn.bytesToSend
  sent : 0 ≤ s.conn.bytesHaveSend
  total : s.conn.bytesToSend + s.conn.bytesHaveSend = total

/-- A count of `writev` is, as an `int`, no more than what is left, and `bytesHaveSend_` can
take it. -/
def CountFits (s : Sending) : WriteLabel → Prop
  | .writev (.accept n) => 0 ≤ toInt32 n →
      toInt32 n ≤ s.conn.bytesToSend ∧ s.conn.bytesHaveSend + toInt32 n < 2 ^ 31
  | _ => True

section Counters

variable {total : Int} {s t : Sending} {l : WriteLabel}

/-- The counters after a `writev` that took bytes. -/
theorem writeRound_counts {c c' : HttpConnection} {n : Nat} {phase : WritePhase}
    (h : c.writeRound (.accept n) = some (c', phase)) :
    (toInt32 n < 0 ∧ phase = .idle ∧ c'.bytesToSend = c.bytesToSend ∧
        c'.bytesHaveSend = c.bytesHaveSend) ∨
      (0 ≤ toInt32 n ∧ phase = (if c'.bytesToSend ≤ 0 then .complete else .looping) ∧
        c'.bytesToSend = toInt32 (c.bytesToSend - toInt32 n) ∧
        c'.bytesHaveSend = toInt32 (c.bytesHaveSend + toInt32 n)) := by
  rw [writeRound, Buffer.writeFd] at h
  generalize toInt32 n = k at h ⊢
  rw [writeFdCount_count, writeCount] at h
  split at h
  · next hneg =>
    rw [if_neg (by simp)] at h
    obtain ⟨c₁, hunmap, hc⟩ := Option.map_eq_some_iff.mp h
    cases unmap_eq_some hunmap
    cases hc
    exact .inl ⟨hneg, rfl, rfl, rfl⟩
  · next hnonneg =>
    cases h
    exact .inr ⟨not_lt.mp hnonneg, rfl, rfl, rfl⟩

/-- The account of a response, and the room in the counter of what is left: something is left
until the response is complete. -/
structure Counting (total : Int) (s : Sending) : Prop where
  accounts : Accounts total s
  fits : s.conn.bytesToSend < 2 ^ 31
  pending : s.phase ≠ .complete → 0 < s.conn.bytesToSend

/-- Where the counters stay and the response was not complete, the account does. -/
theorem Counting.same {c : HttpConnection} (hs : Counting total s) (hphase : s.phase ≠ .complete)
    (hl : c.bytesToSend = s.conn.bytesToSend) (hh : c.bytesHaveSend = s.conn.bytesHaveSend)
    (phase : WritePhase) (accepted : List UInt8) :
    Counting total { conn := c, phase := phase, accepted := accepted } := by
  obtain ⟨⟨hleft, hsent, htotal⟩, hfits, hpending⟩ := hs
  rw [← hl] at hleft htotal hfits hpending
  rw [← hh] at hsent htotal
  exact ⟨⟨hleft, hsent, htotal⟩, hfits, fun _ => hpending hphase⟩

/-- **What one `writev` does to the counters.** -/
theorem counting_accept {n : Nat} {bytes : List UInt8} {c : HttpConnection} {phase : WritePhase}
    (hs : Counting total s) (hphase : s.phase ≠ .complete)
    (hround : s.conn.writeRound (.accept n) = some (c, phase)) :
    (CountFits s (.writev (.accept n)) →
        Counting total { conn := c, phase := phase, accepted := bytes }) ∧
      (¬ CountFits s (.writev (.accept n)) →
        ¬ Accounts total { conn := c, phase := phase, accepted := bytes }) := by
  rw [CountFits]
  rcases writeRound_counts hround with ⟨hneg, rfl, hl, hh⟩ | ⟨hnonneg, rfl, hl, hh⟩
  · -- the count looks like an error, and nothing is counted
    exact ⟨fun _ => hs.same hphase hl hh _ _,
      fun h => absurd (fun hk => absurd hneg (not_lt.mpr hk)) h⟩
  · obtain ⟨⟨hleft, hsent, htotal⟩, hfits, hpending⟩ := hs
    have hpos := hpending hphase
    have hint := toInt32_lt n
    generalize toInt32 n = k at *
    constructor
    · -- the counts move by what was accepted, and their sum stays
      intro hk
      obtain ⟨hcount, hroom⟩ := hk hnonneg
      rw [toInt32_of_range (by omega) (by omega)] at hl hh
      refine ⟨⟨?_, ?_, ?_⟩, ?_, fun hopen => ?_⟩
      · exact hl ▸ Int.sub_nonneg.mpr hcount
      · exact hh ▸ Int.add_nonneg hsent hnonneg
      · show c.bytesToSend + c.bytesHaveSend = total
        omega
      · show c.bytesToSend < 2 ^ 31
        omega
      · by_contra hnone
        exact hopen (if_pos (not_lt.mp hnone))
    · -- a count beyond what is left makes `bytesToSend` negative, one that wraps breaks the sum
      intro hk hafter
      obtain ⟨hleft', hsent', htotal'⟩ := hafter
      dsimp only at hleft' hsent' htotal'
      rw [toInt32_of_range (by omega) (by omega)] at hl
      refine hk fun _ => ⟨by omega, ?_⟩
      by_contra hfull
      have hless := toInt32_lt_of_ge (not_lt.mp hfull)
      omega

/-- The other steps leave the counters. -/
theorem counting_step (hs : Counting total s) (ht : sendStep s l = some t) :
    (CountFits s l → Counting total t) ∧ (¬ CountFits s l → ¬ Accounts total t) := by
  rw [sendStep] at ht
  split at ht
  · cases ht
  · next hphase =>
    rcases writeStep_cases ht with ⟨-, -, hz, -⟩ | ⟨rfl, -, -, rfl⟩ | ⟨rfl, -, rfl⟩ |
      ⟨rfl, -, rfl⟩ | ⟨n, bytes, c, phase, rfl, -, -, -, -, hround, rfl⟩ | ⟨-, hph, -⟩
    · -- nothing is left only when the response is complete
      exact absurd hz (hs.pending hphase).ne'
    · exact ⟨fun _ => hs.same hphase rfl rfl _ _, fun h => absurd trivial h⟩
    · have hc := hs.same (c := s.conn.enableWriting) hphase rfl rfl .idle s.accepted
      exact ⟨fun _ => hc, fun h => absurd trivial h⟩
    · exact ⟨fun _ => hs.same hphase rfl rfl _ _, fun h => absurd trivial h⟩
    · exact counting_accept hs hphase hround
    · exact absurd hph hphase

/-- **The sizes of a response.** For every appender, every file that is not empty and every run of
`write` up to a complete response: the length that is announced, the count of bytes to send and both
counters in every state are those of the response, exactly when header and file fit an `int`, no
count of a former response is negative, and each count of `writev` fits. -/
theorem response_sizes_iff {add : Appender} {c d : HttpConnection} (hpos : 0 < c.fileStat.st_size)
    (hresponse : processWriteWith add c .FILE_REQUEST = some (d, true)) {ls : List WriteLabel}
    (hrun : exec sendStep { conn := d, phase := .idle, accepted := [] } ls = some t) :
    ((c.AsksLength c.fileStat.st_size ∧
          d.bytesToSend = d.outputBuffer.readableBytes + c.fileStat.st_size) ∧
        ∀ js, js <+: ls → ∀ u,
          exec sendStep { conn := d, phase := .idle, accepted := [] } js = some u →
          Accounts (d.bytesToSend + d.bytesHaveSend) u) ↔
      d.outputBuffer.readableBytes + c.fileStat.st_size < 2 ^ 31 ∧ 0 ≤ c.bytesHaveSend ∧
        Along sendStep CountFits { conn := d, phase := .idle, accepted := [] } ls := by
  rw [sizes_iff hpos hresponse]
  refine and_congr_right fun hfits => ?_
  obtain ⟨hleft, hsent⟩ := fileResponse_queued (by omega) hresponse
  rw [toInt32_of_range (by omega) hfits] at hleft
  -- the counts at the start are those that `processWrite` has queued
  have hnonneg : (∀ js, js <+: ls → ∀ u,
      exec sendStep { conn := d, phase := .idle, accepted := [] } js = some u →
      Accounts (d.bytesToSend + d.bytesHaveSend) u) → 0 ≤ c.bytesHaveSend := by
    intro hall
    rw [← hsent]
    exact (hall [] List.nil_prefix _ rfl).sent
  have hstart : 0 ≤ c.bytesHaveSend → Counting (d.bytesToSend + d.bytesHaveSend)
      { conn := d, phase := .idle, accepted := [] } := by
    intro hzero
    refine ⟨⟨?_, ?_, rfl⟩, ?_, fun _ => ?_⟩
    all_goals dsimp only
    all_goals omega
  rw [← and_iff_right_of_imp hnonneg]
  refine and_congr_right fun hzero => ?_
  exact always_iff_along (I := fun _ u => Counting _ u) (hstart hzero)
    (fun _ _ _ hu => hu.accounts) (fun _ _ _ _ _ hu hl hv => (counting_step hu hv).1 hl)
    (fun _ _ _ _ _ hu hl hv => (counting_step hu hv).2 hl) hrun

/-- An appender that takes every text and keeps none. -/
def keepNothing : Appender := fun b _ _ => some (b, true)

/-- A header of two bytes is in the buffer, a file of `size` bytes is to be sent. -/
def fileSample (size : Int) : HttpConnection :=
  { zeroed with
    outputBuffer := { buffer := [0, 0, 0, 0, 0, 0, 0, 0, 72, 84], readerIndex := 8,
                      writerIndex := 10 }
    fileStat := { st_mode := S_IROTH, st_size := size }
    fileAddress := [1, 2, 3] }

theorem fileSample_response {size : Int} (h : 0 < size) :
    processWriteWith keepNothing (fileSample size) .FILE_REQUEST
      = some ((fileSample size).queueFile, true) := by
  rw [fileResponse_eq (c := fileSample size) h.ne']
  rfl

/-- A file of three bytes, with a full socket before the header is taken. -/
theorem response_sizes_sample :
    ∃ t, exec sendStep { conn := (fileSample 3).queueFile, phase := .idle, accepted := [] }
        [.call, .writev (.error true), .call, .writev (.accept 2)] = some t ∧ Accounts 5 t := by
  have hsome : (exec sendStep { conn := (fileSample 3).queueFile, phase := .idle, accepted := [] }
      [.call, .writev (.error true), .call, .writev (.accept 2)]).isSome := by decide
  obtain ⟨t, ht⟩ := Option.isSome_iff_exists.mp hsome
  have hfits : Along sendStep CountFits
      { conn := (fileSample 3).queueFile, phase := .idle, accepted := [] }
      [.call, .writev (.error true), .call, .writev (.accept 2)] := by
    refine (along_cons rfl).mpr ⟨trivial, ?_⟩
    refine (along_cons rfl).mpr ⟨trivial, ?_⟩
    refine (along_cons rfl).mpr ⟨trivial, ?_⟩
    exact ⟨fun _ => by decide, fun _ _ => trivial⟩
  have hall := (response_sizes_iff (by decide) (fileSample_response (by decide)) ht).mpr
    ⟨by decide, by decide, hfits⟩
  exact ⟨t, ht, hall.2 _ List.prefix_rfl t ht⟩

/-- A file of `2 ^ 31` bytes. -/
theorem large_file_miscounted :
    ¬ ∀ (add : Appender) (c d : HttpConnection), 0 < c.fileStat.st_size →
      processWriteWith add c .FILE_REQUEST = some (d, true) →
      c.AsksLength c.fileStat.st_size ∧
        d.bytesToSend = d.outputBuffer.readableBytes + c.fileStat.st_size := by
  intro h
  have hpos : 0 < (fileSample (2 ^ 31)).fileStat.st_size := by decide
  have hrun := fileSample_response hpos
  have hsizes := (sizes_iff hpos hrun).mp (h _ _ _ hpos hrun)
  exact absurd hsizes (by decide)

end Counters

end HttpWebserver.HttpConnection
