import HttpWebserver.Buffer.Fifo
import HttpWebserver.HttpConnection.Connection

/-!
# HttpConnection — delimiting a line

The model of `read` and `parseLine` in `HttpConnection/HttpConnection.cc`. `parseLine` is a
loop over the readable region of `inputBuffer_`, one `retrieve(1)` a round; `scanLine` is its
effect on the buffer.

* An access to the storage outside of it is undefined: `none`.
* The loop runs on fuel, one unit a round. `scanLine` gives it a unit more than there are
  readable bytes, and the lemmas below show that no well-formed buffer needs more.

The lemmas say what `scanLine` does for each way the readable region can begin: with a
delimited line (`scanLine_line`), with bytes that end no line (`scanLine_open`, `scanLine_cr`),
with a malformed end of line (`scanLine_stuck`). The scan leaves a suffix (`scanLine_suffix`), and
all of it only where it is `Stuck` (`scanLine_consumes`).
-/

namespace HttpWebserver

open MachineInt Storage

def CR : UInt8 := 13
def LF : UInt8 := 10

namespace HttpConnection

/-- `read()`: one `readFd` on the input buffer. -/
def read (c : HttpConnection) (r : Readv) : Option (HttpConnection × Bool) := do
  let (inputBuffer, bytesRead) ← c.inputBuffer.readFd r
  let c := { c with inputBuffer := inputBuffer }
  if bytesRead ≤ 0 then
    some (c, false)
  else
    some (c, true)

/-- `*(inputBuffer_.peek()) = '\0'; inputBuffer_.retrieve(1)`. -/
def eraseByte (b : Buffer) : Option Buffer := do
  let buffer ← writeAt b.buffer b.peek [0]
  some (Buffer.retrieve { b with buffer := buffer } 1)

/-- The branch of `parseLine` on a CR. -/
def parseCr (b : Buffer) : Option (Buffer × LineStatus) :=
  if b.readableBytes = 1 then
    some (b, .LINE_OPEN)
  else do
    let next ← b.buffer[b.peek + 1]?
    if next = LF then
      let b ← eraseByte b
      let b ← eraseByte b
      some (b, .LINE_OK)
    else
      some (b, .LINE_BAD)

/-- The branch of `parseLine` on an LF. -/
def parseLf (b : Buffer) : Option (Buffer × LineStatus) := do
  -- the byte before is looked at only behind the first one of the buffer
  let afterCr ← if kCheapPrepend + 1 < b.peek then b.buffer[b.peek - 1]?.map (· == CR)
    else some false
  if afterCr then
    let buffer ← writeAt b.buffer (b.peek - 1) [0]
    let b ← eraseByte { b with buffer := buffer }
    some (b, .LINE_OK)
  else
    some (b, .LINE_BAD)

/-- The loop of `parseLine`, at most `fuel` rounds of it. -/
def parseLineLoop : Nat → Buffer → Option (Buffer × LineStatus)
  | 0, _ => none
  | fuel + 1, b =>
    if b.readableBytes = 0 then
      some (b, .LINE_OPEN)
    else do
      let temp ← b.buffer[b.peek]?
      if temp = CR then
        parseCr b
      else if temp = LF then
        parseLf b
      else
        parseLineLoop fuel (b.retrieve 1)

/-- What `parseLine` does to the input buffer. -/
def scanLine (b : Buffer) : Option (Buffer × LineStatus) :=
  parseLineLoop (b.readableBytes + 1) b

def parseLine (c : HttpConnection) : Option (HttpConnection × LineStatus) :=
  (scanLine c.inputBuffer).map fun r => ({ c with inputBuffer := r.1 }, r.2)

theorem parseLine_replace (c : HttpConnection) (b : Buffer) :
    parseLine { c with inputBuffer := b }
      = (scanLine b).map fun r => ({ c with inputBuffer := r.1 }, r.2) := rfl

end HttpConnection

/-! ## Consuming readable bytes

`retrieve(1)` moves the reader index, and resets both indices with the last byte. -/

namespace Buffer

/-- The buffer with its first `n` readable bytes consumed, where others stay. -/
def skip (b : Buffer) (n : Nat) : Buffer := { b with readerIndex := b.readerIndex + n }

section Skip

variable {b : Buffer} {n : Nat}

theorem skip_zero : b.skip 0 = b := rfl

theorem skip_skip (m : Nat) : (b.skip n).skip m = b.skip (n + m) := by
  simp only [skip, Nat.add_assoc]

theorem skip_wellFormed (h : b.WellFormed) (hn : n ≤ b.readable.length) :
    (b.skip n).WellFormed := by
  have hlen := h.readable_length_eq
  have hpre := h.prepend
  have hord := h.order
  refine ⟨?_, ?_, h.inside⟩
  · show kCheapPrepend ≤ b.readerIndex + n
    omega
  · show b.readerIndex + n ≤ b.writerIndex
    omega

theorem skip_readable (n : Nat) : (b.skip n).readable = b.readable.drop n :=
  (slice_drop b.buffer b.readerIndex b.writerIndex n).symm

theorem retrieve_eq_skip (h : b.WellFormed) (hn : n < b.readable.length) :
    b.retrieve n = b.skip n := by
  rw [h.readable_length] at hn
  exact if_pos hn

theorem retrieve_eq_retrieveAll (h : b.WellFormed) (hn : b.readable.length ≤ n) :
    b.retrieve n = b.retrieveAll := by
  rw [h.readable_length] at hn
  exact if_neg (by omega)

/-- The buffer with `data` in its storage at `pos`. -/
def store (b : Buffer) (pos : Nat) (data : List UInt8) : Buffer :=
  { b with buffer := overwrite b.buffer pos data }

theorem store_wellFormed {pos : Nat} {data : List UInt8} (h : b.WellFormed)
    (hfit : pos + data.length ≤ b.buffer.length) : (b.store pos data).WellFormed :=
  ⟨h.prepend, h.order, Nat.le_trans h.inside (Nat.le_of_eq (overwrite_length hfit).symm)⟩

/-- A write that ends inside the readable region leaves the bytes behind it. -/
theorem store_readable_drop {pos n : Nat} {data : List UInt8} (hpos : pos ≤ b.buffer.length)
    (hend : pos + data.length ≤ b.readerIndex + n) :
    (b.store pos data).readable.drop n = b.readable.drop n := by
  rw [readable, readable, slice_drop, slice_drop]
  exact slice_overwrite_after hpos hend

/-- A readable byte stands in the storage behind the reader index. -/
theorem buffer_of_readable {i : Nat} {x : UInt8} (h : b.readable[i]? = some x) :
    b.buffer[b.readerIndex + i]? = some x := by
  rw [readable, slice_getElem?] at h
  split at h
  · exact h
  · cases h

end Skip

end Buffer

namespace HttpConnection

open Buffer

/-- A piece of a line: no byte of it begins the end of a line. -/
def Bare (l : List UInt8) : Prop := ∀ x ∈ l, x ≠ CR ∧ x ≠ LF

instance (l : List UInt8) : Decidable (Bare l) := List.decidableBAll (fun x => x ≠ CR ∧ x ≠ LF) l

theorem Bare.of_append_left {l m : List UInt8} (h : Bare (l ++ m)) : Bare l :=
  fun x hx => h x (List.mem_append_left m hx)

theorem Bare.of_append_right {l m : List UInt8} (h : Bare (l ++ m)) : Bare m :=
  fun x hx => h x (List.mem_append_right l hx)

/-! ## One round of the loop

By the first readable byte: any that ends no line, a CR or an LF. -/

section Round

variable {b : Buffer} {rest : List UInt8} {x : UInt8}

theorem readableBytes_cons (h : b.WellFormed) (hread : b.readable = x :: rest) :
    b.readableBytes = rest.length + 1 := by
  rw [← h.readable_length, hread, List.length_cons]

theorem peek_cons (hread : b.readable = x :: rest) : b.buffer[b.peek]? = some x :=
  buffer_of_readable (i := 0) (by rw [hread]; rfl)

theorem parseLineLoop_nil (h : b.WellFormed) (hread : b.readable = []) (fuel : Nat) :
    parseLineLoop (fuel + 1) b = some (b, .LINE_OPEN) := by
  have hzero : b.readableBytes = 0 := by rw [← h.readable_length, hread]; rfl
  rw [parseLineLoop, if_pos hzero]

theorem parseLineLoop_plain (h : b.WellFormed) (hread : b.readable = x :: rest)
    (hx : x ≠ CR ∧ x ≠ LF) (fuel : Nat) :
    parseLineLoop (fuel + 1) b = parseLineLoop fuel (b.retrieve 1) := by
  have hne : ¬ b.readableBytes = 0 := by rw [readableBytes_cons h hread]; omega
  rw [parseLineLoop, if_neg hne, peek_cons hread, Option.bind_eq_bind, Option.bind_some,
    if_neg hx.1, if_neg hx.2]

theorem parseLineLoop_atCr (h : b.WellFormed) (hread : b.readable = CR :: rest) (fuel : Nat) :
    parseLineLoop (fuel + 1) b = parseCr b := by
  have hne : ¬ b.readableBytes = 0 := by rw [readableBytes_cons h hread]; omega
  rw [parseLineLoop, if_neg hne, peek_cons hread, Option.bind_eq_bind, Option.bind_some,
    if_pos rfl]

theorem parseLineLoop_atLf (h : b.WellFormed) (hread : b.readable = LF :: rest) (fuel : Nat) :
    parseLineLoop (fuel + 1) b = parseLf b := by
  have hne : ¬ b.readableBytes = 0 := by rw [readableBytes_cons h hread]; omega
  rw [parseLineLoop, if_neg hne, peek_cons hread, Option.bind_eq_bind, Option.bind_some,
    if_neg (by decide), if_pos rfl]

/-- The rounds over bytes that end no line, while others follow. -/
theorem parseLineLoop_skip {piece : List UInt8} (hpiece : Bare piece) (hrest : rest ≠ [])
    (h : b.WellFormed) (hread : b.readable = piece ++ rest) (fuel : Nat) :
    parseLineLoop (piece.length + fuel) b = parseLineLoop fuel (b.skip piece.length) := by
  induction piece generalizing b with
  | nil => rw [List.length_nil, Nat.zero_add, skip_zero]
  | cons x piece ih =>
    have hpos : 0 < rest.length := List.length_pos_iff.mpr hrest
    have hlt : 1 < b.readable.length := by
      rw [hread, List.length_append, List.length_cons]
      omega
    have hnext : (b.skip 1).readable = piece ++ rest := by rw [skip_readable, hread]; rfl
    rw [List.length_cons, show piece.length + 1 + fuel = (piece.length + fuel) + 1 from by omega,
      parseLineLoop_plain h hread (hpiece x List.mem_cons_self), retrieve_eq_skip h hlt,
      ih (fun y hy => hpiece y (List.mem_cons_of_mem x hy)) (skip_wellFormed h (by omega)) hnext,
      skip_skip, Nat.add_comm 1]

/-- A CR at the end of what has arrived. -/
theorem parseCr_open (h : b.WellFormed) (hread : b.readable = [CR]) :
    parseCr b = some (b, .LINE_OPEN) := by
  have hone : b.readableBytes = 1 := readableBytes_cons h hread
  rw [parseCr, if_pos hone]

/-- A CR with another byte than an LF behind it. -/
theorem parseCr_bad (h : b.WellFormed) (hx : x ≠ LF) (hread : b.readable = CR :: x :: rest) :
    parseCr b = some (b, .LINE_BAD) := by
  have hmany : ¬ b.readableBytes = 1 := by
    rw [readableBytes_cons h hread, List.length_cons]
    omega
  have hnext : b.buffer[b.peek + 1]? = some x := buffer_of_readable (by rw [hread]; rfl)
  rw [parseCr, if_neg hmany, hnext, Option.bind_eq_bind, Option.bind_some, if_neg hx]

end Round

/-! ## What `scanLine` does

The scan of a text that begins with a piece of a line, by what stands behind the piece. -/

section Scan

variable {b : Buffer} {line rest : List UInt8}

/-- The scan passes over the bytes that end no line and does the rest behind them. -/
theorem scanLine_skip (hline : Bare line) (hrest : rest ≠ []) (h : b.WellFormed)
    (hread : b.readable = line ++ rest) :
    scanLine b = scanLine (b.skip line.length) := by
  have hlen : b.readable.length = line.length + rest.length := by
    rw [hread, List.length_append]
  have hle : line.length ≤ b.readable.length := by omega
  have hskip : (b.skip line.length).readableBytes = rest.length := by
    rw [← (skip_wellFormed h hle).readable_length, skip_readable, hread, List.drop_left]
  unfold scanLine
  rw [hskip, ← h.readable_length, hlen, Nat.add_assoc, parseLineLoop_skip hline hrest h hread]

/-- Bytes that end no line and nothing behind them: all of them are consumed, and the last
`retrieve(1)` resets both indices. -/
theorem scanLine_open (hline : Bare line) (hne : line ≠ []) (h : b.WellFormed)
    (hread : b.readable = line) : scanLine b = some (b.retrieveAll, .LINE_OPEN) := by
  obtain ⟨init, x, rfl⟩ : ∃ init x, line = init ++ [x] :=
    ⟨_, _, (List.dropLast_append_getLast hne).symm⟩
  have hlen : b.readable.length = init.length + 1 := by rw [hread]; simp
  have hlast : (b.skip init.length).readable = [x] := by
    rw [skip_readable, hread, List.drop_left]
  have hwf : (b.skip init.length).WellFormed := skip_wellFormed h (by omega)
  have hx : x ≠ CR ∧ x ≠ LF := hline x (by simp)
  have hall : (b.skip init.length).retrieve 1 = b.retrieveAll :=
    retrieve_eq_retrieveAll hwf (by rw [hlast]; exact Nat.le_refl 1)
  obtain ⟨hwf', hread'⟩ := retrieveAll_spec h
  rw [scanLine_skip (Bare.of_append_left hline) (List.cons_ne_nil x []) h hread, scanLine,
    readableBytes_cons hwf hlast, parseLineLoop_plain hwf hlast hx, hall,
    parseLineLoop_nil hwf' hread']

/-- A CR with nothing behind it stays readable. -/
theorem scanLine_cr (hline : Bare line) (h : b.WellFormed) (hread : b.readable = line ++ [CR]) :
    scanLine b = some (b.skip line.length, .LINE_OPEN) := by
  have hlen : b.readable.length = line.length + 1 := by rw [hread]; simp
  have hcr : (b.skip line.length).readable = [CR] := by
    rw [skip_readable, hread, List.drop_left]
  have hwf : (b.skip line.length).WellFormed := skip_wellFormed h (by omega)
  rw [scanLine_skip hline (List.cons_ne_nil CR []) h hread, scanLine, parseLineLoop_atCr hwf hcr,
    parseCr_open hwf hcr]

/-- The buffer once the line that ends `n` bytes behind the reader index is delimited: NULs
stand for its CR and LF, and both are consumed. -/
def delimited (b : Buffer) (n : Nat) : Buffer :=
  ((b.store (b.readerIndex + n) [0, 0]).skip (n + 1)).retrieve 1

theorem eraseByte_eq {x : UInt8} (h : b.WellFormed) (hread : b.readable = x :: rest) :
    eraseByte b = some ((b.store b.readerIndex [0]).retrieve 1) := by
  have hcount := h.readable_length_eq
  rw [hread, List.length_cons] at hcount
  have hin := h.inside
  have hfit : b.readerIndex + [(0 : UInt8)].length ≤ b.buffer.length := by
    rw [List.length_singleton]
    omega
  rw [eraseByte, peek, writeAt_eq_some hfit, Option.bind_eq_bind, Option.bind_some]
  rfl

theorem eraseByte_spec {x : UInt8} (h : b.WellFormed) (hread : b.readable = x :: rest) :
    ∃ b', eraseByte b = some b' ∧ b'.WellFormed ∧ b'.readable = rest := by
  have hcount := h.readable_length_eq
  rw [hread, List.length_cons] at hcount
  have hin := h.inside
  have hfit : b.readerIndex + [(0 : UInt8)].length ≤ b.buffer.length := by
    rw [List.length_singleton]
    omega
  obtain ⟨hwf', hread'⟩ := retrieve_spec (store_wellFormed h hfit) 1
  refine ⟨_, eraseByte_eq h hread, hwf', ?_⟩
  have hend : b.readerIndex + [(0 : UInt8)].length ≤ b.readerIndex + 1 := Nat.le_refl _
  rw [hread', store_readable_drop (by omega) hend, hread, List.drop_one, List.tail_cons]

/-- The branch on a CR followed by an LF. -/
theorem parseCr_line (h : b.WellFormed) (hread : b.readable = CR :: LF :: rest) :
    parseCr b = some (delimited b 0, .LINE_OK) := by
  have hcount := h.readable_length_eq
  rw [hread, List.length_cons, List.length_cons] at hcount
  have hin := h.inside
  have hord := h.order
  have hmany : ¬ b.readableBytes = 1 := by
    rw [readableBytes_cons h hread, List.length_cons]
    omega
  have hnext : b.buffer[b.peek + 1]? = some LF := buffer_of_readable (by rw [hread]; rfl)
  -- the first write leaves the LF readable, so `retrieve(1)` moves the reader index onto it
  have hfit : b.readerIndex + [(0 : UInt8)].length ≤ b.buffer.length := by
    rw [List.length_singleton]
    omega
  have hwf₁ : (b.store b.readerIndex [0]).WellFormed := store_wellFormed h hfit
  have hlen₁ : (b.store b.readerIndex [0]).readable.length = rest.length + 2 :=
    hwf₁.readable_length_eq.trans hcount.symm
  have hwf₂ := skip_wellFormed hwf₁ (show 1 ≤ _ by omega)
  have hread₂ : ((b.store b.readerIndex [0]).skip 1).readable = LF :: rest := by
    have hend : b.readerIndex + [(0 : UInt8)].length ≤ b.readerIndex + 1 := Nat.le_refl _
    rw [skip_readable, store_readable_drop (by omega) hend, hread]
    rfl
  have hmerge : overwrite (overwrite b.buffer b.readerIndex [0]) (b.readerIndex + 1) [0]
      = overwrite b.buffer b.readerIndex [0, 0] :=
    overwrite_overwrite_adjacent (by show b.readerIndex + 2 ≤ _; omega)
  rw [parseCr, if_neg hmany, hnext, Option.bind_eq_bind, Option.bind_some, if_pos rfl,
    eraseByte_eq h hread, Option.bind_eq_bind, Option.bind_some,
    retrieve_eq_skip hwf₁ (show 1 < _ by omega), eraseByte_eq hwf₂ hread₂, Option.bind_some]
  simp only [store, skip, delimited, hmerge, Nat.add_zero, Nat.zero_add]

/-- A delimited line. -/
theorem scanLine_line (hline : Bare line) (h : b.WellFormed)
    (hread : b.readable = line ++ CR :: LF :: rest) :
    scanLine b = some (delimited b line.length, .LINE_OK) := by
  have hlen : b.readable.length = line.length + (rest.length + 2) := by rw [hread]; simp
  have hcr : (b.skip line.length).readable = CR :: LF :: rest := by
    rw [skip_readable, hread, List.drop_left]
  have hwf : (b.skip line.length).WellFormed := skip_wellFormed h (by omega)
  rw [scanLine_skip hline (List.cons_ne_nil CR _) h hread, scanLine, parseLineLoop_atCr hwf hcr,
    parseCr_line hwf hcr]
  simp only [delimited, store, skip, Nat.add_zero, Nat.zero_add, Nat.add_assoc]

/-- The bytes behind the line stay readable, and nothing but its CR and LF has changed. -/
theorem delimited_spec (h : b.WellFormed) (hread : b.readable = line ++ CR :: LF :: rest) :
    (delimited b line.length).WellFormed ∧ (delimited b line.length).readable = rest ∧
      (delimited b line.length).buffer
        = overwrite b.buffer (b.readerIndex + line.length) [0, 0] := by
  have hcount := h.readable_length_eq
  rw [hread, List.length_append, List.length_cons, List.length_cons] at hcount
  have hin := h.inside
  have hfit : b.readerIndex + line.length + [(0 : UInt8), 0].length ≤ b.buffer.length := by
    show b.readerIndex + line.length + 2 ≤ b.buffer.length
    omega
  have hwf₁ := store_wellFormed h hfit
  have hlen₁ : (b.store (b.readerIndex + line.length) [0, 0]).readable.length
      = line.length + (rest.length + 2) := hwf₁.readable_length_eq.trans hcount.symm
  have hwf₂ := skip_wellFormed hwf₁ (show line.length + 1 ≤ _ by omega)
  obtain ⟨hwf', hread'⟩ := retrieve_spec hwf₂ 1
  refine ⟨hwf', hread'.trans ?_, ?_⟩
  · have hend : b.readerIndex + line.length + [(0 : UInt8), 0].length
        ≤ b.readerIndex + (line.length + 1 + 1) := Nat.le_refl _
    rw [skip_readable, List.drop_drop, store_readable_drop (by omega) hend, hread,
      show line ++ CR :: LF :: rest = (line ++ [CR, LF]) ++ rest from by simp,
      List.drop_left' (by simp)]
  · unfold delimited Buffer.retrieve
    split <;> rfl

/-- The same for an empty line. -/
theorem delimited_nil (h : b.WellFormed) (hread : b.readable = CR :: LF :: rest) :
    (delimited b 0).WellFormed ∧ (delimited b 0).readable = rest ∧
      (delimited b 0).buffer = overwrite b.buffer b.readerIndex [0, 0] := by
  have hline : b.readable = [] ++ CR :: LF :: rest := hread
  have hspec := delimited_spec h hline
  rw [List.length_nil, Nat.add_zero] at hspec
  exact hspec

end Scan

/-! ## What the scan consumes

Whatever the text is, the scan leaves the end of what was readable. It leaves all of it exactly
where it is stuck. -/

/-- The byte in front of the readable ones is a CR that `parseLine` looks at. -/
def AfterCr (b : Buffer) : Prop :=
  kCheapPrepend + 1 < b.readerIndex ∧ b.buffer[b.readerIndex - 1]? = some CR

instance (b : Buffer) : Decidable (AfterCr b) := by
  unfold AfterCr
  infer_instance

/-- The scan ends at the first readable byte: at a CR without an LF behind it, or at an LF
without a CR in front of it. -/
def Stuck (b : Buffer) : Prop :=
  (b.readable.head? = some CR ∧ b.readable[1]? ≠ some LF) ∨
    (b.readable.head? = some LF ∧ ¬ AfterCr b)

instance (b : Buffer) : Decidable (Stuck b) := by
  unfold Stuck
  infer_instance

section Consume

variable {b b' : Buffer} {rest : List UInt8} {x : UInt8} {fuel : Nat} {status : LineStatus}

/-- At an LF the byte in front decides. -/
theorem parseLf_eq (h : b.WellFormed) (hlt : b.readerIndex < b.writerIndex) :
    parseLf b = if AfterCr b then
      (eraseByte (b.store (b.readerIndex - 1) [0])).map fun d => (d, .LINE_OK)
    else some (b, .LINE_BAD) := by
  have hin := h.inside
  have hfit : b.peek - 1 + [(0 : UInt8)].length ≤ b.buffer.length := by
    show b.readerIndex - 1 + 1 ≤ b.buffer.length
    omega
  unfold parseLf
  by_cases hpos : kCheapPrepend + 1 < b.peek
  · obtain ⟨y, hy⟩ : ∃ y, b.buffer[b.peek - 1]? = some y :=
      ⟨_, List.getElem?_eq_getElem (by show b.readerIndex - 1 < _; omega)⟩
    by_cases hcr : y = CR
    · have hafter : AfterCr b := ⟨hpos, hcr ▸ hy⟩
      subst hcr
      rw [if_pos hafter, if_pos hpos]
      simp only [hy, Option.map_some, beq_self_eq_true, Option.bind_eq_bind, Option.bind_some,
        if_true, writeAt_eq_some hfit]
      exact Option.map_eq_bind.symm
    · have hafter : ¬ AfterCr b := fun ⟨_, hbyte⟩ => hcr (Option.some.inj (hy.symm.trans hbyte))
      simp [hpos, hy, hcr, hafter]
  · have hafter : ¬ AfterCr b := fun ⟨hpos', _⟩ => hpos hpos'
    simp [hpos, hafter]

theorem lt_of_readable (h : b.WellFormed) (hread : b.readable = x :: rest) :
    b.readerIndex < b.writerIndex := by
  have hcount := h.readable_length_eq
  rw [hread, List.length_cons] at hcount
  omega

/-- An LF without a CR in front of it. -/
theorem parseLf_bad (h : b.WellFormed) (hread : b.readable = LF :: rest) (hcr : ¬ AfterCr b) :
    parseLf b = some (b, .LINE_BAD) := by
  rw [parseLf_eq h (lt_of_readable h hread), if_neg hcr]

/-- An LF behind a CR that was left in front: a NUL takes the place of each. -/
theorem parseLf_line (h : b.WellFormed) (hread : b.readable = LF :: rest) (hcr : AfterCr b) :
    ∃ b', parseLf b = some (b', .LINE_OK) ∧ b'.WellFormed ∧ b'.readable = rest := by
  have hlt := lt_of_readable h hread
  have hin := h.inside
  have hpos : kCheapPrepend + 1 < b.readerIndex := hcr.1
  have hfit : b.readerIndex - 1 + [(0 : UInt8)].length ≤ b.buffer.length := by
    rw [List.length_singleton]
    omega
  have hwf : (b.store (b.readerIndex - 1) [0]).WellFormed := store_wellFormed h hfit
  have hsame : (b.store (b.readerIndex - 1) [0]).readable = LF :: rest := by
    have hend : b.readerIndex - 1 + [(0 : UInt8)].length ≤ b.readerIndex + 0 := by
      rw [List.length_singleton]
      omega
    have hdrop := store_readable_drop (b := b) (by omega) hend
    rw [List.drop_zero, List.drop_zero, hread] at hdrop
    exact hdrop
  obtain ⟨b', herase, hwf', hread'⟩ := eraseByte_spec hwf hsame
  refine ⟨b', ?_, hwf', hread'⟩
  rw [parseLf_eq h hlt, if_pos hcr, herase]
  rfl

/-- What the scan leaves readable is the end of what was readable. -/
theorem parseLineLoop_suffix (h : b.WellFormed)
    (hscan : parseLineLoop fuel b = some (b', status)) :
    b'.WellFormed ∧ b'.readable <:+ b.readable := by
  induction fuel generalizing b with
  | zero => cases hscan
  | succ fuel ih =>
    cases hread : b.readable with
    | nil =>
      rw [parseLineLoop_nil h hread] at hscan
      cases hscan
      exact ⟨h, by rw [hread]⟩
    | cons x rest =>
      by_cases hcr : x = CR
      · subst hcr
        rw [parseLineLoop_atCr h hread] at hscan
        cases rest with
        | nil =>
          rw [parseCr_open h hread] at hscan
          cases hscan
          exact ⟨h, by rw [hread]⟩
        | cons y rest =>
          by_cases hlf : y = LF
          · subst hlf
            rw [parseCr_line h hread] at hscan
            cases hscan
            obtain ⟨hwf', hread', -⟩ := delimited_nil h hread
            exact ⟨hwf', by rw [hread']; exact ⟨[CR, LF], rfl⟩⟩
          · rw [parseCr_bad h hlf hread] at hscan
            cases hscan
            exact ⟨h, by rw [hread]⟩
      · by_cases hlf : x = LF
        · subst hlf
          rw [parseLineLoop_atLf h hread] at hscan
          by_cases hafter : AfterCr b
          · obtain ⟨b₁, hb₁, hwf₁, hread₁⟩ := parseLf_line h hread hafter
            cases hb₁.symm.trans hscan
            exact ⟨hwf₁, by rw [hread₁]; exact List.suffix_cons LF rest⟩
          · rw [parseLf_bad h hread hafter] at hscan
            cases hscan
            exact ⟨h, by rw [hread]⟩
        · -- the byte is consumed
          rw [parseLineLoop_plain h hread ⟨hcr, hlf⟩] at hscan
          obtain ⟨hwf₁, hread₁⟩ := retrieve_spec h 1
          obtain ⟨hwf', hsuffix⟩ := ih hwf₁ hscan
          rw [hread₁, hread] at hsuffix
          exact ⟨hwf', hsuffix.trans (List.suffix_cons x rest)⟩

theorem scanLine_suffix (h : b.WellFormed) (hscan : scanLine b = some (b', status)) :
    b'.WellFormed ∧ b'.readable <:+ b.readable := parseLineLoop_suffix h hscan

/-- A scan that is stuck changes nothing. -/
theorem scanLine_stuck (h : b.WellFormed) (hstuck : Stuck b) :
    ∃ status, status ≠ .LINE_OK ∧ scanLine b = some (b, status) := by
  unfold scanLine
  cases hread : b.readable with
  | nil =>
    rw [Stuck, hread] at hstuck
    simp at hstuck
  | cons x rest =>
    rw [Stuck, hread] at hstuck
    rcases hstuck with ⟨hhead, hnext⟩ | ⟨hhead, hcr⟩
    · cases hhead
      rw [parseLineLoop_atCr h hread]
      cases rest with
      | nil => exact ⟨.LINE_OPEN, by decide, parseCr_open h hread⟩
      | cons y rest =>
        refine ⟨.LINE_BAD, by decide, parseCr_bad h (fun hy => hnext ?_) hread⟩
        rw [hy]
        rfl
    · cases hhead
      rw [parseLineLoop_atLf h hread]
      exact ⟨.LINE_BAD, by decide, parseLf_bad h hread hcr⟩

/-- A scan that is not stuck consumes at least a byte. -/
theorem scanLine_consumes (h : b.WellFormed) (hne : b.readable ≠ []) (hstuck : ¬ Stuck b)
    (hscan : scanLine b = some (b', status)) : b'.readable.length < b.readable.length := by
  obtain ⟨x, rest, hread⟩ := List.exists_cons_of_ne_nil hne
  have hle : ∀ {l : List UInt8}, l <:+ rest → l.length < b.readable.length := fun hl => by
    rw [hread, List.length_cons]
    exact Nat.lt_succ_of_le hl.length_le
  unfold scanLine at hscan
  by_cases hcr : x = CR
  · subst hcr
    rw [parseLineLoop_atCr h hread] at hscan
    -- not stuck at a CR: an LF is behind it, and both are consumed
    have hnext : rest.head? = some LF := by
      by_contra hnot
      refine hstuck (.inl ⟨by rw [hread]; rfl, ?_⟩)
      rw [hread, List.getElem?_cons_succ, ← List.head?_eq_getElem?]
      exact hnot
    obtain ⟨y, rest, rfl⟩ := List.exists_cons_of_ne_nil (l := rest) (by rintro rfl; cases hnext)
    cases hnext
    rw [parseCr_line h hread] at hscan
    cases hscan
    obtain ⟨-, hread', -⟩ := delimited_nil h hread
    exact hle (by rw [hread']; exact List.suffix_cons LF rest)
  · by_cases hlf : x = LF
    · subst hlf
      rw [parseLineLoop_atLf h hread] at hscan
      -- not stuck at an LF: a CR is in front of it
      have hafter : AfterCr b := by
        by_contra hnot
        exact hstuck (.inr ⟨by rw [hread]; rfl, hnot⟩)
      obtain ⟨b₁, hb₁, -, hread₁⟩ := parseLf_line h hread hafter
      cases hb₁.symm.trans hscan
      exact hle (by rw [hread₁])
    · -- any other byte is consumed by itself
      rw [parseLineLoop_plain h hread ⟨hcr, hlf⟩] at hscan
      obtain ⟨hwf₁, hread₁⟩ := retrieve_spec h 1
      obtain ⟨-, hsuffix⟩ := parseLineLoop_suffix hwf₁ hscan
      rw [hread₁, hread] at hsuffix
      exact hle hsuffix

end Consume

end HttpConnection

end HttpWebserver
