import HttpWebserver.LogSystem.FormatInteger

/-!
# LogSystem — one record of the log

The model of `LogStream::operator<<`, `Logger` and `Timestamp::toString`. A record is what is
streamed into a `Logger` and, from its destructor, the time, the file, the line and a newline.
`FixedBuffer` drops without a word what does not fit, so each piece has a place only while the
buffer has one.

* `Value`: what an operator takes, without the floating-point types;
* `stream_view`, `streamAll_view`: the operators on the storage are those on the bytes read of it;
* `room`, `leftover`: the place that is left, and the place that pieces of given lengths leave;
* **`record_isLine_iff`** — which records end with a newline. No record has one inside.
-/

namespace HttpWebserver.LogSystem

open CString Decimal Storage

def newline : UInt8 := 10

/-- A value that is streamed. A `const char*` is null or has the bytes before its NUL. -/
inductive Value where
  | bool (v : Bool)
  | integer (t : IntType) (v : Int) (h : t.Holds v)
  | char (v : UInt8)
  | cstr (str : Option (List UInt8))
  | string (v : List UInt8)

/-- The text of a value. -/
def Value.text : Value → List UInt8
  | bool v => if v then ascii "1" else ascii "0"
  | integer _ v _ => numeral v
  | char v => [v]
  | cstr none => ascii "(null)"
  | cstr (some str) => str
  | string v => v

namespace RawBuffer

variable {size : Nat}

/-- `operator<<`. -/
def stream (b : RawBuffer size) : Value → Option (RawBuffer size)
  | .integer t v _ => b.streamInteger t v
  | v => b.append v.text

def streamAll (b : RawBuffer size) : List Value → Option (RawBuffer size)
  | [] => some b
  | v :: vs => (b.stream v).bind fun b => b.streamAll vs

end RawBuffer

/-- The fields of a `tm` that are printed, as `localtime` fills them in. -/
structure Tm where
  tm_year : Int
  tm_mon : Int
  tm_mday : Int
  tm_hour : Int
  tm_min : Int
  tm_sec : Int

/-- `Timestamp::toString()`; `buf` has 128 bytes. -/
def Tm.toString (tm : Tm) : List UInt8 :=
  (numeral (tm.tm_year + 1900) ++ ascii "/" ++ numeral (tm.tm_mon + 1) ++ ascii "/" ++
    numeral tm.tm_mday ++ ascii " " ++ numeral tm.tm_hour ++ ascii ":" ++ numeral tm.tm_min ++
    ascii ":" ++ numeral tm.tm_sec).take 127

/-- A `Logger`: its stream, and where it was constructed. -/
structure Logger where
  stream : RawBuffer kSmallBuffer
  basename : List UInt8
  line : Int
  line_int : IntType.int.Holds line

namespace Logger

/-- `Logger(filename, line)`, with `data` in the memory of the buffer. -/
def new (data : List UInt8) (hdata : data.length = kSmallBuffer) (filename : List UInt8)
    (line : Int) (hline : IntType.int.Holds line) : Logger where
  stream := RawBuffer.new data hdata
  basename := filename
  line := line
  line_int := hline

/-- What the destructor streams in front of the newline, at the time `tm`. -/
def origin (l : Logger) (tm : Tm) : List Value :=
  [.cstr (ascii "  --  "), .string tm.toString, .char 58, .string l.basename, .char 58,
    .integer .int l.line l.line_int]

def trailer (l : Logger) (tm : Tm) : List Value := l.origin tm ++ [.cstr (ascii "\n")]

/-- The bytes that the destructor hands to `output_`. -/
def destroy (l : Logger) (tm : Tm) : Option (List UInt8) :=
  (l.stream.streamAll (l.trailer tm)).map fun buf => buf.data.take buf.cur

/-- `LOG << values`: the record of a statement. -/
def record (l : Logger) (values : List Value) (tm : Tm) : Option (List UInt8) :=
  (l.stream.streamAll values).bind fun stream => { l with stream := stream }.destroy tm

end Logger

/-! ## The bytes that are read

Nothing reads what lies behind `cur_`, so a statement is computed on the buffer without its
storage. -/

namespace FixedBuffer

variable {size : Nat}

def stream (b : FixedBuffer size) : Value → FixedBuffer size
  | .integer _ v _ => b.formatInteger v
  | v => b.append v.text

def streamAll (b : FixedBuffer size) (vs : List Value) : FixedBuffer size := vs.foldl stream b

/-- How many bytes `append` still takes. -/
def room (b : FixedBuffer size) : Nat := size - 1 - b.length

end FixedBuffer

namespace RawBuffer

variable {size : Nat} (b : RawBuffer size)

theorem stream_view (v : Value) : ∃ b', b.stream v = some b' ∧ b'.view = b.view.stream v := by
  cases v with
  | integer t v h =>
    show ∃ b', b.streamInteger t v = some b' ∧ b'.view = b.view.formatInteger v
    rw [streamInteger, IntType.cast_of_holds h.formatted]
    exact b.formatInteger_view (Nat.lt_of_le_of_lt h.numeral_length_le (by decide))
  | bool v => exact b.append_view _
  | char v => exact b.append_view _
  | cstr str => exact b.append_view _
  | string v => exact b.append_view _

theorem streamAll_view (vs : List Value) :
    ∃ b', b.streamAll vs = some b' ∧ b'.view = b.view.streamAll vs := by
  induction vs generalizing b with
  | nil => exact ⟨b, rfl, rfl⟩
  | cons v vs ih =>
    obtain ⟨b₁, hstream, hview⟩ := b.stream_view v
    obtain ⟨b', hrest, hview'⟩ := ih b₁
    refine ⟨b', ?_, ?_⟩
    · rw [streamAll, hstream, Option.bind_some, hrest]
    · rw [hview', hview]
      rfl

end RawBuffer

/-! ## Room

`append` drops what does not fit, and goes on with the next piece. Whether the newline at the end
has room depends on all pieces before it: `leftover` computes the room from their lengths. -/

/-- The room that is left when pieces of these lengths are placed in order, each where it fits. -/
def leftover (room : Nat) (lengths : List Nat) : Nat :=
  lengths.foldl (fun room n => if n ≤ room then room - n else room) room

namespace FixedBuffer

variable {size : Nat} {b : FixedBuffer size}

theorem append_of_room (h : b.length < size) {buf : List UInt8} (hfits : buf.length ≤ b.room) :
    (b.append buf).data = b.data ++ buf := by
  rw [room] at hfits
  exact append_data (by rw [avail]; omega)

theorem append_of_full (h : b.length < size) {buf : List UInt8} (hfull : b.room < buf.length) :
    b.append buf = b := by
  rw [room] at hfull
  exact dif_neg (by rw [avail]; omega)

/-- A place stays free behind what was appended. -/
theorem append_room (h : b.length < size) (buf : List UInt8) :
    (b.append buf).length < size ∧
      (b.append buf).room = if buf.length ≤ b.room then b.room - buf.length else b.room := by
  rcases Nat.lt_or_ge b.room buf.length with hfull | hfits
  · rw [append_of_full h hfull, if_neg (not_le.mpr hfull)]
    exact ⟨h, rfl⟩
  · have hlen : (b.append buf).length = b.length + buf.length := by
      rw [length, append_of_room h hfits, List.length_append, length]
    rw [if_pos hfits, room, hlen]
    rw [room] at hfits ⊢
    omega

/-- A value appends its text, or, for a number that has too little room, nothing. -/
theorem stream_eq (b : FixedBuffer size) (v : Value) :
    b.stream v = b.append v.text ∨ b.stream v = b := by
  cases v with
  | integer t v hv =>
    show b.formatInteger v = b.append (numeral v) ∨ b.formatInteger v = b
    rw [formatInteger]
    split
    · exact .inl rfl
    · exact .inr rfl
  | bool v => exact .inl rfl
  | char v => exact .inl rfl
  | cstr str => exact .inl rfl
  | string v => exact .inl rfl

theorem stream_length_lt (h : b.length < size) (v : Value) : (b.stream v).length < size := by
  rcases stream_eq b v with heq | heq
  · rw [heq]
    exact (append_room h v.text).1
  · rw [heq]
    exact h

/-- The bytes after a value: those before, with its text behind them or not. -/
theorem stream_data (b : FixedBuffer size) (v : Value) :
    (b.stream v).data = b.data ∨ (b.stream v).data = b.data ++ v.text := by
  rcases stream_eq b v with heq | heq
  · rw [heq, append]
    split
    · exact .inr rfl
    · exact .inl rfl
  · exact .inl (congrArg data heq)

theorem streamAll_append (b : FixedBuffer size) (vs ws : List Value) :
    b.streamAll (vs ++ ws) = (b.streamAll vs).streamAll ws := List.foldl_append

theorem streamAll_length_lt (h : b.length < size) (vs : List Value) :
    (b.streamAll vs).length < size := by
  induction vs generalizing b with
  | nil => exact h
  | cons v vs ih => exact ih (stream_length_lt h v)

/-- No byte comes into a buffer that is not in a text. -/
theorem streamAll_not_mem {x : UInt8} (hb : x ∉ b.data) {vs : List Value}
    (hvs : ∀ v ∈ vs, x ∉ v.text) : x ∉ (b.streamAll vs).data := by
  induction vs generalizing b with
  | nil => exact hb
  | cons v vs ih =>
    refine ih ?_ fun w hw => hvs w (List.mem_cons_of_mem v hw)
    have hv := hvs v List.mem_cons_self
    rcases stream_data b v with h | h
    · rw [h]
      exact hb
    · rw [h, List.mem_append]
      exact fun hx => hx.elim hb hv

theorem appendAll_room (h : b.length < size) (bufs : List (List UInt8)) :
    (bufs.foldl append b).length < size ∧
      (bufs.foldl append b).room = leftover b.room (bufs.map List.length) := by
  induction bufs generalizing b with
  | nil => exact ⟨h, rfl⟩
  | cons buf bufs ih =>
    obtain ⟨hlt, hroom⟩ := append_room h buf
    have hrest := ih hlt
    rw [hroom] at hrest
    exact hrest

/-- A number leaves room where there was room, as it needs more of it than it takes. -/
theorem formatInteger_room (h : b.length < size) {v : Int}
    (hlen : (numeral v).length < kMaxNumericSize - 1) :
    (b.formatInteger v).length < size ∧ (0 < (b.formatInteger v).room ↔ 0 < b.room) := by
  obtain ⟨hlt, hroom⟩ := append_room h (numeral v)
  rw [formatInteger]
  split
  · next hwide =>
    have hwide' : kMaxNumericSize - 1 ≤ b.room := by
      rw [room, Nat.sub_right_comm]
      exact Nat.sub_le_sub_right hwide 1
    rw [hroom]
    refine ⟨hlt, ?_⟩
    split
    · omega
    · omega
  · exact ⟨h, Iff.rfl⟩

end FixedBuffer

/-! ## Records -/

/-- One terminated line. -/
def IsLine (r : List UInt8) : Prop := ∃ body, r = body ++ [newline] ∧ newline ∉ body

/-- The newline comes last, where it has room. -/
theorem isLine_append_newline {b : FixedBuffer kSmallBuffer} (h : b.length < kSmallBuffer)
    (hb : newline ∉ b.data) : IsLine (b.append [newline]).data ↔ 0 < b.room := by
  rcases Nat.eq_zero_or_pos b.room with hz | hpos
  · have hfull : b.room < [newline].length := by rw [hz]; decide
    rw [FixedBuffer.append_of_full h hfull]
    refine iff_of_false ?_ hz.not_gt
    rintro ⟨body, hbody, -⟩
    exact hb (hbody ▸ List.mem_append_right body List.mem_cons_self)
  · have hfits : [newline].length ≤ b.room := hpos
    rw [FixedBuffer.append_of_room h hfits]
    exact iff_of_true ⟨b.data, rfl, hb⟩ hpos

theorem numeral_no_newline (v : Int) : newline ∉ numeral v := by
  intro h
  rcases numeral_chars h with heq | hdigit
  · exact absurd heq (by decide)
  · exact absurd hdigit (by decide)

theorem toString_no_newline (tm : Tm) : newline ∉ tm.toString := by
  intro h
  have hall := List.mem_of_mem_take h
  simp only [List.mem_append] at hall
  rcases hall with (((((((((h | h) | h) | h) | h) | h) | h) | h) | h) | h) | h
  all_goals first
    | exact absurd h (numeral_no_newline _)
    | exact absurd h (by decide)

/-- Nothing that the destructor streams before the newline has one. -/
theorem origin_no_newline (l : Logger) (tm : Tm) (hfile : newline ∉ l.basename) :
    ∀ v ∈ l.origin tm, newline ∉ v.text := by
  intro v hv
  simp only [Logger.origin, List.mem_cons, List.not_mem_nil, or_false] at hv
  rcases hv with rfl | rfl | rfl | rfl | rfl | rfl
  · show newline ∉ ascii "  --  "
    decide
  · exact toString_no_newline tm
  · show newline ∉ [58]
    decide
  · exact hfile
  · show newline ∉ [58]
    decide
  · exact numeral_no_newline l.line

/-- **What the destructor makes of a message.** -/
theorem trailer_isLine_iff (l : Logger) (tm : Tm) {b : FixedBuffer kSmallBuffer}
    (h : b.length < kSmallBuffer) (hb : newline ∉ b.data) (hfile : newline ∉ l.basename) :
    IsLine (b.streamAll (l.trailer tm)).data ↔
      2 ≤ leftover b.room [6, tm.toString.length, 1, l.basename.length] := by
  -- the time and the file, then a colon, the line, and the newline
  obtain ⟨hlt, hroom⟩ := FixedBuffer.appendAll_room h
    [ascii "  --  ", tm.toString, [58], l.basename]
  generalize hhead : [ascii "  --  ", tm.toString, [58], l.basename].foldl FixedBuffer.append b = c
    at hlt hroom
  obtain ⟨hlt₁, hroom₁⟩ := FixedBuffer.append_room hlt [58]
  have hline : (numeral l.line).length < kMaxNumericSize - 1 :=
    Nat.lt_of_le_of_lt l.line_int.numeral_length_le (by decide)
  obtain ⟨hlt₂, hroom₂⟩ := FixedBuffer.formatInteger_room hlt₁ hline
  have horigin : b.streamAll (l.origin tm) = (c.append [58]).formatInteger l.line := by
    simp only [← hhead, Logger.origin, FixedBuffer.streamAll, List.foldl_cons, List.foldl_nil,
      FixedBuffer.stream, Value.text]
  have hall : b.streamAll (l.trailer tm)
      = ((c.append [58]).formatInteger l.line).append [newline] := by
    rw [Logger.trailer, FixedBuffer.streamAll_append, horigin]
    rfl
  have hclean := FixedBuffer.streamAll_not_mem hb (origin_no_newline l tm hfile)
  rw [horigin] at hclean
  rw [hall, isLine_append_newline hlt₂ hclean, hroom₂, hroom₁]
  have hsix : (ascii "  --  ").length = 6 := by decide
  rw [List.map_cons, List.map_cons, List.map_cons, List.map_cons, List.map_nil, hsix,
    List.length_singleton] at hroom
  rw [← hroom, List.length_singleton]
  split
  · omega
  · omega

/-- A record is what is read of the buffer after message and trailer. -/
theorem record_eq {data : List UInt8} (hdata : data.length = kSmallBuffer) (filename : List UInt8)
    {line : Int} (hline : IntType.int.Holds line) (values : List Value) (tm : Tm) :
    (Logger.new data hdata filename line hline).record values tm =
      some (((FixedBuffer.new.streamAll values).streamAll
        ((Logger.new data hdata filename line hline).trailer tm) :
          FixedBuffer kSmallBuffer).data) := by
  have hnew : (RawBuffer.new data hdata).view = FixedBuffer.new := FixedBuffer.eq_of_data rfl
  obtain ⟨b, hstream, hview⟩ := (RawBuffer.new data hdata).streamAll_view values
  obtain ⟨b', htrailer, hview'⟩ :=
    b.streamAll_view ((Logger.new data hdata filename line hline).trailer tm)
  show ((RawBuffer.new data hdata).streamAll values).bind _ = _
  rw [hstream, Option.bind_some]
  show (b.streamAll ((Logger.new data hdata filename line hline).trailer tm)).map _ = _
  rw [htrailer, ← hnew, ← hview, ← hview']
  rfl

/-- **Which records are lines.** For all values without newlines that are streamed, every file name
without one, every line and time: the record is one terminated line exactly when the separator, the
time, a colon and the file name, each placed where it fits, leave two bytes of the room behind the
message. -/
theorem record_isLine_iff {data : List UInt8} (hdata : data.length = kSmallBuffer)
    {filename : List UInt8} (hfile : newline ∉ filename) {line : Int}
    (hline : IntType.int.Holds line) {values : List Value}
    (hvalues : ∀ v ∈ values, newline ∉ v.text) (tm : Tm) :
    ∃ r, (Logger.new data hdata filename line hline).record values tm = some r ∧
      (IsLine r ↔ 2 ≤ leftover (FixedBuffer.new.streamAll values : FixedBuffer kSmallBuffer).room
        [6, tm.toString.length, 1, filename.length]) := by
  refine ⟨_, record_eq hdata filename hline values tm, ?_⟩
  have hlt : (FixedBuffer.new.streamAll values : FixedBuffer kSmallBuffer).length < kSmallBuffer :=
    FixedBuffer.streamAll_length_lt (by decide) values
  have hclean : newline ∉ (FixedBuffer.new.streamAll values : FixedBuffer kSmallBuffer).data :=
    FixedBuffer.streamAll_not_mem List.not_mem_nil hvalues
  exact trailer_isLine_iff _ tm hlt hclean hfile

/-- A moment in 2024. -/
def sampleTm : Tm := ⟨124, 0, 31, 23, 59, 7⟩

theorem record_isLine_sample :
    ∃ r, (Logger.new (List.replicate kSmallBuffer 0) List.length_replicate (ascii "main.cc") 7
        (by decide)).record [.cstr (ascii "port "), .integer .int 8080 (by decide)] sampleTm = some r ∧
      IsLine r := by
  obtain ⟨r, hrun, hline⟩ := record_isLine_iff (List.length_replicate (a := (0 : UInt8)))
    (show newline ∉ ascii "main.cc" by decide) (show IntType.int.Holds 7 by decide)
    (show ∀ v ∈ [Value.cstr (ascii "port "), .integer .int 8080 (by decide)], newline ∉ v.text
      by decide +kernel) sampleTm
  exact ⟨r, hrun, hline.mpr (by decide +kernel)⟩

/-- A message of 3999 bytes, the most that the buffer takes, leaves no room for a newline. -/
theorem full_record_not_line :
    ¬ ∀ values r, (∀ v ∈ values, newline ∉ v.text) →
      (Logger.new (List.replicate kSmallBuffer 0) List.length_replicate (ascii "main.cc") 7
        (by decide)).record values sampleTm = some r → IsLine r := by
  intro h
  obtain ⟨message, hlen, hclean⟩ : ∃ m : List UInt8, m.length = 3999 ∧ newline ∉ m := by
    refine ⟨List.replicate 3999 97, List.length_replicate, fun hmem => ?_⟩
    exact absurd (List.eq_of_mem_replicate hmem) (by decide)
  have hempty : (FixedBuffer.new : FixedBuffer kSmallBuffer).length < kSmallBuffer := by decide
  obtain ⟨hlt, hroom⟩ := FixedBuffer.append_room hempty message
  have hfull : (FixedBuffer.new.append message : FixedBuffer kSmallBuffer).room = 0 := by
    rw [hroom, hlen]
    decide
  have hdata : newline ∉ (FixedBuffer.new.streamAll [.string message] :
      FixedBuffer kSmallBuffer).data :=
    FixedBuffer.streamAll_not_mem List.not_mem_nil (List.forall_mem_singleton.mpr hclean)
  have hline := h [.string message] _ (List.forall_mem_singleton.mpr hclean) (record_eq _ _ _ _ _)
  have hroom' := (trailer_isLine_iff _ sampleTm hlt hdata
    (show newline ∉ ascii "main.cc" by decide)).mp hline
  rw [hfull] at hroom'
  exact absurd hroom' (by decide +kernel)

end HttpWebserver.LogSystem
