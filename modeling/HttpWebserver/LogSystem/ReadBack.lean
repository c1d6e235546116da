import HttpWebserver.LogSystem.Logger
import HttpWebserver.LogSystem.OnDisk
import HttpWebserver.Lib.LastSplit

/-!
# LogSystem — reading the log back

A line of the log is a message, a time, a file and a line number. The message may have separators
in it, so a line is read from behind.

* `Entry.text`, `Entry.read`: the text of a line, and how it is read;
* `read_text`: what is read is what was written;
* **`record_read`** — the record that `Logger` makes of a message with enough room is a line from
  which message, time, file and line number are read back;
* **`log_read_back`** — the file, at any moment between two writes, is read back as entries that
  were logged, in order and each as often as it was logged.
-/

namespace HttpWebserver.LogSystem

open CString Decimal LastSplit Machine
open LogState (keepBatch)

def slash : UInt8 := 47
def colon : UInt8 := 58
def space : UInt8 := 32

/-- What a line of the log says. -/
structure Entry where
  message : List UInt8
  tm : Tm
  file : List UInt8
  line : Int

namespace Entry

/-- The line without its newline. -/
def text (e : Entry) : List UInt8 :=
  e.message ++ ascii "  --  " ++ e.tm.toString ++ [colon] ++ e.file ++ [colon] ++ numeral e.line

def bytes (e : Entry) : List UInt8 := e.text ++ [newline]

/-- Three numerals with a separator between them. -/
def readThree (sep : UInt8) (text : List UInt8) : Option (Int × Int × Int) :=
  match text.splitOn sep with
  | [a, b, c] => do
    let a ← parse a
    let b ← parse b
    let c ← parse c
    some (a, b, c)
  | _ => none

/-- The line is split at its separators, the last one first. -/
def read (text : List UInt8) : Option Entry := do
  let (text, line) ← splitLast colon text
  let (text, file) ← splitLast colon text
  let (text, clock) ← splitLast space text
  let (text, date) ← splitLast space text
  -- the message stands before `"  --"` and the space in front of the date
  let message := text.take (text.length - 5)
  let line ← parse line
  let (year, mon, mday) ← readThree slash date
  let (hour, min, sec) ← readThree colon clock
  some {
    message := message
    tm := { tm_year := year - 1900, tm_mon := mon - 1, tm_mday := mday
            tm_hour := hour, tm_min := min, tm_sec := sec }
    file := file
    line := line }

end Entry

/-- The lines of a log, each with its newline. -/
def readLog (bytes : List UInt8) : Option (List Entry) :=
  (bytes.splitOn newline).dropLast.mapM Entry.read

/-- The fields are values of `int`, and so are the sums that are printed. -/
structure Tm.Ranged (tm : Tm) : Prop where
  year : IntType.int.Holds (tm.tm_year + 1900)
  mon : IntType.int.Holds (tm.tm_mon + 1)
  mday : IntType.int.Holds tm.tm_mday
  hour : IntType.int.Holds tm.tm_hour
  min : IntType.int.Holds tm.tm_min
  sec : IntType.int.Holds tm.tm_sec

/-- The separators of a line stand where the reader looks for them. -/
structure Entry.WellFormed (e : Entry) : Prop where
  message : newline ∉ e.message
  file : newline ∉ e.file ∧ colon ∉ e.file
  tm : e.tm.Ranged
  line : IntType.int.Holds e.line

/-! ## One line

A line is read from its end, since the message at the front may have any of the separators in
it. -/

section Line

variable {e : Entry} {tm : Tm} {v : Int}

theorem numeral_not_mem {c : UInt8} (hc : c ≠ minus ∧ Decimal.isDigit c = false) :
    c ∉ numeral v := by
  intro hmem
  rcases numeral_chars hmem with heq | hdigit
  · exact hc.1 heq
  · rw [hc.2] at hdigit
    cases hdigit

theorem slash_not_mem : slash ∉ numeral v := numeral_not_mem ⟨by decide, by decide⟩

theorem colon_not_mem : colon ∉ numeral v := numeral_not_mem ⟨by decide, by decide⟩

theorem space_not_mem : space ∉ numeral v := numeral_not_mem ⟨by decide, by decide⟩

/-- The date of a time. -/
def Tm.date (tm : Tm) : List UInt8 :=
  numeral (tm.tm_year + 1900) ++ slash :: (numeral (tm.tm_mon + 1) ++ slash :: numeral tm.tm_mday)

def Tm.clock (tm : Tm) : List UInt8 :=
  numeral tm.tm_hour ++ colon :: (numeral tm.tm_min ++ colon :: numeral tm.tm_sec)

/-- The time has room in the 128 bytes of `toString`. -/
theorem toString_ranged (h : tm.Ranged) : tm.toString = tm.date ++ space :: tm.clock := by
  have hlen : (tm.date ++ space :: tm.clock).length ≤ 127 := by
    have hyear := h.year.numeral_length_le
    have hmon := h.mon.numeral_length_le
    have hmday := h.mday.numeral_length_le
    have hhour := h.hour.numeral_length_le
    have hmin := h.min.numeral_length_le
    have hsec := h.sec.numeral_length_le
    simp only [Tm.date, Tm.clock, List.length_append, List.length_cons]
    omega
  rw [← List.take_of_length_le hlen]
  show List.take 127 _ = _
  have hslash : ascii "/" = [slash] := by decide
  have hcolon : ascii ":" = [colon] := by decide
  have hspace : ascii " " = [space] := by decide
  rw [hslash, hcolon, hspace]
  simp only [Tm.date, Tm.clock, List.append_assoc, List.cons_append, List.nil_append]

/-- Three numerals are read back. -/
theorem readThree_numerals {sep : UInt8} (hsep : ∀ v : Int, sep ∉ numeral v) (a b c : Int) :
    Entry.readThree sep (numeral a ++ sep :: (numeral b ++ sep :: numeral c)) = some (a, b, c) := by
  have hsplit : (numeral a ++ sep :: (numeral b ++ sep :: numeral c)).splitOn sep
      = [numeral a, numeral b, numeral c] := by
    rw [List.splitOn_append_cons_self_of_not_mem (hsep a),
      List.splitOn_append_cons_self_of_not_mem (hsep b), List.splitOn_eq_singleton (hsep c)]
  rw [Entry.readThree, hsplit]
  simp only [(numeral_canonical _).parses, Option.bind_eq_bind, Option.bind_some]

theorem space_not_mem_date : space ∉ tm.date := by
  simp only [Tm.date, List.mem_append, List.mem_cons, not_or]
  exact ⟨space_not_mem, by decide, space_not_mem, by decide, space_not_mem⟩

theorem space_not_mem_clock : space ∉ tm.clock := by
  simp only [Tm.clock, List.mem_append, List.mem_cons, not_or]
  exact ⟨space_not_mem, by decide, space_not_mem, by decide, space_not_mem⟩

/-- **What is read is what was written.** -/
theorem read_text (h : e.WellFormed) : Entry.read e.text = some e := by
  have htext : e.text = (((e.message ++ ascii "  -- ") ++ space :: e.tm.date) ++
      space :: e.tm.clock) ++ colon :: e.file ++ colon :: numeral e.line := by
    have hsep : ascii "  --  " = ascii "  -- " ++ [space] := by decide
    rw [Entry.text, toString_ranged h.tm, hsep]
    simp only [List.append_assoc, List.cons_append, List.nil_append]
  have hmessage : (e.message ++ ascii "  -- ").take ((e.message ++ ascii "  -- ").length - 5)
      = e.message := by
    have hfive : (ascii "  -- ").length = 5 := by decide
    rw [List.length_append, hfive, Nat.add_sub_cancel, List.take_left]
  rw [htext, Entry.read, splitLast_append _ colon_not_mem]
  dsimp only [Option.bind_eq_bind, Option.bind_some]
  rw [splitLast_append _ h.file.2]
  dsimp only [Option.bind_some]
  rw [splitLast_append _ space_not_mem_clock]
  dsimp only [Option.bind_some]
  rw [splitLast_append _ space_not_mem_date]
  dsimp only [Option.bind_some]
  rw [hmessage, (numeral_canonical _).parses, Tm.date, readThree_numerals fun _ => slash_not_mem,
    Tm.clock, readThree_numerals fun _ => colon_not_mem]
  dsimp only [Option.bind_some]
  rw [Int.add_sub_cancel, Int.add_sub_cancel]

theorem newline_not_mem_text (h : e.WellFormed) : newline ∉ e.text := by
  have hsep : newline ∉ ascii "  --  " := by decide
  have hcolon : newline ∉ [colon] := by decide
  simp only [Entry.text, List.mem_append, not_or]
  exact ⟨⟨⟨⟨⟨⟨h.message, hsep⟩, toString_no_newline _⟩, hcolon⟩, h.file.1⟩, hcolon⟩,
    numeral_no_newline _⟩

end Line

/-! ## The whole log -/

section Log

variable {e : Entry} {es : List Entry}

/-- Cutting at the newlines gives the lines, and nothing behind the last one. -/
theorem splitOn_bytes (h : ∀ e ∈ es, e.WellFormed) :
    (es.flatMap Entry.bytes).splitOn newline = es.map Entry.text ++ [[]] := by
  induction es with
  | nil => rfl
  | cons e es ih =>
    have hfirst := newline_not_mem_text (h e List.mem_cons_self)
    rw [List.flatMap_cons, Entry.bytes, List.append_assoc, List.singleton_append,
      List.splitOn_append_cons_self_of_not_mem hfirst,
      ih fun e he => h e (List.mem_cons_of_mem _ he)]
    rfl

theorem mapM_read (h : ∀ e ∈ es, e.WellFormed) : (es.map Entry.text).mapM Entry.read = some es := by
  induction es with
  | nil => rfl
  | cons e es ih =>
    rw [List.map_cons, List.mapM_cons, read_text (h e List.mem_cons_self),
      ih fun e he => h e (List.mem_cons_of_mem _ he)]
    rfl

theorem readLog_bytes (h : ∀ e ∈ es, e.WellFormed) :
    readLog (es.flatMap Entry.bytes) = some es := by
  rw [readLog, splitOn_bytes h, List.dropLast_concat]
  exact mapM_read h

end Log

/-! ## Records

The record of a statement is its entry's line where everything has room in the buffer. -/

section Record

variable {size : Nat} {b : FixedBuffer size} {e : Entry}

/-- With room for all of them and for a number more, the texts of the values follow each other. -/
theorem streamAll_fits {vs : List Value}
    (h : b.length + (vs.flatMap Value.text).length + kMaxNumericSize ≤ size) :
    (b.streamAll vs).data = b.data ++ vs.flatMap Value.text := by
  induction vs generalizing b with
  | nil => exact (List.append_nil _).symm
  | cons v vs ih =>
    rw [List.flatMap_cons, List.length_append] at h
    have hroom : kMaxNumericSize = 32 := rfl
    have hfits : v.text.length < b.avail := by
      rw [FixedBuffer.avail]
      omega
    have hfirst : b.stream v = b.append v.text := by
      cases v with
      | integer t v hv =>
        refine if_pos ?_
        rw [FixedBuffer.avail]
        omega
      | bool v => rfl
      | char v => rfl
      | cstr str => rfl
      | string v => rfl
    have hdata : (b.stream v).data = b.data ++ v.text := by
      rw [hfirst]
      exact FixedBuffer.append_data hfits
    have hlen : (b.stream v).length = b.length + v.text.length := by
      rw [FixedBuffer.length, hdata, List.length_append, FixedBuffer.length]
    show ((b.stream v).streamAll vs).data = _
    rw [ih (by omega), hdata, List.append_assoc, List.flatMap_cons]

/-- **A record is read back.** For all values that are streamed, every file, line and time: where
message and trailer have room, with one number to spare, the record is the line of the log that
says so, and this line is read as what it says. -/
theorem record_read {data : List UInt8} (hdata : data.length = kSmallBuffer) (h : e.WellFormed)
    {values : List Value} (hmessage : values.flatMap Value.text = e.message)
    (hroom : e.bytes.length + kMaxNumericSize ≤ kSmallBuffer) :
    (Logger.new data hdata e.file e.line h.line).record values e.tm = some e.bytes ∧
      readLog e.bytes = some [e] := by
  have htrailer : (values ++ (Logger.new data hdata e.file e.line h.line).trailer e.tm).flatMap
      Value.text = e.bytes := by
    have hnewline : ascii "\n" = [newline] := by decide
    rw [List.flatMap_append, hmessage, Logger.trailer, Logger.origin]
    simp only [List.flatMap_append, List.flatMap_cons, List.flatMap_nil, Value.text, hnewline,
      List.append_nil, Entry.bytes, Entry.text, List.append_assoc]
    rfl
  constructor
  · rw [record_eq, ← FixedBuffer.streamAll_append, streamAll_fits, htrailer]
    · rfl
    · rw [htrailer]
      show 0 + _ + _ ≤ _
      omega
  · have hone : readLog ([e].flatMap Entry.bytes) = some [e] :=
      readLog_bytes (List.forall_mem_singleton.mpr h)
    rwa [List.flatMap_singleton] at hone

/-- A message with separators of its own. -/
def sampleEntry : Entry where
  message := ascii "port 8080  --  up"
  tm := sampleTm
  file := ascii "main.cc"
  line := 7

theorem sampleEntry_wellFormed : sampleEntry.WellFormed where
  message := by decide
  file := by decide
  tm := ⟨by decide, by decide, by decide, by decide, by decide, by decide⟩
  line := by decide

theorem record_read_sample :
    (Logger.new (List.replicate kSmallBuffer 0) List.length_replicate sampleEntry.file
        sampleEntry.line sampleEntry_wellFormed.line).record
        [.cstr (ascii "port "), .integer .int 8080 (by decide), .string (ascii "  --  up")]
        sampleEntry.tm = some sampleEntry.bytes ∧
      readLog sampleEntry.bytes = some [sampleEntry] :=
  record_read List.length_replicate sampleEntry_wellFormed (by decide +kernel) (by decide +kernel)

end Record

/-! ## The file

The file of a run has the lines of the first entries, in order. -/

section File

variable {s : LogState} {p : Pipeline (List UInt8)}

/-- The file has what is let through, up to a line. -/
theorem output_prefix (hr : Represents s p) :
    ∃ lines : List (List UInt8), lines <+: written p.batches ∧
      s.locals.output = lines.flatten := by
  have hb := hr.backEnd
  by_cases htrim : s.position = .trimming
  · rw [htrim] at hb
    obtain ⟨done, batch, heq, -, hout⟩ := hb
    refine ⟨written done, ?_, hout⟩
    rw [heq, written, written, Pipeline.output_append]
    exact List.prefix_append _ _
  · by_cases hwrite : ∃ i, s.position = .writing i
    · obtain ⟨i, hpos⟩ := hwrite
      rw [hpos] at hb
      obtain ⟨done, batch, heq, -, hout⟩ := hb
      refine ⟨_, ?_, hout⟩
      rw [heq, written, written, Pipeline.output_append, Pipeline.output_singleton]
      refine (List.prefix_append_right_inj _).mpr ⟨((keepBatch batch).drop i).flatten, ?_⟩
      rw [← List.flatten_append, List.take_append_drop]
    · exact ⟨_, List.prefix_rfl, (hr.idle htrim (not_exists.mp hwrite)).2⟩

/-- Small batches are let through as they are. -/
theorem written_small {batches : List (List Block)}
    (hsmall : ∀ batch ∈ batches, batch.length ≤ 25) :
    written batches = batches.flatten.flatten := by
  rw [written, Pipeline.output,
    List.map_congr_left fun batch hb => keepBatch_of_le (hsmall batch hb),
    List.map_id']

/-- **The log is read back.** In every run of the logger with its file in which all lines that are
appended are those of entries: as long as no write has failed, the file between two writes is read
back as some of the entries, in order. With no batch over 25 buffers they are the first ones. -/
theorem log_read_back {ls : List OnDisk.Label} {s : OnDisk} {es : List Entry}
    (hrun : exec OnDisk.step OnDisk.new ls = some s)
    (hlogged : LogState.appended (emitted OnDisk.step OnDisk.logLabels OnDisk.new ls) =
      es.map Entry.bytes)
    (hes : ∀ e ∈ es, e.WellFormed) (hfine : s.file.error = false)
    (hidle : s.file.call () = .idle) :
    ∃ read, readLog s.file.bytes = some read ∧ read.Sublist es ∧
      ((∀ batch ∈ LogState.batches (emitted OnDisk.step OnDisk.logLabels OnDisk.new ls),
        batch.length ≤ 25) → read <+: es) := by
  obtain ⟨p, hr, hinput, hbatches⟩ := run_represents (OnDisk.run_log hrun)
  have hout := (OnDisk.run_inv hrun).output hfine
  rw [OnDisk.rest_idle hidle, List.append_nil] at hout
  obtain ⟨lines, hprefix, hlines⟩ := output_prefix hr
  have hsub : lines.Sublist (es.map Entry.bytes) := by
    rw [← hlogged, ← hinput]
    exact hprefix.sublist.trans (Pipeline.output_sublist keepBatch_sublist p)
  obtain ⟨read, hread, rfl⟩ := List.sublist_map_iff.mp hsub
  refine ⟨read, ?_, hread, fun hsmall => ?_⟩
  · rw [hout, hlines, ← List.flatMap_def]
    exact readLog_bytes fun e he => hes e (hread.subset he)
  · have hlength : ∀ batch ∈ p.batches, batch.length ≤ 25 := by
      intro batch hb
      have hmem : batch.map List.flatten ∈ LogState.batches
          (emitted OnDisk.step OnDisk.logLabels OnDisk.new ls) := by
        rw [← hbatches]
        exact List.mem_map.mpr ⟨batch, hb, rfl⟩
      have hle := hsmall _ hmem
      rwa [List.length_map] at hle
    rw [written_small hlength] at hprefix
    have hall : read.map Entry.bytes <+: es.map Entry.bytes := by
      rw [← hlogged, ← hinput, Pipeline.input]
      exact hprefix.trans (List.prefix_append _ _)
    -- entries are told apart by their lines
    have htake : read.map Entry.bytes = (es.take read.length).map Entry.bytes := by
      rw [List.prefix_iff_eq_take.mp hall, List.length_map, List.map_take]
    have hback : readLog (read.map Entry.bytes).flatten =
        readLog ((es.take read.length).map Entry.bytes).flatten := by rw [htake]
    rw [← List.flatMap_def, ← List.flatMap_def, readLog_bytes fun e he => hes e (hread.subset he),
      readLog_bytes fun e he => hes e (List.mem_of_mem_take he)] at hback
    rw [Option.some.inj hback]
    exact List.take_prefix _ _

def sampleLine : Line := ⟨sampleEntry.bytes, by decide +kernel⟩

/-- An entry that is written, and another one that is still in the front end. -/
def oneWritten : List OnDisk.Label :=
  [.log (.append sampleLine), .log .start, .log .backEnd, .log .backEnd, .log .backEnd,
    .log .backEnd, .log .backEnd, .log .backEnd, .write, .file (.lock ()),
    .file (.fwrite () sampleEntry.bytes.length false), .file (.finish ()),
    .log (.append sampleLine)]

theorem log_read_back_sample :
    ∃ s, exec OnDisk.step OnDisk.new oneWritten = some s ∧ s.file.error = false ∧
      s.file.call () = .idle ∧
      ∃ read, readLog s.file.bytes = some read ∧ read.Sublist [sampleEntry, sampleEntry] ∧
        ((∀ batch ∈ LogState.batches (emitted OnDisk.step OnDisk.logLabels OnDisk.new oneWritten),
          batch.length ≤ 25) → read <+: [sampleEntry, sampleEntry]) :=
  ⟨_, rfl, rfl, rfl, log_read_back (show exec OnDisk.step OnDisk.new oneWritten = _ from rfl) rfl
    (by simp [sampleEntry_wellFormed]) rfl rfl⟩

end File

end HttpWebserver.LogSystem
