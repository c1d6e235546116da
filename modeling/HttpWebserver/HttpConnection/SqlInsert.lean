import HttpWebserver.HttpConnection.FormDecoding
import HttpWebserver.HttpConnection.Users
import HttpWebserver.Lib.QuotedLiteral

/-!
# HttpConnection — the statement of a registration

`doRequest` puts the decoded name and password between quotes and passes the text to
`mysql_query`, as a C string.

* `readInsert`: the pair that a text stores, if it is one complete `INSERT` as MySQL reads it.
* `stores_encoded`: the text would store any pair whose marks are written twice.
* **`never_stores_pair`** — the text that is passed stores the decoded pair for no form.

The name is a string of 200 bytes with NULs at its end, so the C string ends with the name, inside
the first literal (`insertStatement_eq`). A name can close the literal itself and go on with
another password, which then is a complete statement, but for a shorter name.
-/

namespace HttpWebserver.HttpConnection

open CString QuotedLiteral

/-! ## Statements

A reader of the one statement that the source builds, after MySQL's rules for strings: it decides
whether a text is a complete statement and which pair it stores. -/

/-- MySQL's strings in single quotes. A backslash in front of another byte than these is left
out. -/
def mysqlQuoting : Quoting UInt8 where
  quote := 39
  escape := 92
  distinct := by decide
  unescape x :=
    if x = 48 then [0]
    else if x = 98 then [8]
    else if x = 110 then [10]
    else if x = 114 then [13]
    else if x = 116 then [9]
    else if x = 90 then [26]
    -- `\%` and `\_` keep the backslash, for patterns
    else if x = 37 ∨ x = 95 then [92, x]
    else [x]
  unescape_length x := by
    split_ifs <;> simp only [List.length_cons, List.length_nil] <;> decide
  unescape_escape := by decide

/-- The words of the statement in front of the values. -/
def insertHead : List UInt8 := ascii "INSERT INTO user(username, passwd) VALUES("

/-- A value, behind any spaces. -/
def readValue (text : List UInt8) : Option (List UInt8 × List UInt8) :=
  QuotedLiteral.read mysqlQuoting (text.dropWhile isSpace)

/-- A mark between the values or behind them, behind any spaces. -/
def readMark (mark : UInt8) (text : List UInt8) : Option (List UInt8) :=
  (text.dropWhile isSpace).dropPrefix? [mark]

/-- The pair that a text stores: the text is the statement with two values, and ends with it. -/
def readInsert (text : List UInt8) : Option (List UInt8 × List UInt8) := do
  let text ← text.dropPrefix? insertHead
  let (username, text) ← readValue text
  let text ← readMark 44 text
  let (passwd, text) ← readValue text
  let text ← readMark 41 text
  if text.dropWhile isSpace = [] then some (username, passwd) else none

/-- The text is one complete `INSERT`, and its literals denote the pair. -/
def StoresPair (text username passwd : List UInt8) : Prop :=
  readInsert text = some (username, passwd)

section Statements

variable {text username passwd : List UInt8}

theorem readValue_literal {rest : List UInt8} (hrest : rest.head? ≠ some 39)
    (value : List UInt8) : readValue (literal mysqlQuoting value ++ rest) = some (value, rest) := by
  have hquote : (literal mysqlQuoting value ++ rest).dropWhile isSpace
      = literal mysqlQuoting value ++ rest := List.dropWhile_cons_of_neg (by decide)
  rw [readValue, hquote]
  exact read_literal hrest value

theorem readMark_cons {mark : UInt8} (hmark : isSpace mark = false) (rest : List UInt8) :
    readMark mark (mark :: rest) = some rest := by
  have hstays : (mark :: rest).dropWhile isSpace = [mark] ++ rest :=
    List.dropWhile_cons_of_neg (by rw [hmark]; decide)
  rw [readMark, hstays]
  exact List.dropPrefix?_append_of_beq rest (beq_self_eq_true _)

/-- A statement is longer than its head and its first value. -/
theorem readInsert_length (h : readInsert text = some (username, passwd)) :
    insertHead.length + username.length + 2 ≤ text.length := by
  obtain ⟨rest, hhead, h⟩ := Option.bind_eq_some_iff.mp h
  obtain ⟨⟨username', more⟩, hread, h⟩ := Option.bind_eq_some_iff.mp h
  obtain ⟨_, -, h⟩ := Option.bind_eq_some_iff.mp h
  obtain ⟨⟨passwd', _⟩, -, h⟩ := Option.bind_eq_some_iff.mp h
  obtain ⟨_, -, h⟩ := Option.bind_eq_some_iff.mp h
  -- the name is what the first value denotes
  have hname : username' = username := by
    split at h
    · cases h
      rfl
    · cases h
  subst hname
  obtain ⟨head, rfl, hbeq⟩ := List.dropPrefix?_eq_some_iff.mp hhead
  obtain rfl := beq_iff_eq.mp hbeq
  have hle := read_length hread
  have hspaces : (rest.dropWhile isSpace).length ≤ rest.length :=
    (List.dropWhile_suffix _).length_le
  rw [List.length_append]
  omega

/-- Strings whose marks are written twice are stored as they are. -/
theorem stores_encoded (username passwd : List UInt8) :
    StoresPair (sqlInsert (encode mysqlQuoting username) (encode mysqlQuoting passwd))
      username passwd := by
  have htext : sqlInsert (encode mysqlQuoting username) (encode mysqlQuoting passwd) =
      insertHead ++ (literal mysqlQuoting username ++ 44 :: 32 ::
        (literal mysqlQuoting passwd ++ [41])) := by
    rw [sqlInsert, insertHead, literal, literal]
    simp only [List.append_assoc, List.cons_append]
    rfl
  have hhead : ∀ s, (insertHead ++ s).dropPrefix? insertHead = some s := fun s =>
    List.dropPrefix?_append_of_beq s (beq_self_eq_true _)
  -- the space behind the comma
  have hspace : ∀ s, readValue (32 :: s) = readValue s := fun s =>
    congrArg (QuotedLiteral.read mysqlQuoting) (List.dropWhile_cons_of_pos (by decide))
  rw [StoresPair, htext, readInsert, hhead, Option.bind_eq_bind, Option.bind_some,
    readValue_literal (by simp), Option.bind_eq_bind, Option.bind_some]
  dsimp only
  rw [readMark_cons (by decide), Option.bind_some, hspace, readValue_literal (by simp),
    Option.bind_some]
  rfl

/-- Strings without quotes and backslashes need no encoding. -/
theorem stores_plain (huser : 39 ∉ username) (huser' : 92 ∉ username) (hpasswd : 39 ∉ passwd)
    (hpasswd' : 92 ∉ passwd) : StoresPair (sqlInsert username passwd) username passwd := by
  have h := stores_encoded username passwd
  rwa [encode_plain huser huser', encode_plain hpasswd hpasswd'] at h

end Statements

/-! ## The statement that is passed

The name is a string of 200 bytes with NULs behind it, so the C string ends before the statement
does. -/

section Passed

variable {c : HttpConnection} {body name username passwd : List UInt8}

/-- The C string ends in front of the first NUL of the name. -/
theorem insertStatement_eq (hname : cString name 0 = some username) (password : List UInt8) :
    insertStatement name password = insertHead ++ 39 :: username := by
  obtain ⟨hzero, rest, hbytes⟩ := cString_eq_some_iff.mp hname
  rw [List.drop_zero] at hbytes
  have hall : ∀ x ∈ insertHead ++ 39 :: username, decide (x ≠ 0) = true := by
    intro x hx
    rcases List.mem_append.mp hx with hhead | hrest
    · exact (by decide +kernel : ∀ x ∈ insertHead, decide (x ≠ 0) = true) x hhead
    · rcases List.mem_cons.mp hrest with rfl | hx
      · decide
      · refine decide_eq_true ?_
        rintro rfl
        exact hzero hx
  have htext : sqlInsert name password = (insertHead ++ 39 :: username) ++
      0 :: (rest ++ (ascii "', '" ++ (password ++ ascii "')"))) := by
    rw [sqlInsert, insertHead, hbytes]
    simp only [List.append_assoc, List.cons_append]
    rfl
  rw [insertStatement, htext, List.takeWhile_append_of_pos hall,
    List.takeWhile_cons_of_neg (by decide), List.append_nil]

/-- **The statement and the pair.** For every form with a name and a password of fewer than 200
bytes: the C string that is passed to `mysql_query` for the decoded strings is not a complete
`INSERT` that stores the pair. -/
theorem never_stores_pair (h : c.deref c.string = some body)
    (hform : FormLayout body username passwd) (huser : username.length < formFieldSize)
    (hpasswd : passwd.length < formFieldSize) :
    c.decodeForm = some (formField username, formField passwd) ∧
      ¬ StoresPair (insertStatement (formField username) (formField passwd)) username passwd := by
  refine ⟨decodeForm_eq h hform (Nat.le_of_lt huser) (Nat.le_of_lt hpasswd), fun hstores => ?_⟩
  obtain ⟨hzero, -⟩ := formBytes_eq h
  have hname := cString_formField (hform.noNul hzero).1 huser
  -- behind the quote there are no more bytes than the name has
  have hle := readInsert_length hstores
  rw [insertStatement_eq hname, List.length_append, List.length_cons] at hle
  omega

/-- The form of a new user. -/
theorem never_stores_pair_plain :
    (submitted "user=a&password=b").decodeForm
        = some (formField (ascii "a"), formField (ascii "b")) ∧
      ¬ StoresPair (insertStatement (formField (ascii "a")) (formField (ascii "b"))) (ascii "a")
        (ascii "b") := by
  have hbody : (submitted "user=a&password=b").deref (submitted "user=a&password=b").string
      = some (ascii "user=a&password=b") := by decide +kernel
  have hform : FormLayout (ascii "user=a&password=b") (ascii "a") (ascii "b") :=
    ⟨by decide, ascii "user=", ascii "password=", by decide +kernel⟩
  exact never_stores_pair hbody hform (by decide) (by decide)

/-- The statement for `a` and `b` ends behind the `a`. -/
theorem insert_unterminated :
    (submitted "user=a&password=b").decodeForm
        = some (formField (ascii "a"), formField (ascii "b")) ∧
      insertStatement (formField (ascii "a")) (formField (ascii "b"))
        = ascii "INSERT INTO user(username, passwd) VALUES('a" ∧
      ¬ StoresPair (insertStatement (formField (ascii "a")) (formField (ascii "b"))) (ascii "a")
        (ascii "b") := by
  unfold StoresPair
  decide +kernel

/-! A name that closes its literal: the rest of it is the password that is stored. -/

example : readInsert (insertStatement (formField (ascii "a', 'x')")) (formField (ascii "b")))
    = some (ascii "a", ascii "x") := by
  decide +kernel

end Passed

end HttpWebserver.HttpConnection
