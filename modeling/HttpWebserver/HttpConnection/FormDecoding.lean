import HttpWebserver.HttpConnection.DoRequest
import HttpWebserver.HttpConnection.RequestLine

/-!
# HttpConnection — the decoding of a form

The two loops of `doRequest` that copy a name and a password out of `string_`. The first begins at
index 5 and ends at a `&`, the second begins ten bytes behind the `&` and ends at a NUL.

* `copyAccesses`: what one loop reads and writes, and where it ends; `decodeAccesses` is both.
  `copyUntil` is the same loop with its result (`copyUntil_stop_iff`).
* `decodeForm_eq`: what the loops leave in the fields.
* **`form_in_bounds_iff`** — the loops stay within the string and the two fields exactly when the
  body is one they can decode.
* **`documented_form_not_decoded`** — in the format that the comment beside the loops gives, the
  password begins eight bytes behind the `&`, and no body of it is decoded.

Nothing is tested before the loops, so there is no way out for any other body.
-/

namespace HttpWebserver.HttpConnection

open CString Storage

/-- `'&'`. -/
def ampersand : UInt8 := 38

/-! ## What the loops access

The accesses of the two loops, whatever the memory around the arrays holds, so that a read or a
write out of bounds is one of them and not undefined. -/

/-- A read of `string_[i]`, or a write to `name[j]` or `password[j]`. -/
inductive Access where
  | read (i : Nat)
  | write (j : Nat)
deriving DecidableEq, Repr

/-- The loop that copies `string_[i], string_[i + 1], …` to `field[j], field[j + 1], …` up to the
byte `stop`, with the NUL it writes then: its accesses, and where `stop` is. The bytes from
`string_[i]` on are given, and behind them there is nothing to read. -/
def copyAccesses (stop : UInt8) : List UInt8 → Nat → Nat → List Access × Option Nat
  | [], i, _ => ([.read i], none)
  | x :: xs, i, j =>
    if x = stop then ([.read i, .write j], some i)
    else
      let (accesses, found) := copyAccesses stop xs (i + 1) (j + 1)
      (.read i :: .write j :: accesses, found)

/-- The bytes from `string_[0]` on. -/
def formBytes (c : HttpConnection) : List UInt8 := ((c.storage c.string).getD []).drop c.string.off

/-- The accesses of both loops, and where the second one ends. -/
def decodeAccesses (c : HttpConnection) : List Access × Option Nat :=
  match copyAccesses ampersand (c.formBytes.drop 5) 5 0 with
  | (accesses, none) => (accesses, none)
  | (accesses, some i) =>
    let (more, found) := copyAccesses 0 (c.formBytes.drop (i + 10)) (i + 10) 0
    (accesses ++ more, found)

/-- The loops end, after reads of `body` and its NUL only, and writes to the 200 bytes of a field
only. -/
structure InBounds (body : List UInt8) (run : List Access × Option Nat) : Prop where
  reads : ∀ i, .read i ∈ run.1 → i ≤ body.length
  writes : ∀ j, .write j ∈ run.1 → j < formFieldSize
  ends : run.2.isSome

/-- A body of the layout that the loops take for granted: five bytes, a name, a `&`, nine bytes
and a password. -/
def FormLayout (body name password : List UInt8) : Prop :=
  ampersand ∉ name ∧ ∃ label label', label.length = 5 ∧ label'.length = 9 ∧
    body = label ++ (name ++ ampersand :: (label' ++ password))

/-- A body of that layout whose fields have room for their NULs. -/
def Decodable (body : List UInt8) : Prop :=
  ∃ name password, FormLayout body name password ∧
    name.length < formFieldSize ∧ password.length < formFieldSize

/-! ## One loop -/

section Loop

variable {stop : UInt8} {s rest : List UInt8} {i j : Nat}

/-- A loop that has found its end behind `n` bytes. -/
structure Copies (n i j : Nat) (run : List Access × Option Nat) : Prop where
  found : run.2 = some (i + n)
  read : ∀ k, .read k ∈ run.1 ↔ i ≤ k ∧ k ≤ i + n
  write : ∀ k, .write k ∈ run.1 ↔ j ≤ k ∧ k ≤ j + n

theorem copyAccesses_found (hs : stop ∉ s) :
    Copies s.length i j (copyAccesses stop (s ++ stop :: rest) i j) := by
  induction s generalizing i j with
  | nil =>
    -- the byte that stops the loop is read and not written
    rw [List.nil_append, copyAccesses, if_pos rfl]
    constructor
    · rfl
    · intro k
      simp only [List.mem_cons, Access.read.injEq, List.not_mem_nil, or_false, reduceCtorEq,
        List.length_nil]
      omega
    · intro k
      simp only [List.mem_cons, Access.write.injEq, List.not_mem_nil, or_false, reduceCtorEq,
        false_or, List.length_nil]
      omega
  | cons x s ih =>
    -- a byte of the text is read at `i`, written at `j`, and both go on
    obtain ⟨hx, hs'⟩ := List.ne_and_not_mem_of_not_mem_cons hs
    have hrest := ih (i := i + 1) (j := j + 1) hs'
    rw [List.cons_append, copyAccesses, if_neg hx.symm]
    constructor
    · show (copyAccesses stop (s ++ stop :: rest) (i + 1) (j + 1)).2 = _
      rw [hrest.found, List.length_cons]
      exact congrArg some (by omega)
    · intro k
      simp only [List.mem_cons, Access.read.injEq, reduceCtorEq, false_or, hrest.read,
        List.length_cons]
      omega
    · intro k
      simp only [List.mem_cons, Access.write.injEq, reduceCtorEq, false_or, hrest.write,
        List.length_cons]
      omega

/-- The first byte is always read. -/
theorem copyAccesses_first (stop : UInt8) (bytes : List UInt8) (i j : Nat) :
    .read i ∈ (copyAccesses stop bytes i j).1 := by
  cases bytes with
  | nil => exact List.mem_singleton.mpr rfl
  | cons x bytes =>
    unfold copyAccesses
    split <;> exact List.mem_cons_self

/-- Where the end is not among some bytes, the one behind them is read as well. -/
theorem copyAccesses_past (hs : stop ∉ s) :
    .read (i + s.length) ∈ (copyAccesses stop (s ++ rest) i j).1 := by
  induction s generalizing i j with
  | nil => exact copyAccesses_first stop rest i j
  | cons x s ih =>
    obtain ⟨hx, hs'⟩ := List.ne_and_not_mem_of_not_mem_cons hs
    have hrest := ih (i := i + 1) (j := j + 1) hs'
    rw [List.cons_append, copyAccesses, if_neg hx.symm, List.length_cons]
    rw [show i + (s.length + 1) = i + 1 + s.length from by omega]
    exact List.mem_cons_of_mem _ (List.mem_cons_of_mem _ hrest)

/-- The end is not in front of the beginning. -/
theorem le_of_copyAccesses {bytes : List UInt8} {k : Nat}
    (h : (copyAccesses stop bytes i j).2 = some k) : i ≤ k := by
  induction bytes generalizing i j with
  | nil => cases h
  | cons x bytes ih =>
    unfold copyAccesses at h
    split at h
    · cases h
      exact Nat.le_refl _
    · exact Nat.le_of_succ_le (ih h)

theorem charAt_eq_head {c : HttpConnection} {p : Ptr} {mem : List UInt8}
    (hmem : c.storage p = some mem) (i : Nat) :
    c.charAt p i = (mem.drop (p.off + i)).head? := by
  rw [charAt, hmem, List.head?_drop]
  rfl

/-- `copyUntil` is the loop, as long as it stays in the storage and in the field. -/
theorem copyUntil_found {c : HttpConnection} {p : Ptr} {mem : List UInt8} {room : Nat}
    (hmem : c.storage p = some mem) (hs : stop ∉ s) (hroom : s.length ≤ room)
    (hbytes : mem.drop (p.off + i) = s ++ stop :: rest) :
    c.copyUntil p stop room i = some (s, i + s.length) := by
  induction s generalizing i room with
  | nil =>
    have hfirst : c.charAt p i = some stop := by
      rw [charAt_eq_head hmem, hbytes]
      rfl
    unfold copyUntil
    rw [hfirst, Option.bind_eq_bind, Option.bind_some]
    exact if_pos rfl
  | cons x s ih =>
    obtain ⟨hx, hs'⟩ := List.ne_and_not_mem_of_not_mem_cons hs
    have hfirst : c.charAt p i = some x := by
      rw [charAt_eq_head hmem, hbytes]
      rfl
    have hnext : mem.drop (p.off + (i + 1)) = s ++ stop :: rest := by
      rw [← Nat.add_assoc, ← List.drop_drop, hbytes]
      rfl
    cases room with
    | zero => exact absurd hroom (Nat.not_succ_le_zero _)
    | succ room =>
      have hrest := ih hs' (Nat.le_of_succ_le_succ hroom) hnext
      rw [copyUntil, hfirst, Option.bind_eq_bind, Option.bind_some, if_neg hx.symm]
      dsimp only
      rw [hrest, Option.bind_eq_bind, Option.bind_some, List.length_cons]
      exact congrArg (fun k => some (x :: s, k)) (by omega)

/-- It ends where the loop does, if the field has room for what is copied. -/
theorem copyUntil_stop_iff {c : HttpConnection} {p : Ptr} {mem : List UInt8} {room k : Nat}
    (hmem : c.storage p = some mem) :
    (∃ s, c.copyUntil p stop room i = some (s, k)) ↔
      (copyAccesses stop (mem.drop (p.off + i)) i j).2 = some k ∧ k ≤ i + room := by
  induction room generalizing i j with
  | zero =>
    rw [copyUntil, charAt_eq_head hmem]
    cases hbytes : mem.drop (p.off + i) with
    | nil =>
      -- nothing is read, and nothing is found
      constructor
      · rintro ⟨s, hs⟩
        cases hs
      · rintro ⟨hfound, -⟩
        cases hfound
    | cons x bytes =>
      rw [List.head?_cons, Option.bind_eq_bind, Option.bind_some, copyAccesses]
      by_cases hx : x = stop
      · rw [if_pos hx, if_pos hx]
        simp only [Option.some.injEq, Prod.mk.injEq, exists_eq_left', Nat.add_zero]
        exact ⟨fun h => ⟨h, Nat.le_of_eq h.symm⟩, fun h => h.1⟩
      · rw [if_neg hx, if_neg hx]
        constructor
        · rintro ⟨s, hs⟩
          cases hs
        · rintro ⟨hfound, hk⟩
          have hle := le_of_copyAccesses hfound
          omega
  | succ room ih =>
    rw [copyUntil, charAt_eq_head hmem]
    cases hbytes : mem.drop (p.off + i) with
    | nil =>
      -- nothing is read, and nothing is found
      constructor
      · rintro ⟨s, hs⟩
        cases hs
      · rintro ⟨hfound, -⟩
        cases hfound
    | cons x bytes =>
      rw [List.head?_cons, Option.bind_eq_bind, Option.bind_some, copyAccesses]
      by_cases hx : x = stop
      · rw [if_pos hx, if_pos hx]
        simp only [Option.some.injEq, Prod.mk.injEq, exists_eq_left']
        exact ⟨fun h => ⟨h, by omega⟩, fun h => h.1⟩
      · rw [if_neg hx, if_neg hx]
        have hnext : mem.drop (p.off + (i + 1)) = bytes := by
          rw [← Nat.add_assoc, ← List.drop_drop, hbytes]
          rfl
        have hrest := ih (i := i + 1) (j := j + 1)
        rw [hnext] at hrest
        show _ ↔ (copyAccesses stop bytes (i + 1) (j + 1)).2 = some k ∧ k ≤ i + (room + 1)
        rw [show i + (room + 1) = i + 1 + room from by omega, ← hrest]
        constructor
        · rintro ⟨s, hs⟩
          obtain ⟨⟨s', k'⟩, hcopy, hs⟩ := Option.bind_eq_some_iff.mp hs
          cases hs
          exact ⟨s', hcopy⟩
        · rintro ⟨s, hs⟩
          exact ⟨x :: s, Option.bind_eq_some_iff.mpr ⟨_, hs, rfl⟩⟩

end Loop

/-! ## Both loops

The offsets of the loops are those of one layout. A body that has it is read to its NUL; any other
one is read behind it, or a loop does not end. -/

section Form

variable {c : HttpConnection} {body name password : List UInt8} {i : Nat}

/-- The accesses of the first loop. -/
def nameAccesses (c : HttpConnection) : List Access × Option Nat :=
  copyAccesses ampersand (c.formBytes.drop 5) 5 0

/-- The accesses of the second loop, where the first one has ended at `i`. -/
def passwordAccesses (c : HttpConnection) (i : Nat) : List Access × Option Nat :=
  copyAccesses 0 (c.formBytes.drop (i + 10)) (i + 10) 0

theorem decodeAccesses_found (h : c.nameAccesses.2 = some i) :
    c.decodeAccesses
      = (c.nameAccesses.1 ++ (c.passwordAccesses i).1, (c.passwordAccesses i).2) := by
  rw [decodeAccesses, show copyAccesses ampersand _ 5 0 = (c.nameAccesses.1, some i) from
    Prod.ext rfl h]
  rfl

theorem nameAccesses_subset (c : HttpConnection) : c.nameAccesses.1 ⊆ c.decodeAccesses.1 := by
  cases hfound : c.nameAccesses.2 with
  | none =>
    rw [decodeAccesses, show copyAccesses ampersand _ 5 0 = (c.nameAccesses.1, none) from
      Prod.ext rfl hfound]
    exact List.Subset.refl _
  | some i =>
    rw [decodeAccesses_found hfound]
    exact List.subset_append_left _ _

theorem formBytes_eq (h : c.deref c.string = some body) :
    0 ∉ body ∧ ∃ rest, c.formBytes = body ++ 0 :: rest := by
  obtain ⟨mem, hat⟩ := deref_eq_some.mp h
  obtain ⟨hzero, rest, hmem⟩ := cString_eq_some_iff.mp hat.string
  refine ⟨hzero, rest, ?_⟩
  rw [formBytes, hat.storage]
  exact hmem

/-- `decodeForm` has a result only where both loops end. -/
theorem decodeAccesses_ends (h : c.decodeForm.isSome) : c.decodeAccesses.2.isSome := by
  obtain ⟨form, hform⟩ := Option.isSome_iff_exists.mp h
  obtain ⟨⟨name, i⟩, hname, hform⟩ := Option.bind_eq_some_iff.mp hform
  obtain ⟨⟨password, k⟩, hpassword, -⟩ := Option.bind_eq_some_iff.mp hform
  cases hmem : c.storage c.string with
  | none =>
    rw [copyUntil, charAt, hmem] at hname
    cases hname
  | some mem =>
    have hbytes : c.formBytes = mem.drop c.string.off := by
      rw [formBytes, hmem]
      rfl
    have hfirst := ((copyUntil_stop_iff (j := 0) hmem).mp ⟨name, hname⟩).1
    have hsecond := ((copyUntil_stop_iff (j := 0) hmem).mp ⟨password, hpassword⟩).1
    rw [← List.drop_drop, ← hbytes] at hfirst hsecond
    rw [decodeAccesses_found hfirst]
    exact Option.isSome_iff_exists.mpr ⟨k, hsecond⟩

theorem FormLayout.length_eq (hform : FormLayout body name password) :
    body.length = 15 + name.length + password.length := by
  obtain ⟨-, label, label', hlabel, hlabel', rfl⟩ := hform
  simp only [List.length_append, List.length_cons, hlabel, hlabel']
  omega

/-- The fields are parts of the body. -/
theorem FormLayout.noNul (hform : FormLayout body name password) (hzero : 0 ∉ body) :
    0 ∉ name ∧ 0 ∉ password := by
  obtain ⟨-, label, label', -, -, rfl⟩ := hform
  have hfields := fun hmem => hzero (List.mem_append_right label hmem)
  refine ⟨fun hname => hfields (List.mem_append_left _ hname), fun hpassword => hfields ?_⟩
  exact List.mem_append_right _ (List.mem_cons_of_mem _ (List.mem_append_right _ hpassword))

/-- The bytes the two loops begin at. -/
theorem FormLayout.drop (hform : FormLayout body name password) (rest : List UInt8) :
    (∃ more, (body ++ 0 :: rest).drop 5 = name ++ ampersand :: more) ∧
      (body ++ 0 :: rest).drop (5 + name.length + 10) = password ++ 0 :: rest := by
  obtain ⟨-, label, label', hlabel, hlabel', rfl⟩ := hform
  have hname : (label ++ (name ++ ampersand :: (label' ++ password)) ++ 0 :: rest).drop 5
      = name ++ ampersand :: (label' ++ (password ++ 0 :: rest)) := by
    rw [← hlabel, List.append_assoc, List.drop_left, List.append_assoc, List.cons_append,
      List.append_assoc]
  refine ⟨⟨_, hname⟩, ?_⟩
  rw [Nat.add_assoc, ← List.drop_drop, hname, ← List.drop_drop, List.drop_left,
    show (10 : Nat) = 1 + 9 from rfl, ← List.drop_drop, ← hlabel']
  exact List.drop_left

/-- The two loops on a body of the layout. -/
theorem accesses_of_layout (h : c.deref c.string = some body)
    (hform : FormLayout body name password) :
    Copies name.length 5 0 c.nameAccesses ∧
      Copies password.length (5 + name.length + 10) 0 (c.passwordAccesses (5 + name.length)) := by
  obtain ⟨hzero, rest, hbytes⟩ := formBytes_eq h
  obtain ⟨⟨more, hname⟩, hpassword⟩ := hform.drop rest
  constructor
  · rw [nameAccesses, hbytes, hname]
    exact copyAccesses_found hform.1
  · rw [passwordAccesses, hbytes, hpassword]
    exact copyAccesses_found (hform.noNul hzero).2

/-- What the loops leave in the two fields. -/
theorem decodeForm_eq (h : c.deref c.string = some body) (hform : FormLayout body name password)
    (hname : name.length ≤ formFieldSize) (hpassword : password.length ≤ formFieldSize) :
    c.decodeForm = some (formField name, formField password) := by
  obtain ⟨mem, hat⟩ := deref_eq_some.mp h
  obtain ⟨hzero, rest, hmem⟩ := cString_eq_some_iff.mp hat.string
  obtain ⟨⟨more, hfirst⟩, hsecond⟩ := hform.drop rest
  rw [← hmem, List.drop_drop] at hfirst hsecond
  rw [decodeForm, show (38 : UInt8) = ampersand from rfl,
    copyUntil_found hat.storage hform.1 hname hfirst, Option.bind_eq_bind, Option.bind_some]
  dsimp only
  rw [copyUntil_found hat.storage (hform.noNul hzero).2 hpassword hsecond]
  rfl

/-- The loops stay where they may, and end at the NUL of the body. -/
theorem inBounds_of_layout (h : c.deref c.string = some body)
    (hform : FormLayout body name password) (hname : name.length < formFieldSize)
    (hpassword : password.length < formFieldSize) : InBounds body c.decodeAccesses := by
  obtain ⟨hfirst, hsecond⟩ := accesses_of_layout h hform
  have hlen := hform.length_eq
  rw [decodeAccesses_found hfirst.found]
  constructor
  · intro k hk
    rcases List.mem_append.mp hk with hk | hk
    · have hle := (hfirst.read k).mp hk
      omega
    · have hle := (hsecond.read k).mp hk
      omega
  · intro k hk
    rcases List.mem_append.mp hk with hk | hk
    · have hle := (hfirst.write k).mp hk
      omega
    · have hle := (hsecond.write k).mp hk
      omega
  · rw [hsecond.found]
    rfl

/-- Loops that read nothing behind the NUL have met a body of the layout. -/
theorem layout_of_reads (h : c.deref c.string = some body)
    (hreads : ∀ k, .read k ∈ c.decodeAccesses.1 → k ≤ body.length) :
    ∃ name password, FormLayout body name password := by
  obtain ⟨hzero, rest, hbytes⟩ := formBytes_eq h
  have hfive : 5 ≤ body.length :=
    hreads 5 (nameAccesses_subset c (copyAccesses_first ampersand _ 5 0))
  obtain ⟨label, s, hlabel, rfl⟩ : ∃ label s : List UInt8, label.length = 5 ∧ body = label ++ s :=
    ⟨body.take 5, body.drop 5, List.length_take_of_le hfive, (List.take_append_drop 5 body).symm⟩
  have hdrop : c.formBytes.drop 5 = s ++ 0 :: rest := by
    rw [hbytes, ← hlabel, List.append_assoc, List.drop_left]
  rcases exists_first [ampersand] s with hnone | ⟨name, x, t, rfl, hname, hx⟩
  · -- without a `&` the loop goes on behind the NUL
    exfalso
    have hs : ampersand ∉ s ++ [0] := by
      intro hmem
      rcases List.mem_append.mp hmem with hmem | hmem
      · exact hnone _ hmem List.mem_cons_self
      · exact absurd hmem (by decide)
    have hpast : .read (5 + (s ++ [0]).length) ∈ c.nameAccesses.1 := by
      rw [nameAccesses, hdrop, show s ++ 0 :: rest = (s ++ [0]) ++ rest from by simp]
      exact copyAccesses_past hs
    have hle := hreads _ (nameAccesses_subset c hpast)
    rw [List.length_append, List.length_append, hlabel, List.length_singleton] at hle
    omega
  · obtain rfl := List.mem_singleton.mp hx
    have hamp : ampersand ∉ name := fun hmem => hname _ hmem List.mem_cons_self
    have hfound : c.nameAccesses.2 = some (5 + name.length) := by
      rw [nameAccesses, hdrop, List.append_assoc, List.cons_append]
      exact (copyAccesses_found hamp).found
    -- the second loop begins at the NUL at the latest
    have hbegin : 5 + name.length + 10 ≤ (label ++ (name ++ ampersand :: t)).length := by
      apply hreads
      rw [decodeAccesses_found hfound]
      exact List.mem_append_right _ (copyAccesses_first 0 _ _ 0)
    rw [List.length_append, List.length_append, List.length_cons, hlabel] at hbegin
    refine ⟨name, t.drop 9, hamp, label, t.take 9, hlabel, ?_, ?_⟩
    · rw [List.length_take]
      omega
    · rw [List.take_append_drop]

/-- **When the decoding stays within its arrays.** For every body in `string_`, whatever stands
behind its NUL: the two loops end, with no read behind the NUL and no write outside of the fields,
if and only if the body has the layout that the loops take for granted and both fields have room
for their NULs. -/
theorem form_in_bounds_iff (h : c.deref c.string = some body) :
    InBounds body c.decodeAccesses ↔ Decodable body := by
  constructor
  · intro hin
    obtain ⟨name, password, hform⟩ := layout_of_reads h hin.reads
    obtain ⟨hfirst, hsecond⟩ := accesses_of_layout h hform
    have hwrites := hin.writes
    rw [decodeAccesses_found hfirst.found] at hwrites
    refine ⟨name, password, hform, hwrites _ ?_, hwrites _ ?_⟩
    · exact List.mem_append_left _ ((hfirst.write _).mpr ⟨Nat.zero_le _, Nat.le_add_left _ _⟩)
    · exact List.mem_append_right _ ((hsecond.write _).mpr ⟨Nat.zero_le _, Nat.le_add_left _ _⟩)
  · rintro ⟨name, password, hform, hname, hpassword⟩
    exact inBounds_of_layout h hform hname hpassword

end Form

/-! ## What is decoded -/

section Decoded

variable {c : HttpConnection} {body user passwd : List UInt8}

/-- The decoding of a body gives back the fields, read as C strings, and ends at its NUL. -/
structure Undoes (c : HttpConnection) (body user passwd : List UInt8) : Prop where
  fields : ∃ name password, c.decodeForm = some (name, password) ∧
    cString name 0 = some user ∧ cString password 0 = some passwd
  stops : c.decodeAccesses.2 = some body.length

theorem cString_formField (hzero : 0 ∉ user) (hroom : user.length < formFieldSize) :
    cString (formField user) 0 = some user := by
  obtain ⟨n, hn⟩ := Nat.exists_eq_add_of_lt hroom
  refine cString_eq_some_iff.mpr ⟨hzero, List.replicate n 0, ?_⟩
  rw [List.drop_zero, formField, hn, Nat.add_assoc, Nat.add_sub_cancel_left, List.replicate_succ]

/-- The fields of a body of the layout are decoded. -/
theorem undoes_of_layout (h : c.deref c.string = some body) (hform : FormLayout body user passwd)
    (huser : user.length < formFieldSize) (hpasswd : passwd.length < formFieldSize) :
    Undoes c body user passwd := by
  obtain ⟨hzero, -⟩ := formBytes_eq h
  obtain ⟨huser0, hpasswd0⟩ := hform.noNul hzero
  obtain ⟨hfirst, hsecond⟩ := accesses_of_layout h hform
  have hlen := hform.length_eq
  constructor
  · exact ⟨_, _, decodeForm_eq h hform (Nat.le_of_lt huser) (Nat.le_of_lt hpasswd),
      cString_formField huser0 huser, cString_formField hpasswd0 hpasswd⟩
  · rw [decodeAccesses_found hfirst.found, hsecond.found]
    exact congrArg some (by omega)

/-- The format of the comment, `user=123&passwd=123`. -/
def documentedForm (user passwd : List UInt8) : List UInt8 :=
  ascii "user=" ++ (user ++ ascii "&passwd=" ++ passwd)

theorem documentedForm_length (user passwd : List UInt8) :
    (documentedForm user passwd).length = 13 + user.length + passwd.length := by
  rw [documentedForm, List.length_append, List.length_append, List.length_append,
    show (ascii "user=").length = 5 from rfl, show (ascii "&passwd=").length = 8 from rfl]
  omega

/-- The loops take the first two bytes of the password for the end of its label. -/
theorem documentedForm_layout (huser : ampersand ∉ user) (htwo : 2 ≤ passwd.length) :
    FormLayout (documentedForm user passwd) user (passwd.drop 2) := by
  refine ⟨huser, ascii "user=", ascii "passwd=" ++ passwd.take 2, rfl, ?_, ?_⟩
  · rw [List.length_append, List.length_take_of_le htwo]
    rfl
  · rw [documentedForm, List.append_assoc (ascii "passwd="), List.take_append_drop,
      List.append_assoc]
    rfl

/-- **The documented format.** For every name without a `&` and every password, each of fewer
than 200 bytes: the decoding of `user=U&passwd=P` does not give back the two fields and end at the
NUL of the body. -/
theorem documented_form_not_decoded (h : c.deref c.string = some (documentedForm user passwd))
    (hamp : ampersand ∉ user) (huser : user.length < formFieldSize)
    (hpasswd : passwd.length < formFieldSize) :
    ¬ Undoes c (documentedForm user passwd) user passwd := by
  intro hdone
  obtain ⟨hzero, rest, hbytes⟩ := formBytes_eq h
  -- behind the `&` the decoder skips ten bytes, the form has eight
  rcases Nat.lt_or_ge passwd.length 2 with hshort | htwo
  · -- the second loop begins behind the NUL
    have hfound : c.nameAccesses.2 = some (5 + user.length) := by
      have hdrop : c.formBytes.drop 5
          = user ++ ampersand :: (ascii "passwd=" ++ passwd ++ 0 :: rest) := by
        rw [hbytes, documentedForm, List.append_assoc, ← show (ascii "user=").length = 5 from rfl,
          List.drop_left]
        simp only [List.append_assoc]
        rfl
      rw [nameAccesses, hdrop]
      exact (copyAccesses_found hamp).found
    have hstop := hdone.stops
    rw [decodeAccesses_found hfound] at hstop
    have hle : 5 + user.length + 10 ≤ (documentedForm user passwd).length :=
      le_of_copyAccesses hstop
    rw [documentedForm_length] at hle
    omega
  · -- the password lacks its first two bytes
    have hform := documentedForm_layout hamp htwo
    have hroom : (passwd.drop 2).length < formFieldSize := by
      rw [List.length_drop]
      omega
    obtain ⟨name, password, hdecode, -, hstring⟩ := hdone.fields
    have hdecode' := decodeForm_eq h hform (Nat.le_of_lt huser) (Nat.le_of_lt hroom)
    cases hdecode'.symm.trans hdecode
    rw [cString_formField (hform.noNul hzero).2 hroom] at hstring
    have hlen := congrArg List.length (Option.some.inj hstring)
    rw [List.length_drop] at hlen
    omega

end Decoded

/-! ## Three bodies -/

/-- A connection whose `string_` is a text. -/
def submitted (text : String) : HttpConnection :=
  { passedOver (ascii text ++ [0]) with string := .input 8 }

/-- A body of the layout. -/
theorem form_in_bounds_iff_login :
    InBounds (ascii "user=a&password=b") (submitted "user=a&password=b").decodeAccesses :=
  (form_in_bounds_iff (by decide +kernel)).mpr ⟨ascii "a", ascii "b",
    ⟨by decide +kernel, ascii "user=", ascii "password=", by decide +kernel⟩, by decide +kernel⟩

/-- In the documented format a password of one byte is read from behind the NUL on. -/
theorem short_form_read_past :
    (submitted "user=1&passwd=1").deref (submitted "user=1&passwd=1").string
        = some (ascii "user=1&passwd=1") ∧
      ¬ InBounds (ascii "user=1&passwd=1") (submitted "user=1&passwd=1").decodeAccesses := by
  refine ⟨by decide +kernel, fun h => ?_⟩
  have hread : .read 16 ∈ (submitted "user=1&passwd=1").decodeAccesses.1 := by decide +kernel
  exact absurd (h.reads 16 hread) (by decide +kernel)

/-- An empty password in the documented format. -/
theorem documented_form_not_decoded_empty :
    ¬ Undoes (submitted "user=1&passwd=") (documentedForm (ascii "1") []) (ascii "1") [] := by
  have hstring : (submitted "user=1&passwd=").deref (submitted "user=1&passwd=").string
      = some (documentedForm (ascii "1") []) := by decide +kernel
  exact documented_form_not_decoded hstring (by decide +kernel) (by decide) (by decide)

/-- The body of the comment: the password is decoded as its last byte. -/
theorem comment_form_not_decoded :
    (submitted "user=123&passwd=123").decodeForm
        = some (formField (ascii "123"), formField (ascii "3")) ∧
      ¬ Undoes (submitted "user=123&passwd=123") (documentedForm (ascii "123") (ascii "123"))
        (ascii "123") (ascii "123") := by
  have hdecode : (submitted "user=123&passwd=123").decodeForm
      = some (formField (ascii "123"), formField (ascii "3")) := by decide +kernel
  refine ⟨hdecode, fun h => ?_⟩
  obtain ⟨name, password, hform, -, hpassword⟩ := h.fields
  cases hdecode.symm.trans hform
  exact absurd hpassword (by decide +kernel)

end HttpWebserver.HttpConnection
